import LoxLex.Bytes

/-!
# Logs

Messages go to channels. Every channel can be switched off and directed to a stream, and a
log keeps all that was written to any stream.

## Main definitions

* `Log.post` — one message on a channel.
* `Log.Statement` — a message that is put together piece by piece.
* `Log.text` — what was written to a stream.
-/

namespace LoxLex

inductive Channel where
  | general
  | debug
  | error
deriving DecidableEq, Repr

inductive Stream where
  | stdout
  | stderr
  | named (name : Bytes)
deriving DecidableEq, Repr

/-- Whether a channel is on, and where it leads. Without a stream its messages are lost. -/
structure Channel.Setting where
  enabled : Bool
  output : Option Stream
deriving DecidableEq, Repr

/-- Errors go to `stderr` and all else to `stdout`; only `debug` starts switched off. -/
def Channel.default : Channel → Channel.Setting
  | .general => ⟨true, some .stdout⟩
  | .debug => ⟨false, some .stdout⟩
  | .error => ⟨true, some .stderr⟩

structure Log where
  settings : Channel → Channel.Setting := Channel.default
  written : List (Stream × Bytes) := []

namespace Log

/-- All that was written to a stream. -/
def text (log : Log) (stream : Stream) : Bytes :=
  (log.written.filter (·.1 = stream)).flatMap (·.2)

/-- Writes to a stream, past all channels. -/
def print (log : Log) (stream : Stream) (text : Bytes) : Log :=
  { log with written := log.written ++ [(stream, text)] }

/-! ## Channels -/

def isEnabled (log : Log) (channel : Channel) : Bool := (log.settings channel).enabled

def set (log : Log) (channel : Channel) (setting : Channel.Setting) : Log :=
  { log with settings := fun c => if c = channel then setting else log.settings c }

def enable (log : Log) (channel : Channel) : Log :=
  log.set channel { log.settings channel with enabled := true }

def disable (log : Log) (channel : Channel) : Log :=
  log.set channel { log.settings channel with enabled := false }

def setOutput (log : Log) (channel : Channel) (output : Option Stream) : Log :=
  log.set channel { log.settings channel with output }

/-- Brings the channels back to their defaults. What was written stays. -/
def reset (log : Log) : Log := { log with settings := Channel.default }

/-! ## Messages -/

/-- A piece of a message. -/
inductive Part where
  | text (piece : Bytes)
  | number (value : Int)
deriving DecidableEq, Repr

def Part.format : Part → Bytes
  | .text piece => piece
  | .number value => Bytes.decimalInt value

/-- A message in the making. It goes where its channel led when it was begun. A statement that
was handed over to another is spent and will write nothing. -/
structure Statement where
  setting : Channel.Setting
  text : Bytes := []
  spent : Bool := false

/-- Begins a message on a channel. -/
def begin (log : Log) (channel : Channel) : Statement := { setting := log.settings channel }

def Statement.add (s : Statement) (parts : List Part) : Statement :=
  { s with text := s.text ++ parts.flatMap Part.format }

/-- Passes a message on to a new statement; the second answer is the old one. -/
def Statement.handOver (s : Statement) : Statement × Statement := (s, { s with spent := true })

/-- Ends a statement. Its line is written if its channel was on and led anywhere. -/
def finish (log : Log) (s : Statement) : Log :=
  match s.setting.output with
  | some stream =>
    if s.setting.enabled && !s.spent then log.print stream (s.text ++ ascii "\n") else log
  | none => log

/-- Writes one message to a channel. -/
def post (log : Log) (channel : Channel) (parts : List Part) : Log :=
  log.finish ((log.begin channel).add parts)

/-- Writes one message to a channel, handing it over between its two groups of parts. -/
def postHandedOver (log : Log) (channel : Channel) (first second : List Part) : Log :=
  let (new, old) := ((log.begin channel).add first).handOver
  (log.finish (new.add second)).finish old

/-! ## What writing and setting change -/

@[simp] theorem settings_print (log : Log) (stream : Stream) (text : Bytes) :
    (log.print stream text).settings = log.settings := rfl

@[simp] theorem text_print (log : Log) (stream other : Stream) (text : Bytes) :
    (log.print stream text).text other =
      log.text other ++ if stream = other then text else [] := by
  by_cases h : stream = other <;> simp [Log.text, print, h]

@[simp] theorem text_reset (log : Log) (stream : Stream) :
    log.reset.text stream = log.text stream := rfl

end Log

end LoxLex
