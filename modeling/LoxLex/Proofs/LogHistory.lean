import Mathlib.Data.List.Basic
import Mathlib.Data.List.Induction
import LoxLex.Proofs.Messages

/-!
# Histories of a log

Messages are posted, some of them handed over half-way, while channels are switched and directed
elsewhere in between. What a stream has received is told by the operations alone: a message is a
line on it if the last operations about its channel, before it was posted, had the channel on and
led there.

## Main definitions

* `Log.Op`, `Log.after` — what can be done with a log, and what many operations leave.
* `Log.settingAfter` — a channel after many operations, told by the last that were about it.
* `Log.linesOn` — the lines that many operations write to a stream.
* `Log.Delivered` — what holds of a log after any operations.

## Main statements

* `Log.settings_exec`, `Log.text_exec`: all that an operation does to channels and streams.
* `Log.postHandedOver_eq`: a message that is handed over is one message.
* `Log.settings_after`, `Log.text_after`: what many operations do to them.
* `Log.history_delivered`: every history is delivered.
-/

namespace LoxLex.Log

variable {log : Log} {ops : List Op} {channel : Channel} {parts : List Part}

/-- What can be done with a log. -/
inductive Op where
  | post (channel : Channel) (parts : List Part)
  | postHandedOver (channel : Channel) (first second : List Part)
  | enable (channel : Channel)
  | disable (channel : Channel)
  | setOutput (channel : Channel) (output : Option Stream)
  | reset

def Op.exec (log : Log) : Op → Log
  | post channel parts => log.post channel parts
  | postHandedOver channel first second => log.postHandedOver channel first second
  | enable channel => log.enable channel
  | disable channel => log.disable channel
  | setOutput channel output => log.setOutput channel output
  | reset => log.reset

/-- What operations leave of a log. -/
def after (log : Log) (ops : List Op) : Log := ops.foldl Op.exec log

theorem after_concat (log : Log) (ops : List Op) (op : Op) :
    log.after (ops ++ [op]) = op.exec (log.after ops) := by
  simp [after]

/-! ## Channels -/

/-- Whether a channel is on, as far as an operation is about that. -/
def Op.enabled? (channel : Channel) : Op → Option Bool
  | enable c => if channel = c then some true else none
  | disable c => if channel = c then some false else none
  | reset => some channel.default.enabled
  | _ => none

/-- Where a channel leads, as far as an operation is about that. -/
def Op.output? (channel : Channel) : Op → Option (Option Stream)
  | setOutput c output => if channel = c then some output else none
  | reset => some channel.default.output
  | _ => none

/-- A channel after many operations: the last that is about a thing decides it. -/
def settingAfter (settings : Channel → Channel.Setting) (ops : List Op) (channel : Channel) :
    Channel.Setting where
  enabled := (ops.filterMap (Op.enabled? channel)).getLastD (settings channel).enabled
  output := (ops.filterMap (Op.output? channel)).getLastD (settings channel).output

@[simp] theorem settings_post (log : Log) (channel : Channel) (parts : List Part) :
    (log.post channel parts).settings = log.settings := by
  rw [post_eq, settings_tell]

/-- A statement that was handed over writes nothing when it ends. -/
theorem finish_of_spent {s : Statement} (h : s.spent = true) : log.finish s = log := by
  unfold finish
  split <;> simp [h]

/-- A message that is handed over is the one message of all its parts. -/
theorem postHandedOver_eq (log : Log) (channel : Channel) (first second : List Part) :
    log.postHandedOver channel first second = log.post channel (first ++ second) := by
  have hjoined : ((log.begin channel).add first).add second =
      (log.begin channel).add (first ++ second) := by
    simp [Statement.add]
  rw [post, ← hjoined]
  exact finish_of_spent rfl

/-- All that an operation does to a channel. -/
theorem settings_exec (op : Op) (log : Log) (channel : Channel) :
    (op.exec log).settings channel =
      { enabled := (op.enabled? channel).getD (log.settings channel).enabled
        output := (op.output? channel).getD (log.settings channel).output } := by
  cases op with
  | post c parts => rw [Op.exec, settings_post]; rfl
  | postHandedOver c first second => rw [Op.exec, postHandedOver_eq, settings_post]; rfl
  | reset => rfl
  | enable c => by_cases h : channel = c <;> simp [Op.exec, enable, set, Op.enabled?, Op.output?, h]
  | disable c =>
    by_cases h : channel = c <;> simp [Op.exec, disable, set, Op.enabled?, Op.output?, h]
  | setOutput c output =>
    by_cases h : channel = c <;> simp [Op.exec, setOutput, set, Op.enabled?, Op.output?, h]

theorem settings_after (log : Log) (ops : List Op) (channel : Channel) :
    (log.after ops).settings channel = settingAfter log.settings ops channel := by
  induction ops using List.reverseRecOn with
  | nil => rfl
  | append_singleton ops op ih =>
    rw [after_concat, settings_exec, ih]
    cases henabled : op.enabled? channel <;> cases houtput : op.output? channel <;>
      simp [settingAfter, henabled, houtput]

/-! ## Lines -/

/-- The message that an operation posts: its channel and its parts, one after the other. -/
def Op.message? : Op → Option (Channel × List Part)
  | post channel parts => some (channel, parts)
  | postHandedOver channel first second => some (channel, first ++ second)
  | _ => none

/-- The line that an operation writes to a stream, if the channels are set so. -/
def Op.lineOn? (stream : Stream) (settings : Channel → Channel.Setting) (op : Op) : Option Bytes :=
  match op.message? with
  | some (channel, parts) =>
    if settings channel = ⟨true, some stream⟩ then some (line parts) else none
  | none => none

/-- The lines that operations write to a stream, each with the channels as the operations before it
have left them. -/
def linesOn (stream : Stream) (settings : Channel → Channel.Setting) (ops : List Op) :
    List Bytes :=
  (List.range ops.length).filterMap fun i =>
    ops[i]?.bind (Op.lineOn? stream (settingAfter settings (ops.take i)))

theorem linesOn_concat (stream : Stream) (settings : Channel → Channel.Setting) (ops : List Op)
    (op : Op) : linesOn stream settings (ops ++ [op]) =
      linesOn stream settings ops ++ (op.lineOn? stream (settingAfter settings ops)).toList := by
  have hbefore : ∀ i ∈ List.range ops.length,
      (ops ++ [op])[i]?.bind (Op.lineOn? stream (settingAfter settings ((ops ++ [op]).take i))) =
        ops[i]?.bind (Op.lineOn? stream (settingAfter settings (ops.take i))) := by
    intro i hi
    have hlt := List.mem_range.mp hi
    rw [List.getElem?_append_left hlt, List.take_append_of_le_length (Nat.le_of_lt hlt)]
  rw [linesOn, List.length_append, List.length_singleton, List.range_succ, List.filterMap_append,
    List.filterMap_congr hbefore, ← linesOn]
  cases h : op.lineOn? stream (settingAfter settings ops) <;> simp [h]

/-- All that an operation does to a stream. -/
theorem text_exec (op : Op) (log : Log) (stream : Stream) : (op.exec log).text stream =
    log.text stream ++ (op.lineOn? stream log.settings).toList.flatten := by
  have hpost : ∀ c parts, (log.post c parts).text stream =
      log.text stream ++ ((Op.post c parts).lineOn? stream log.settings).toList.flatten := by
    intro c parts
    rw [post_eq, text_tell]
    by_cases h : log.settings c = ⟨true, some stream⟩ <;> simp [Op.lineOn?, Op.message?, h]
  cases op with
  | post c parts => exact hpost c parts
  | postHandedOver c first second =>
    rw [Op.exec, postHandedOver_eq]
    exact hpost c (first ++ second)
  | _ => exact (List.append_nil _).symm

/-- What a stream has received after many operations. -/
theorem text_after (log : Log) (ops : List Op) (stream : Stream) : (log.after ops).text stream =
    log.text stream ++ (linesOn stream log.settings ops).flatten := by
  induction ops using List.reverseRecOn with
  | nil => simp [after, linesOn]
  | append_singleton ops op ih =>
    have hsettings : (log.after ops).settings = settingAfter log.settings ops :=
      funext (settings_after log ops)
    rw [after_concat, text_exec, ih, hsettings, linesOn_concat, List.flatten_append,
      List.append_assoc]

/-! ## Histories -/

/-- The channel that an operation switches or directs, if it does not do so to all of them. -/
def Op.channel? : Op → Option Channel
  | enable channel => some channel
  | disable channel => some channel
  | setOutput channel _ => some channel
  | _ => none

/-- What holds of a log that has come from `start` by the operations `ops`. Every stream has
received a line for each message whose channel was on and led there when it was posted, in this
order, and nothing else. A line is the parts of its message one after the other, texts as they are
and numbers in decimal with a sign if they are negative, and a newline. A message that is handed
over is one message. What is posted on a channel that is off or leads nowhere changes no stream.
Switching or directing a channel changes no other channel and no stream, and a reset brings all
channels back to their defaults and changes no stream. -/
structure Delivered (start : Log) (ops : List Op) (log : Log) : Prop where
  text_eq : ∀ stream,
    log.text stream = start.text stream ++ (linesOn stream start.settings ops).flatten
  line_nil : line [] = ascii "\n"
  line_text : ∀ piece parts, line (.text piece :: parts) = piece ++ line parts
  line_number : ∀ value parts, line (.number value :: parts) =
    (if value < 0 then ascii "-" else []) ++ Bytes.decimal value.natAbs ++ line parts
  settings_eq : log.settings = settingAfter start.settings ops
  handed_over : ∀ channel first second,
    log.postHandedOver channel first second = log.post channel (first ++ second)
  lost : ∀ (op : Op) channel parts, op.message? = some (channel, parts) →
    ((log.settings channel).enabled = false ∨ (log.settings channel).output = none) →
      ∀ stream, (op.exec log).text stream = log.text stream
  apart : ∀ (op : Op) channel, op.channel? = some channel →
    (∀ other, other ≠ channel → (op.exec log).settings other = log.settings other) ∧
      ∀ stream, (op.exec log).text stream = log.text stream
  reset : log.reset.settings = Channel.default ∧ ∀ stream, log.reset.text stream = log.text stream

theorem lineOn?_of_lost {op : Op} {settings : Channel → Channel.Setting} {stream : Stream}
    (hop : op.message? = some (channel, parts))
    (h : (settings channel).enabled = false ∨ (settings channel).output = none) :
    op.lineOn? stream settings = none := by
  have hne : settings channel ≠ ⟨true, some stream⟩ := by
    intro heq
    simp [heq] at h
  simp [Op.lineOn?, hop, hne]

/-- An operation that is about one channel says nothing about another, and writes nothing. -/
theorem Op.of_channel? {op : Op} (hop : op.channel? = some channel) :
    (∀ other, other ≠ channel → op.enabled? other = none ∧ op.output? other = none) ∧
      op.message? = none := by
  cases op <;> simp_all [Op.channel?, Op.enabled?, Op.output?, Op.message?]

theorem line_cons (part : Part) (parts : List Part) :
    line (part :: parts) = part.format ++ line parts := by
  rw [line, line, List.flatMap_cons, List.append_assoc]

theorem format_number (value : Int) : (Part.number value).format =
    (if value < 0 then ascii "-" else []) ++ Bytes.decimal value.natAbs := by
  cases value with
  | ofNat n => rfl
  | negSucc n =>
    rw [if_pos (Int.negSucc_lt_zero n)]
    rfl

/-- Every history of a log is delivered. -/
theorem history_delivered (log : Log) (ops : List Op) : Delivered log ops (log.after ops) := by
  constructor
  case text_eq => exact text_after log ops
  case line_nil => rfl
  case line_text => exact fun piece => line_cons (.text piece)
  case line_number =>
    intro value parts
    rw [line_cons, format_number]
  case settings_eq => exact funext (settings_after log ops)
  case handed_over => exact postHandedOver_eq _
  case lost =>
    intro op channel parts hop hlost stream
    rw [text_exec, lineOn?_of_lost hop hlost]
    exact List.append_nil _
  case apart =>
    intro op channel hop
    obtain ⟨hothers, hmessage⟩ := Op.of_channel? hop
    constructor
    · intro other hne
      obtain ⟨henabled, houtput⟩ := hothers other hne
      rw [settings_exec, henabled, houtput]
      rfl
    · intro stream
      simp [text_exec, Op.lineOn?, hmessage]
  case reset => exact ⟨rfl, text_reset _⟩

/-- Two channels lead to one stream, and one of them is switched off. -/
example : (after {} [.setOutput .debug (some (.named (ascii "all"))),
    .setOutput .general (some (.named (ascii "all"))), .enable .debug,
    .postHandedOver .debug [.text (ascii "a")] [.number (-1)], .disable .general,
    .post .general [.text (ascii "b")], .post .debug []]).text (.named (ascii "all")) =
    ascii "a-1\n\n" := by
  decide +kernel

end LoxLex.Log
