import LoxLex.Log

/-!
# Lines on a channel

A message becomes one line on the stream that its channel leads to. If the channel is off or
leads nowhere, the log stays as it is.

## Main definitions

* `Log.tell` — a log with further lines on a channel.
* `Log.Writes` — what is written between one log and a later one.

## Main statements

* `Log.post_eq`: a message is one line on its channel.
* `Log.text_tell`: which streams the lines reach.
-/

namespace LoxLex

variable {α : Type}

/-- What lines on a channel with this setting become: writes to its stream, if it is on and has
one. -/
def Channel.Setting.deliver (s : Channel.Setting) (lines : List Bytes) : List (Stream × Bytes) :=
  match s with
  | ⟨true, some stream⟩ => lines.map (stream, ·)
  | _ => []

namespace Channel.Setting

variable {s : Channel.Setting} {lines : List Bytes}

@[simp] theorem deliver_nil : s.deliver [] = [] := by
  unfold deliver
  split <;> rfl

theorem deliver_append (more : List Bytes) :
    s.deliver (lines ++ more) = s.deliver lines ++ s.deliver more := by
  unfold deliver
  split <;> simp

theorem deliver_of_disabled (h : s.enabled = false) : s.deliver lines = [] := by
  unfold deliver
  split
  · cases h
  · rfl

end Channel.Setting

namespace Log

variable {log : Log} {channel : Channel} {lines : List Bytes}

/-- The line that a message is written as. -/
def line (parts : List Part) : Bytes := parts.flatMap Part.format ++ ascii "\n"

/-- The log with further lines on a channel. -/
def tell (log : Log) (channel : Channel) (lines : List Bytes) : Log :=
  { log with written := log.written ++ (log.settings channel).deliver lines }

@[simp] theorem settings_tell : (log.tell channel lines).settings = log.settings := rfl

@[simp] theorem tell_nil : log.tell channel [] = log := by
  simp [tell]

@[simp] theorem tell_tell (more : List Bytes) :
    (log.tell channel lines).tell channel more = log.tell channel (lines ++ more) := by
  simp [tell, Channel.Setting.deliver_append]

theorem tell_of_disabled (h : (log.settings channel).enabled = false) :
    log.tell channel lines = log := by
  simp [tell, Channel.Setting.deliver_of_disabled h]

/-- A message is one line on its channel. -/
theorem post_eq (log : Log) (channel : Channel) (parts : List Part) :
    log.post channel parts = log.tell channel [line parts] := by
  unfold post finish tell Channel.Setting.deliver line Log.begin Statement.add
  rcases log.settings channel with ⟨_ | _, _ | stream⟩ <;> simp [print]

/-- Messages one after the other are as many lines. -/
theorem foldl_post (parts : α → List Part) (l : List α) (log : Log) :
    l.foldl (fun log a => log.post channel (parts a)) log =
      log.tell channel (l.map fun a => line (parts a)) := by
  induction l generalizing log with
  | nil => simp
  | cons a l ih =>
    rw [List.foldl_cons, ih, post_eq, tell_tell]
    rfl

/-- Lines on a channel reach the stream that it leads to, and no other. -/
theorem text_tell (stream : Stream) :
    (log.tell channel lines).text stream = log.text stream ++
      if log.settings channel = ⟨true, some stream⟩ then lines.flatten else [] := by
  unfold tell Channel.Setting.deliver text
  split
  · next other heq =>
    have hall : (lines.map (other, ·)).filter (·.1 = stream) =
        if other = stream then lines.map (other, ·) else [] := by
      split <;> simp_all
    rw [List.filter_append, List.flatMap_append, hall]
    by_cases h : other = stream <;> simp [heq, h, List.flatMap_map]
  · next hnot =>
    rw [if_neg (hnot stream)]
    simp

/-! ## What is written -/

/-- From `log` to `next` the channels stay as they are, and `out` and `err` are written to
`stdout` and `stderr`. -/
structure Writes (log : Log) (out err : Bytes) (next : Log) : Prop where
  settings : next.settings = log.settings
  stdout : next.text .stdout = log.text .stdout ++ out
  stderr : next.text .stderr = log.text .stderr ++ err

namespace Writes

variable {next last : Log} {out err out' err' : Bytes}

theorem trans (h : log.Writes out err next) (h' : next.Writes out' err' last) :
    log.Writes (out ++ out') (err ++ err') last := by
  constructor
  case settings => rw [h'.settings, h.settings]
  case stdout => rw [h'.stdout, h.stdout, List.append_assoc]
  case stderr => rw [h'.stderr, h.stderr, List.append_assoc]

theorem refl (log : Log) : log.Writes [] [] log := by
  constructor <;> simp

theorem print (log : Log) (text : Bytes) : log.Writes text [] (log.print .stdout text) := by
  constructor <;> simp

/-- Lines on a channel that leads to `stdout` are written if it is on. -/
theorem tell_stdout {enabled : Bool} (h : log.settings channel = ⟨enabled, some .stdout⟩)
    (lines : List Bytes) :
    log.Writes (if enabled then lines.flatten else []) [] (log.tell channel lines) := by
  constructor <;> simp [text_tell, h]

theorem tell_stderr (h : log.settings channel = ⟨true, some .stderr⟩) (lines : List Bytes) :
    log.Writes [] lines.flatten (log.tell channel lines) := by
  constructor <;> simp [text_tell, h]

/-- Steps that keep a setting write one after the other, if each writes what it does under this
setting. -/
theorem foldl {step : Log → α → Log} {setting : Channel → Channel.Setting} {out err : α → Bytes}
    (hstep : ∀ (log : Log) a, log.settings = setting → log.Writes (out a) (err a) (step log a))
    (l : List α) (h : log.settings = setting) :
    log.Writes (l.flatMap out) (l.flatMap err) (l.foldl step log) := by
  induction l generalizing log with
  | nil => exact refl log
  | cons a l ih =>
    have hfirst := hstep log a h
    exact hfirst.trans (ih (hfirst.settings.trans h))

end Writes

end Log

end LoxLex
