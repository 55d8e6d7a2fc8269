import Mathlib.Data.List.Induction
import LoxLex.Proofs.SessionScan

/-!
# Histories of a session

Sources are added to a session, the session is scanned, and its sink is written to, in any order.
An operation is told here as it goes: it changes the session in place, and what it has changed by
the time it refuses stays changed. That a refusal leaves nothing behind is then a matter of what
comes first in it.

## Main definitions

* `Session.Op` — what can be done with a session.
* `Session.Op.exec` — an operation in place.
* `Session.after`, `Session.added` — what many operations leave, and what they have added.
* `Session.Orderly` — what holds after any history.

## Main statements

* `Session.exec_eq`: the operations in place are those that give a new session or a refusal.
* `Session.exec_ends`: all ways in which an operation can end.
* `Session.history_orderly`: every history is orderly.
-/

namespace LoxLex

/-- What a sink can be told. -/
inductive Sink.Op where
  | report (d : Diagnostic)
  | errorAtLine (line : UInt32) (message : Bytes)
  | info (message : Bytes) (span : Span)
  | warn (message : Bytes) (span : Span)
  | error (code : Option Code) (message : Bytes) (span : Span)
  | clear

def Sink.Op.apply (s : Sink) : Sink.Op → Sink
  | report d => s.report d
  | errorAtLine line message => s.errorAtLine line message
  | info message span => s.info message span
  | warn message span => s.warn message span
  | error code message span => s.error code message span
  | clear => s.clear

@[simp] theorem Sink.Op.origin_apply (s : Sink) (op : Sink.Op) :
    (op.apply s).origin = s.origin := by
  cases op <;> rfl

namespace Session

/-- A session and the log that it writes to. -/
abbrev State := Session × Log

/-- What can be done with a session. -/
inductive Op where
  | addSource (text path : Bytes)
  | addFile (path : Bytes)
  | scan
  | sink (op : Sink.Op)

variable {files : Bytes → Option Bytes} {log : Log} {ops : List Op} {op : Op} {st : State}

/-- The text and the path that an operation adds, if it adds any. -/
def Op.source? (files : Bytes → Option Bytes) : Op → Option (Bytes × Bytes)
  | addSource text path => some (text, path)
  | addFile path => (files path).map (·, path)
  | _ => none

/-- Whether an operation is one on the sink alone. -/
def Op.isSink : Op → Bool
  | sink _ => true
  | _ => false

/-! ## Operations in place -/

/-- What changes a state in place and may refuse on its way. -/
abbrev Action := EStateM Refusal State Unit

def refuseIfScanned (r : Refusal) : Action := do
  if (← get).1.scanned then throw r

def takeIn (text path : Bytes) : Action := do
  refuseIfScanned .sourceAfterScan
  modify fun (s, log) => (s.withSource text path, log)

/-- An operation as it goes. A file is taken in as a source once it is read. -/
def Op.exec (files : Bytes → Option Bytes) : Op → Action
  | addSource text path => takeIn text path
  | addFile path => do
    refuseIfScanned .fileAfterScan
    match files path with
    | none => throw (.missingFile path)
    | some text => takeIn text path
  | scan => do
    refuseIfScanned .secondScan
    modify fun (s, log) => s.scanAll log
  | sink op => modify fun (s, log) => ({ s with sink := op.apply s.sink }, log)

/-- What an operation makes of a state, or its refusal. -/
def Op.result (files : Bytes → Option Bytes) : Op → State → Except Refusal State
  | addSource text path, (s, log) => (s.addSource text path).map (·, log)
  | addFile path, (s, log) => (s.addFile files path).map (·, log)
  | scan, (s, log) => s.scan log
  | sink op, (s, log) => .ok ({ s with sink := op.apply s.sink }, log)

/-- The ways in which an operation can end: it adds a source, it scans, it writes to the sink, or
it refuses since the session was scanned or since there is no such file. -/
inductive Op.Ends (files : Bytes → Option Bytes) (st : State) :
    Op → EStateM.Result Refusal State Unit → Prop where
  | adds {op : Op} {text path : Bytes} (hs : st.1.scanned = false)
      (hsource : op.source? files = some (text, path)) :
      Ends files st op (.ok () (st.1.withSource text path, st.2))
  | scans (hs : st.1.scanned = false) : Ends files st .scan (.ok () (st.1.scanAll st.2))
  | writes (op : Sink.Op) :
      Ends files st (.sink op) (.ok () ({ st.1 with sink := op.apply st.1.sink }, st.2))
  | late {op : Op} {r : Refusal} (hs : st.1.scanned = true) (hop : op.isSink = false) :
      Ends files st op (.error r st)
  | missing {path : Bytes} (hs : st.1.scanned = false) (hfile : files path = none) :
      Ends files st (.addFile path) (.error (.missingFile path) st)

theorem refuseIfScanned_eq (r : Refusal) :
    refuseIfScanned r st = if st.1.scanned then .error r st else .ok () st := by
  change (if st.1.scanned then throw r else pure () : Action) st = _
  split <;> rfl

theorem refuse_of_scanned (h : st.1.scanned = true) (r : Refusal) (act : Action) :
    (do refuseIfScanned r; act : Action) st = .error r st := by
  simp [bind, EStateM.bind, refuseIfScanned_eq, h]

theorem refuse_of_unscanned (h : st.1.scanned = false) (r : Refusal) (act : Action) :
    (do refuseIfScanned r; act : Action) st = act st := by
  simp [bind, EStateM.bind, refuseIfScanned_eq, h]

theorem takeIn_eq (text path : Bytes) : takeIn text path st =
    if st.1.scanned then .error .sourceAfterScan st
    else .ok () (st.1.withSource text path, st.2) := by
  cases hs : st.1.scanned with
  | true => exact refuse_of_scanned hs _ _
  | false => exact refuse_of_unscanned hs _ _

/-- In place an operation makes what it gives as a new state, and nothing where it refuses. -/
theorem exec_eq (files : Bytes → Option Bytes) (op : Op) (st : State) :
    op.exec files st = match op.result files st with
      | .ok next => .ok () next
      | .error r => .error r st := by
  cases op with
  | addSource text path =>
    rw [Op.exec, takeIn_eq, Op.result, addSource]
    split <;> rfl
  | addFile path =>
    rw [Op.exec, Op.result, addFile]
    cases hs : st.1.scanned with
    | true => exact refuse_of_scanned hs _ _
    | false =>
      rw [refuse_of_unscanned hs]
      cases files path with
      | none => rfl
      | some text => simp [takeIn_eq, addSource, hs, Except.map]
  | scan =>
    rw [Op.exec, Op.result, Session.scan]
    cases hs : st.1.scanned with
    | true => exact refuse_of_scanned hs _ _
    | false => exact refuse_of_unscanned hs _ _
  | sink op => rfl

/-- Every operation ends in one of these ways. -/
theorem exec_ends (files : Bytes → Option Bytes) (op : Op) (st : State) :
    op.Ends files st (op.exec files st) := by
  rw [exec_eq]
  cases hs : st.1.scanned with
  | true =>
    cases op with
    | sink op => exact .writes op
    | _ => simpa [Op.result, addSource, addFile, Session.scan, hs] using .late hs rfl
  | false =>
    cases op with
    | addSource text path => simpa [Op.result, addSource, hs, Except.map] using .adds hs rfl
    | addFile path =>
      cases hfile : files path with
      | none => simpa [Op.result, addFile, hs, hfile, Except.map] using .missing hs hfile
      | some text =>
        have hsource : (Op.addFile path).source? files = some (text, path) := by
          simp [Op.source?, hfile]
        simpa [Op.result, addFile, addSource, hs, hfile, Except.map] using .adds hs hsource
    | scan => simpa [Op.result, Session.scan, hs] using .scans hs
    | sink op => exact .writes op

/-- What was scanned refuses all but its sink; before that only a missing file is refused. -/
theorem exec_eq_error_iff (files : Bytes → Option Bytes) (op : Op) (st : State) :
    (∃ r next, op.exec files st = .error r next) ↔
      st.1.scanned = true ∧ op.isSink = false ∨
        st.1.scanned = false ∧ ∃ path, op = .addFile path ∧ files path = none := by
  have hends := exec_ends files op st
  generalize op.exec files st = result at hends ⊢
  cases hends with
  | adds hs hsource =>
    have hop : ∀ path, op = .addFile path → files path ≠ none := by
      rintro path rfl hfile
      simp [Op.source?, hfile] at hsource
    simpa [hs] using hop
  | scans hs => simp [hs]
  | writes op => simp [Op.isSink]
  | late hs hop => simp [hs, hop]
  | missing hs hfile => simp [hs, hfile]

/-- An operation that refuses has changed nothing. -/
theorem eq_of_exec_eq_error {r : Refusal} {next : State} (h : op.exec files st = .error r next) :
    next = st := by
  have hends := exec_ends files op st
  rw [h] at hends
  cases hends <;> rfl

theorem exec_scan (h : st.1.scanned = false) :
    Op.scan.exec files st = .ok () (st.1.scanAll st.2) := by
  rw [exec_eq, Op.result, Session.scan, h]
  rfl

/-! ## Histories -/

/-- What an operation leaves, whether it refused or not. -/
def Op.leave (files : Bytes → Option Bytes) (op : Op) (st : State) : State :=
  match op.exec files st with
  | .ok _ next => next
  | .error _ next => next

/-- What an operation adds where it does not refuse. -/
def Op.added (files : Bytes → Option Bytes) (op : Op) (st : State) : List (Bytes × Bytes) :=
  match op.exec files st with
  | .ok _ _ => (op.source? files).toList
  | .error _ _ => []

/-- What operations leave, one after the other. -/
def after (files : Bytes → Option Bytes) (ops : List Op) (st : State) : State :=
  ops.foldl (fun st op => op.leave files st) st

/-- The texts and paths that operations add, in their order. -/
def added (files : Bytes → Option Bytes) : List Op → State → List (Bytes × Bytes)
  | [], _ => []
  | op :: rest, st => op.added files st ++ added files rest (op.leave files st)

theorem after_concat (ops : List Op) (op : Op) (st : State) :
    after files (ops ++ [op]) st = op.leave files (after files ops st) := by
  simp [after]

theorem added_concat (ops : List Op) (op : Op) (st : State) : added files (ops ++ [op]) st =
    added files ops st ++ op.added files (after files ops st) := by
  induction ops generalizing st with
  | nil => simp [added, after]
  | cons first ops ih => simp [added, ih, after]

/-- The source that is the addition with the number `i`. File numbers are 32-bit words. -/
def numbered (i : Nat) (addition : Bytes × Bytes) : Source :=
  ⟨addition.1, addition.2, i.toUInt32⟩

/-- What is kept on the way: the units are what was added, the sink has its name, and the session
is scanned, and units have tokens, from its scan on. -/
structure Kept (ops : List Op) (additions : List (Bytes × Bytes)) (s : Session) : Prop where
  sources : s.units.map (·.source) = additions.mapIdx numbered
  origin : s.sink.origin = ascii "Scanner"
  scanned_iff : s.scanned = true ↔ .scan ∈ ops
  untouched : s.scanned = false → ∀ u ∈ s.units, u.tokens = []

/-- One more operation keeps it. -/
theorem Kept.concat {additions : List (Bytes × Bytes)} (h : Kept ops additions st.1) (op : Op) :
    Kept (ops ++ [op]) (additions ++ op.added files st) (op.leave files st).1 := by
  have hends := exec_ends files op st
  unfold Op.leave Op.added
  generalize op.exec files st = result at hends ⊢
  cases hends with
  | @adds _ text path hs hsource =>
    have hop : Op.scan ≠ op := by
      rintro rfl
      cases hsource
    have hlength : st.1.units.length = additions.length := by
      simpa using congrArg List.length h.sources
    constructor
    case sources =>
      simp [withSource, hsource, h.sources, List.mapIdx_concat, numbered, hlength]
    case origin => exact h.origin
    case scanned_iff => simp [withSource, h.scanned_iff, hop]
    case untouched =>
      intro hs u hu
      rcases List.mem_append.mp hu with hu | hu
      · exact h.untouched hs u hu
      · rw [List.mem_singleton.mp hu]
  | scans hs =>
    have hsame : (·.source) ∘ SourceUnit.scanned = (·.source) := rfl
    constructor
    case sources => simp [scanAll_eq, Op.source?, hsame, h.sources]
    case origin => simpa [scanAll_eq, Sink.addFaults] using h.origin
    case scanned_iff => simp [scanAll_eq]
    case untouched => simp [scanAll_eq]
  | writes op =>
    constructor
    case sources => simpa [Op.source?] using h.sources
    case origin => simpa using h.origin
    case scanned_iff => simpa using h.scanned_iff
    case untouched => exact h.untouched
  | late hs hop =>
    have hmem := h.scanned_iff.mp hs
    exact ⟨by simpa using h.sources, h.origin, by simp [hs, hmem], h.untouched⟩
  | missing hs hfile =>
    exact ⟨by simpa using h.sources, h.origin, by simp [h.scanned_iff], h.untouched⟩

theorem kept_after (files : Bytes → Option Bytes) (log : Log) (ops : List Op) :
    Kept ops (added files ops ({}, log)) (after files ops ({}, log)).1 := by
  induction ops using List.reverseRecOn with
  | nil => exact ⟨rfl, rfl, by simp [after], by simp [after]⟩
  | append_singleton ops op ih =>
    rw [added_concat, after_concat]
    exact ih.concat op

/-- What holds after the operations `ops`: the units are what was added, in this order; they have
no tokens before the scan; the first scan is done, and from then on the session is scanned; it
then refuses all but its sink, and before that only a file that is not there; what is refused
changes nothing; and a file is the same as its text under its path. -/
structure Orderly (files : Bytes → Option Bytes) (ops : List Op) (additions : List (Bytes × Bytes))
    (st : State) : Prop where
  sources : st.1.units.map (·.source) = additions.mapIdx numbered
  untouched : .scan ∉ ops → ∀ u ∈ st.1.units, u.tokens = []
  first_scan : .scan ∉ ops → ∃ next, Op.scan.exec files st = .ok () next ∧ next.1.scanned = true
  scanned_iff : st.1.scanned = true ↔ .scan ∈ ops
  refuses_iff : ∀ op : Op, (∃ r next, op.exec files st = .error r next) ↔
    .scan ∈ ops ∧ op.isSink = false ∨
      .scan ∉ ops ∧ ∃ path, op = .addFile path ∧ files path = none
  unchanged : ∀ (op : Op) r next, op.exec files st = .error r next → next = st
  file_eq : ∀ path text, files path = some text →
    (Op.addFile path).leave files st = (Op.addSource text path).leave files st

/-- Every history of a session is orderly. -/
theorem history_orderly (files : Bytes → Option Bytes) (log : Log) (ops : List Op) :
    Orderly files ops (added files ops ({}, log)) (after files ops ({}, log)) := by
  have hkept := kept_after files log ops
  have hunscanned : .scan ∉ ops ↔ (after files ops ({}, log)).1.scanned = false := by
    rw [← hkept.scanned_iff, Bool.not_eq_true]
  constructor
  case sources => exact hkept.sources
  case untouched => exact fun hops => hkept.untouched (hunscanned.mp hops)
  case first_scan => exact fun hops => ⟨_, exec_scan (hunscanned.mp hops), rfl⟩
  case scanned_iff => exact hkept.scanned_iff
  case refuses_iff =>
    intro op
    rw [exec_eq_error_iff, hunscanned, hkept.scanned_iff]
  case unchanged => exact fun op r next => eq_of_exec_eq_error
  case file_eq =>
    intro path text hfile
    rw [Op.leave, Op.leave, exec_eq, exec_eq]
    cases hs : (after files ops ({}, log)).1.scanned with
    | true => simp [Op.result, addFile, addSource, hs, Except.map]
    | false => simp [Op.result, addFile, addSource, hs, hfile]

end Session

end LoxLex
