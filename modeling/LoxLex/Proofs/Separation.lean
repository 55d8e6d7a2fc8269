import LoxLex.Proofs.Places
import LoxLex.Proofs.SessionHistory

/-!
# Units that share a session

The units of a session share its sink and its log, but nothing that is found in one of them hangs
on the others or on what was reported before.

## Main definitions

* `SourceUnit.alone` — the scan of a unit with a sink of its own.
* `Session.ScannedApart` — a scan that finds in each unit what is found in it alone.

## Main statements

* `Session.scan_apart`: a session scans its units as if each of them were alone.
-/

namespace LoxLex

theorem map_eq_mapIdx {α β : Type} {f : α → β} {g : Nat → α → β} {l : List α}
    (h : ∀ i a, l[i]? = some a → f a = g i a) : l.map f = l.mapIdx g := by
  refine List.ext_getElem? fun i => ?_
  rw [List.getElem?_map, List.getElem?_mapIdx]
  cases hi : l[i]? with
  | none => rfl
  | some a => exact congrArg some (h i a hi)

/-- What a scan finds in the unit with the number `i` when it has a sink of its own. -/
def SourceUnit.alone (i : Nat) (u : SourceUnit) : List Token × Sink :=
  (⟨u.source.text, u.source.path, i.toUInt32⟩ : Source).scanAlone

theorem Source.file_of_mem_reports {s : Source} {origin : Bytes} {d : Diagnostic}
    (h : d ∈ s.reports origin) : d.span.file = s.id ∧ d.origin = origin := by
  rw [reports_eq] at h
  obtain ⟨f, hf, rfl⟩ := List.mem_map.mp h
  exact ⟨(locates_of_mem_faults hf).file_eq, rfl⟩

namespace Session

/-- The session `s'` and the log `log'` after a scan of `s`: every unit has the tokens that it has
alone; behind what was reported before stands what is reported of each unit alone, with its number
and in the name of the scanner; the debug channel, unless it is off, has a line for each unit with
its tokens and its own diagnostics. The difference of counts that gives the latter never takes a
greater number from a smaller one. -/
structure ScannedApart (s : Session) (log : Log) (s' : Session) (log' : Log) : Prop where
  units : s'.units = s.units.mapIdx fun i u => ⟨u.source, (u.alone i).1⟩
  entries : s'.sink.entries =
    s.sink.entries ++ (s.units.mapIdx fun i u => (u.alone i).2.entries).flatten
  file_and_origin : ∀ (i : Nat) (u : SourceUnit), s.units[i]? = some u →
    ∀ d ∈ (u.alone i).2.entries,
      d.span.file = i.toUInt32 ∧ d.origin = ascii "Scanner"
  lines : log' = log.tell .debug (s.units.mapIdx fun i u =>
    ascii "Scanned " ++ Bytes.decimal (u.alone i).1.length ++ ascii " tokens from '" ++
      u.source.path ++ ascii "' (" ++ Bytes.decimal (u.alone i).2.entries.length ++
      ascii " errors)\n")
  quiet : (log.settings .debug).enabled = false → log' = log
  errorCount : ∀ (i : Nat) (u : SourceUnit), s.units[i]? = some u →
    let before := (scanUnits (s.units.take i) s.sink log).2.1
    let behind := (scanUnits (s.units.take (i + 1)) s.sink log).2.1
    before.errorCount ≤ behind.errorCount ∧
      behind.errorCount - before.errorCount = (u.alone i).2.entries.length

variable {ops : List Op} {additions : List (Bytes × Bytes)} {s : Session} {log : Log}

/-- A unit has the number that its place gives it. -/
theorem Kept.alone_eq (h : Kept ops additions s) {i : Nat} {u : SourceUnit}
    (hu : s.units[i]? = some u) :
    u.alone i = (u.source.tokens, ⟨ascii "Scanner", u.source.reports (ascii "Scanner")⟩) := by
  have hsource : (additions.mapIdx numbered)[i]? = some u.source := by
    rw [← h.sources, List.getElem?_map, hu]
    rfl
  rw [List.getElem?_mapIdx] at hsource
  obtain ⟨a, -, ha⟩ := Option.map_eq_some_iff.mp hsource
  have hid : u.source.id = i.toUInt32 := ha ▸ rfl
  rw [SourceUnit.alone, ← hid, Source.scanAlone_eq]

/-- The errors of the first units add up, whatever the sink held before. -/
theorem errorCount_scanUnits (units : List SourceUnit) (sink : Sink) (log : Log) :
    (scanUnits units sink log).2.1.errorCount =
      sink.errorCount + (units.flatMap (·.source.faults)).length := by
  rw [scanUnits_eq, Sink.errorCount_addFaults]

theorem Kept.scannedApart (h : Kept ops additions s) (log : Log) :
    ScannedApart s log (s.scanAll log).1 (s.scanAll log).2 := by
  rw [scanAll_eq]
  constructor
  case units =>
    refine map_eq_mapIdx fun i u hu => ?_
    rw [h.alone_eq hu]
    rfl
  case entries =>
    have hreports : s.units.map (·.source.reports s.sink.origin) =
        s.units.mapIdx fun i u => (u.alone i).2.entries :=
      map_eq_mapIdx fun i u hu => by rw [h.alone_eq hu, h.origin]
    rw [← hreports]
    simp [Sink.addFaults, Source.reports_eq, List.flatMap_def, Function.comp_def]
  case file_and_origin =>
    intro i u hu d hd
    rw [SourceUnit.alone, Source.scanAlone_eq] at hd
    exact Source.file_of_mem_reports hd
  case lines =>
    refine congrArg (log.tell .debug) (map_eq_mapIdx fun i u hu => ?_)
    rw [h.alone_eq hu, SourceUnit.scanLine, Source.length_reports]
  case quiet => exact fun hoff => Log.tell_of_disabled hoff
  case errorCount =>
    intro i u hu
    have htake : s.units.take (i + 1) = s.units.take i ++ [u] := by
      rw [List.take_add_one, hu]
      rfl
    simp only [errorCount_scanUnits, htake, h.alone_eq hu, Source.length_reports]
    simp
    omega

/-- A session that was not scanned, whatever was done with it, scans its units as if each of them
were alone. -/
theorem scan_apart (files : Bytes → Option Bytes) (start : Log) (ops : List Op)
    (h : (after files ops ({}, start)).1.scanned = false) :
    let st := after files ops ({}, start)
    ∃ s' log', st.1.scan st.2 = .ok (s', log') ∧ ScannedApart st.1 st.2 s' log' := by
  intro st
  refine ⟨(st.1.scanAll st.2).1, (st.1.scanAll st.2).2, ?_, ?_⟩
  · rw [Session.scan, if_neg (ne_true_of_eq_false h)]
  · exact (kept_after files start ops).scannedApart st.2

/-- Two units, the first with two errors and the second with none, in a session that was told a
warning and an error before, and a file that is not there. -/
theorem scan_apart_two_units :
    let files : Bytes → Option Bytes := fun _ => none
    let ops : List Op := [.addSource (ascii "@ \"open") (ascii "one.lox"),
      .sink (.warn (ascii "careful") {}), .addFile (ascii "none.lox"),
      .addSource (ascii "print 1;") (ascii "two.lox"), .sink (.errorAtLine 7 (ascii "wrong"))]
    let st := after files ops ({}, Log.enable {} .debug)
    st.1.scanned = false ∧
      ∃ s' log', st.1.scan st.2 = .ok (s', log') ∧ ScannedApart st.1 st.2 s' log' := by
  intro files ops st
  have h : st.1.scanned = false := rfl
  exact ⟨h, scan_apart files (Log.enable {} .debug) ops h⟩

end Session

end LoxLex
