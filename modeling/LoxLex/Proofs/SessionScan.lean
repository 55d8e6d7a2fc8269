import LoxLex.Proofs.Messages
import LoxLex.Proofs.ScannedSegments
import LoxLex.Session

/-!
# The scan of a session

A session scans its units with one sink and one log, which are handed on from unit to unit. Told
at once, the units get the tokens that each of their sources has alone, the sink gets the faults of
all of them in their order, and the log a line for each.

## Main definitions

* `Source.scanAlone` — what a source has alone.
* `SourceUnit.scanned` — a unit behind its scan.
* `SourceUnit.scanLine` — the line about its scan.

## Main statements

* `Session.scanUnits_eq`: the scan of all units.
-/

namespace LoxLex

/-- What a scan of the source reports in the name of `origin`. -/
def Source.reports (s : Source) (origin : Bytes) : List Diagnostic :=
  (s.scan ⟨origin, []⟩).2.entries

theorem Source.reports_eq (s : Source) (origin : Bytes) :
    s.reports origin = s.faults.map (Fault.diagnostic origin) := by
  rw [reports, scan_eq]
  rfl

@[simp] theorem Source.length_reports (s : Source) (origin : Bytes) :
    (s.reports origin).length = s.faults.length := by
  rw [reports_eq, List.length_map]

/-- A scan of the source with a sink of its own. -/
def Source.scanAlone (s : Source) : List Token × Sink := s.scan ⟨ascii "Scanner", []⟩

theorem Source.scanAlone_eq (s : Source) :
    s.scanAlone = (s.tokens, ⟨ascii "Scanner", s.reports (ascii "Scanner")⟩) := by
  rw [scanAlone, scan_eq, reports_eq]
  rfl

theorem Source.entries_scanAlone (s : Source) :
    s.scanAlone.2.entries = s.faults.map (Fault.diagnostic (ascii "Scanner")) :=
  s.reports_eq (ascii "Scanner")

namespace SourceUnit

/-- The unit with the tokens of its source. -/
def scanned (u : SourceUnit) : SourceUnit := { u with tokens := u.source.tokens }

/-- The line about the scan of a unit. -/
def scanLine (u : SourceUnit) : Bytes :=
  ascii "Scanned " ++ Bytes.decimal u.source.tokens.length ++ ascii " tokens from '" ++
    u.source.path ++ ascii "' (" ++ Bytes.decimal u.source.faults.length ++ ascii " errors)\n"

theorem line_summary (u : SourceUnit) :
    Log.line (Session.summary u.source.tokens.length u.source.path u.source.faults.length) =
      u.scanLine := by
  have hend : ascii " errors)\n" = ascii " errors)" ++ ascii "\n" := rfl
  simp [Log.line, Session.summary, scanLine, Log.Part.format, hend]

end SourceUnit

namespace Session

/-- The errors that are counted about a unit are its own, whatever the sink held before. -/
theorem scanUnits_cons (u : SourceUnit) (rest : List SourceUnit) (sink : Sink) (log : Log) :
    scanUnits (u :: rest) sink log =
      let (units, sink, log) :=
        scanUnits rest (sink.addFaults u.source.faults) (log.tell .debug [u.scanLine])
      (u.scanned :: units, sink, log) := by
  have herrors : (sink.addFaults u.source.faults).errorCount - sink.errorCount =
      u.source.faults.length := by
    rw [Sink.errorCount_addFaults, Nat.add_sub_cancel_left]
  rw [scanUnits, Source.scan_eq, ← u.line_summary, ← Log.post_eq, ← herrors]
  rfl

/-- The scan of all units: their tokens, the faults of all of them, and a line for each. -/
theorem scanUnits_eq (units : List SourceUnit) (sink : Sink) (log : Log) :
    scanUnits units sink log = (units.map SourceUnit.scanned,
      sink.addFaults (units.flatMap (·.source.faults)),
      log.tell .debug (units.map SourceUnit.scanLine)) := by
  induction units generalizing sink log with
  | nil => simp [scanUnits]
  | cons u rest ih => simp [scanUnits_cons, ih]

theorem scanAll_eq (s : Session) (log : Log) :
    s.scanAll log = (⟨s.units.map SourceUnit.scanned,
      s.sink.addFaults (s.units.flatMap (·.source.faults)), true⟩,
      log.tell .debug (s.units.map SourceUnit.scanLine)) := by
  rw [scanAll, scanUnits_eq]

end Session

end LoxLex
