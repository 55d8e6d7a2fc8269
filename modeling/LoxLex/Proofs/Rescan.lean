import LoxLex.Proofs.ScannedSegments

/-!
# Scanning again

A scanner keeps a cursor and a mark, and both stand at the end of the text when a scan is over. The
next scan puts them back, so it finds what the first one found, and the sink gets the same reports
once more.

## Main statements

* `Scanner.scanTimes_eq`: what many scans find and report.
* `Scanner.scanTimes_repeats`: scanned any number of times, a source gives the same.
-/

namespace LoxLex.Scanner

/-- No scan leaves anything to the next one but its reports. -/
theorem scanTimes_eq (n : Nat) (s : Scanner) :
    (scanTimes n s).1 = List.replicate n s.cursor.source.tokens ∧
      (scanTimes n s).2.sink =
        s.sink.addFaults (List.replicate n s.cursor.source.faults).flatten := by
  induction n generalizing s with
  | zero => simp [scanTimes]
  | succ n ih =>
    obtain ⟨hscans, hsink⟩ := ih s.scan.2
    rw [scan_eq] at hscans hsink
    simp only [scanTimes, scan_eq, hscans, hsink, List.replicate_succ, List.flatten_cons,
      Sink.addFaults_addFaults, and_self]

/-- Scanned `n` times over, a source gives `n` times what a first scan gives that reports to an
empty sink: the tokens of each scan are the same, and the sink keeps what it has and gets the
reports of that scan `n` times. The tokens are told by the text and the number of the source;
neither the path nor the sink counts, nor where a cursor stands. -/
theorem scanTimes_repeats (s : Scanner) (n : Nat) :
    let once := scan { cursor := { source := s.cursor.source }, sink := ⟨s.sink.origin, []⟩ }
    let all := scanTimes n s
    all.1 = List.replicate n once.1 ∧
      all.2.sink.origin = s.sink.origin ∧
      all.2.sink.entries = s.sink.entries ++ (List.replicate n once.2.sink.entries).flatten ∧
      all.2.sink.errorCount = s.sink.errorCount + n * once.2.sink.entries.length ∧
      ∀ (path : Bytes) (mark here : Position) (sink : Sink),
        (scan ⟨⟨{ s.cursor.source with path }, mark, here⟩, sink⟩).1 = once.1 := by
  obtain ⟨hscans, hsink⟩ := scanTimes_eq n s
  intro once all
  have honce : once.2.sink.entries =
      s.cursor.source.faults.map (Fault.diagnostic s.sink.origin) := by
    simp [once, scan_eq, Sink.addFaults]
  refine ⟨?tokens, ?origin, ?entries, ?errors, ?others⟩
  case tokens => rw [hscans, show once.1 = s.cursor.source.tokens by simp [once, scan_eq]]
  case origin => rw [hsink, Sink.addFaults]
  case entries => rw [hsink, honce, Sink.addFaults, List.map_flatten, List.map_replicate]
  case errors => rw [hsink, honce, Sink.errorCount_addFaults]; simp
  case others =>
    intro path mark here sink
    simp only [once, scan_eq, Source.tokens_eq]
    rfl

end LoxLex.Scanner
