import LoxLex.Program
import LoxLex.Proofs.Lines

/-!
# The prompt and the script

A text that is given line by line at the prompt has the same tokens and diagnostics as a script
with this text, as long as no line leaves a string open.

## Main definitions

* `Token.OnLine`, `Diagnostic.OnLine` — how what is found in a line alone is found on this line
  of a text.
* `Program.answer` — the session of one line at the prompt.

## Main statements

* `Program.prompt_agrees`: prompt and script agree.
-/

namespace LoxLex

/-! ## Alone and on a line -/

/-- The spans `s` in a line alone and `t` on the line `i` of a text have the same columns. -/
structure Span.OnLine (i : Nat) (s t : Span) : Prop where
  alone : s.start.line = 1 ∧ s.stop.line = 1
  line : t.start.line = i.toUInt32 ∧ t.stop.line = i.toUInt32
  column : t.start.column = s.start.column ∧ t.stop.column = s.stop.column

/-- The tokens `u` in a line alone and `t` on the line `i` of a text have the same content. -/
structure Token.OnLine (i : Nat) (u t : Token) : Prop where
  content : t.content = u.content
  line : u.line = 1 ∧ t.line = i.toUInt32
  span : u.span.OnLine i t.span

/-- The diagnostics `d` of a line alone and `e` on the line `i` of a text report the same. -/
structure Diagnostic.OnLine (i : Nat) (d e : Diagnostic) : Prop where
  report : (e.severity, e.code, e.origin, e.message) = (d.severity, d.code, d.origin, d.message)
  span : d.span.OnLine i e.span

section OnLine

variable {i : Nat} {line : Bytes}

theorem Position.line_after {p : Position} (h : Byte.newline ∉ line) :
    (p.after line).line = p.line := by
  induction line generalizing p with
  | nil => rfl
  | cons b line ih =>
    rw [List.mem_cons, not_or] at h
    rw [after_cons, ih h.2, step, if_neg (Ne.symm h.1)]

/-- Everything in a line alone is on its first line. -/
theorem Span.onLine_one {path : Bytes} {id : UInt32} {p : Placed} (h : Byte.newline ∉ line)
    (hp : p ∈ (⟨line, path, id⟩ : Source).placed) : p.span.OnLine 1 p.span := by
  obtain ⟨before, behind, hsegments, hspan⟩ := Segment.exists_of_mem_place hp
  have hjoin := line.flatMap_text_segments
  rw [hsegments, List.flatMap_append, List.flatMap_cons] at hjoin
  rw [← hjoin, List.mem_append, List.mem_append, not_or, not_or] at h
  have hstart : p.span.start.line = 1 := by
    rw [hspan, Position.line_after h.1]
    rfl
  have hstop : p.span.stop.line = 1 := by
    rw [hspan, Position.line_after h.2.1, Position.line_after h.1]
    rfl
  exact ⟨⟨hstart, hstop⟩, ⟨hstart, hstop⟩, rfl, rfl⟩

theorem Span.OnLine.atEnd {s t : Span} (h : s.OnLine i t) : s.atEnd.OnLine i t.atEnd :=
  ⟨⟨h.alone.2, h.alone.2⟩, ⟨h.line.2, h.line.2⟩, h.column.2, h.column.2⟩

/-- One more line before it leads one line down. -/
theorem Span.OnLine.shift {s t : Span} (h : s.OnLine i t) (hline : Byte.newline ∉ line) :
    s.OnLine (i + 1) (t.shift (line ++ [Byte.newline])) := by
  refine ⟨h.alone, ?_, h.column⟩
  simp [Span.shift, Position.shift, Bytes.count_append_newline hline, h.line]

theorem Token.OnLine.shift {u t : Token} (h : u.OnLine i t) (hline : Byte.newline ∉ line) :
    u.OnLine (i + 1) (t.shift (line ++ [Byte.newline])) := by
  refine ⟨h.content, ⟨h.line.1, ?_⟩, h.span.shift hline⟩
  simp [Token.shift, Bytes.count_append_newline hline, h.line.2]

theorem Diagnostic.OnLine.shift {d e : Diagnostic} (h : d.OnLine i e)
    (hline : Byte.newline ∉ line) : d.OnLine (i + 1) (e.shift (line ++ [Byte.newline])) :=
  ⟨h.report, h.span.shift hline⟩

end OnLine

namespace Source

variable {path origin : Bytes} {id : UInt32} {text : Bytes}

/-- The tokens of a text are those of its lines. -/
theorem forall₂_onLine_tokens
    (hclosed : ∀ line ∈ text.lines, ∀ s ∈ line.segments, s.shape ≠ .unclosed) :
    List.Forall₂ (fun u t => Token.OnLine u.2 u.1 t)
      ((text.lines.zipIdx 1).flatMap fun l =>
        ((⟨l.1, path, id⟩ : Source).placed.filterMap Placed.token?).map (·, l.2))
      ((⟨text, path, id⟩ : Source).placed.filterMap Placed.token?) := by
  refine forall₂_lines ?_ Placed.token?_shift ?_ ?_ text hclosed
  · intro p hp
    have hkind : p.segment.kind? = none := by
      rcases hp with hp | hp <;> rw [Segment.kind?, hp]
    rw [Placed.token?, hkind]
    rfl
  · intro line hline u hu
    obtain ⟨p, hp, hpu⟩ := List.mem_filterMap.mp hu
    obtain ⟨-, -, hu, hspan⟩ := Placed.token?_eq_some hpu
    have honline := Span.onLine_one hline hp
    exact ⟨rfl, ⟨hu.trans honline.alone.2, hu.trans honline.alone.2⟩, hspan ▸ honline⟩
  · intro line hline i u t h
    exact h.shift hline

theorem onLine_of_mem_faults {line : Bytes} {fault : Fault} (hline : Byte.newline ∉ line)
    (h : fault ∈ (⟨line, path, id⟩ : Source).faults) : fault.span.OnLine 1 fault.span := by
  obtain ⟨p, hp, hfault⟩ := List.mem_filterMap.mp h
  have honline := Span.onLine_one hline hp
  rcases Placed.fault?_eq_some hfault with ⟨-, -, hspan⟩ | ⟨-, -, hspan⟩
  · exact hspan ▸ honline
  · exact hspan ▸ honline.atEnd

theorem forall₂_onLine_faults
    (hclosed : ∀ line ∈ text.lines, ∀ s ∈ line.segments, s.shape ≠ .unclosed) :
    List.Forall₂ (fun d e => Diagnostic.OnLine d.2 d.1 e)
      ((text.lines.zipIdx 1).flatMap fun l =>
        ((⟨l.1, path, id⟩ : Source).faults.map (Fault.diagnostic origin)).map (·, l.2))
      ((⟨text, path, id⟩ : Source).faults.map (Fault.diagnostic origin)) := by
  have hfaults : ∀ line, (⟨line, path, id⟩ : Source).faults.map (Fault.diagnostic origin) =
      (⟨line, path, id⟩ : Source).placed.filterMap (·.fault?.map (Fault.diagnostic origin)) :=
    fun line => List.map_filterMap
  simp only [hfaults]
  refine forall₂_lines (f := fun p => p.fault?.map (Fault.diagnostic origin))
    (R := Diagnostic.OnLine) ?_ (Placed.fault?_shift · origin) ?_ ?_ text hclosed
  · intro p hp
    have hfault : p.fault? = none := by
      rcases hp with hp | hp <;> rw [Placed.fault?, hp]
    rw [hfault]
    rfl
  · intro line hline d hd
    obtain ⟨p, hp, hpd⟩ := List.mem_filterMap.mp hd
    obtain ⟨fault, hfault, rfl⟩ := Option.map_eq_some_iff.mp hpd
    exact ⟨rfl, onLine_of_mem_faults hline (List.mem_filterMap.mpr ⟨p, hp, hfault⟩)⟩
  · intro line hline i d e h
    exact h.shift hline

end Source

namespace Program

/-- The session of one line at the prompt. -/
def answer (options : Options) (log : Log) (line : Bytes) : Session :=
  (report options Diagnostic.short (Session.withSource {} line (ascii "<stdin>")) log).1

/-- What a session of one source finds depends on nothing but the source. -/
theorem report_withSource (options : Options) (form : Diagnostic → Bytes) (text path : Bytes)
    (log : Log) :
    let source : Source := ⟨text, path, 0⟩
    (report options form (Session.withSource {} text path) log).1 =
      ⟨[⟨source, source.tokens⟩], (source.scan ⟨ascii "Scanner", []⟩).2, true⟩ := rfl

/-- A text has the same tokens and diagnostics line by line at the prompt as it has in a script,
where those of a line stand on this line, in the same columns. -/
theorem prompt_agrees (options : Options) (log : Log) (files : Bytes → Option Bytes)
    (path text : Bytes) (hfile : files path = some text)
    (hclosed : ∀ line ∈ text.lines,
      (answer options log line).sink.count (some .unterminatedString) = 0) :
    ∃ session, Session.addFile {} files path = .ok session ∧
      let script := (report options (·.long path) session log).1
      List.Forall₂ (fun u t => Token.OnLine u.2 u.1 t)
        ((text.lines.zipIdx 1).flatMap fun l =>
          ((answer options log l.1).tokens.filter (·.kind ≠ .eof)).map (·, l.2))
        (script.tokens.filter (·.kind ≠ .eof)) ∧
      List.Forall₂ (fun d e => Diagnostic.OnLine d.2 d.1 e)
        ((text.lines.zipIdx 1).flatMap fun l =>
          (answer options log l.1).sink.entries.map (·, l.2))
        script.sink.entries := by
  have hshape : ∀ line ∈ text.lines, ∀ s ∈ line.segments, s.shape ≠ .unclosed :=
    fun line hline => Source.shape_ne_unclosed (hclosed line hline)
  refine ⟨Session.withSource {} text path, by rw [Session.addFile, hfile]; rfl, ?_, ?_⟩
  · have htokens : ∀ (source : Source), Session.tokens ⟨[⟨source, source.tokens⟩],
        (source.scan ⟨ascii "Scanner", []⟩).2, true⟩ = source.tokens :=
      fun source => List.flatMap_singleton _ _
    simp only [answer, report_withSource, htokens, Source.filter_kind_tokens]
    exact Source.forall₂_onLine_tokens hshape
  · simp only [answer, report_withSource, Source.scan_eq]
    exact Source.forall₂_onLine_faults hshape

/-- The first line ends in a comment and a carriage return, the second has an error, the third is
empty and the last one has no newline. -/
theorem prompt_agrees_four_lines :
    let text := ascii "var a = 1; // \"\r\n\t@ \"b\"\n\n1."
    let files : Bytes → Option Bytes := fun _ => some text
    files (ascii "a.lox") = some text ∧
      (∀ line ∈ text.lines, (answer {} {} line).sink.count (some .unterminatedString) = 0) ∧
      ∃ session, Session.addFile {} files (ascii "a.lox") = .ok session ∧
        let script := (report {} (·.long (ascii "a.lox")) session {}).1
        List.Forall₂ (fun u t => Token.OnLine u.2 u.1 t)
          ((text.lines.zipIdx 1).flatMap fun l =>
            ((answer {} {} l.1).tokens.filter (·.kind ≠ .eof)).map (·, l.2))
          (script.tokens.filter (·.kind ≠ .eof)) ∧
        List.Forall₂ (fun d e => Diagnostic.OnLine d.2 d.1 e)
          ((text.lines.zipIdx 1).flatMap fun l => (answer {} {} l.1).sink.entries.map (·, l.2))
          script.sink.entries := by
  intro text files
  have hclosed : ∀ line ∈ text.lines,
      (answer {} {} line).sink.count (some .unterminatedString) = 0 := by decide +kernel
  exact ⟨rfl, hclosed, prompt_agrees {} {} files (ascii "a.lox") text rfl hclosed⟩

end Program

end LoxLex
