import Mathlib.Data.List.Forall2
import LoxLex.Proofs.LineBoundary
import LoxLex.Proofs.Spacing

/-!
# Texts by their lines

A text is empty, or it is a last line without a newline, or a line and its newline stand before
a further text. What a scan keeps of a line is the same with and without the newline: the
newline is a blank, or the comment at the end of the line takes it in.

## Main statements

* `Bytes.line_induction`: induction over the lines of a text.
* `Source.filterMap_placed_append_line`: a text is scanned line by line.
-/

namespace LoxLex

variable {line rest : Bytes}

/-! ## Lines -/

namespace Bytes

theorem splitOn_of_notMem (h : Byte.newline ∉ line) : line.splitOn Byte.newline = [line] :=
  List.splitOnP_eq_singleton fun b hb => by simpa using ne_of_mem_of_not_mem hb h

theorem lines_of_notMem (h : Byte.newline ∉ line) (hne : line ≠ []) : lines line = [line] := by
  rw [lines, splitOn_of_notMem h]
  simp [hne]

theorem splitOn_append_newline (h : Byte.newline ∉ line) (rest : Bytes) :
    (line ++ Byte.newline :: rest).splitOn Byte.newline = line :: rest.splitOn Byte.newline := by
  rw [List.splitOn, List.splitOnP_append_cons _ _ (by simp), ← List.splitOn, splitOn_of_notMem h]
  rfl

theorem lines_append_newline (h : Byte.newline ∉ line) (rest : Bytes) :
    lines (line ++ Byte.newline :: rest) = line :: lines rest := by
  have hne := List.splitOn_ne_nil Byte.newline rest
  rw [lines, splitOn_append_newline h, lines, List.getLast?_cons_of_ne_nil hne,
    List.dropLast_cons_of_ne_nil hne]
  split <;> rfl

theorem count_append_newline (h : Byte.newline ∉ line) :
    (line ++ [Byte.newline]).count Byte.newline = 1 := by
  rw [List.count_append, List.count_eq_zero.mpr h, List.count_singleton_self]

/-- A text is empty, a single line, or a line before a further text. -/
@[elab_as_elim]
theorem line_induction {motive : Bytes → Prop} (nil : motive [])
    (last : ∀ line, Byte.newline ∉ line → line ≠ [] → motive line)
    (cons : ∀ line rest, Byte.newline ∉ line → motive rest →
      motive (line ++ Byte.newline :: rest)) (text : Bytes) : motive text := by
  induction hlength : text.length using Nat.strong_induction_on generalizing text with
  | _ n ih =>
    by_cases hmem : Byte.newline ∈ text
    · obtain ⟨line, rest, rfl, hline⟩ := List.eq_append_cons_of_mem hmem
      refine cons line rest hline (ih rest.length ?_ rest rfl)
      rw [← hlength, List.length_append, List.length_cons]
      omega
    · by_cases hne : text = []
      · exact hne ▸ nil
      · exact last text hmem hne

theorem notMem_of_mem_lines {text : Bytes} (h : line ∈ lines text) : Byte.newline ∉ line := by
  induction text using line_induction with
  | nil => simp at h
  | last only honly hne =>
    rw [lines_of_notMem honly hne, List.mem_singleton] at h
    exact h ▸ honly
  | cons first rest hfirst ih =>
    rw [lines_append_newline hfirst, List.mem_cons] at h
    rcases h with rfl | h
    · exact hfirst
    · exact ih h

/-- Behind a newline the lines begin anew. -/
theorem lines_append_newline_append (before rest : Bytes) :
    lines (before ++ Byte.newline :: rest) = lines (before ++ [Byte.newline]) ++ lines rest := by
  induction before using line_induction with
  | nil => exact lines_append_newline List.not_mem_nil rest
  | last line hline _ =>
    rw [lines_append_newline hline, lines_append_newline hline]
    rfl
  | cons line more hline ih =>
    rw [List.append_assoc, List.cons_append, lines_append_newline hline, ih, List.append_assoc,
      List.cons_append, lines_append_newline hline]
    rfl

end Bytes

/-! ## A line and its newline -/

namespace Segment

variable {s : Segment}

/-- A newline ends what stands before it, unless it is a comment or open. -/
theorem stopsAt_newline (hcomment : s.shape ≠ .comment) (hclosed : s.shape ≠ .unclosed) :
    s.StopsAt [Byte.newline] := by
  refine s.stopsAt_nil.of_head ?_ ?_ fun _ => rfl
  · rintro (hshape | hshape)
    · exact absurd hshape hcomment
    · exact absurd hshape hclosed
  · rintro c ⟨⟩
    exact .inr rfl

/-- The newline of a line is a blank behind its segments, or the comment at its end takes it
in. -/
theorem segments_append_newline (hline : Byte.newline ∉ line)
    (hclosed : ∀ s ∈ line.segments, s.shape ≠ .unclosed) :
    Bytes.segments (line ++ [Byte.newline]) = line.segments ++ [⟨.blank, [Byte.newline]⟩] ∨
      ∃ init text, line.segments = init ++ [⟨.comment, text⟩] ∧
        Bytes.segments (line ++ [Byte.newline]) =
          init ++ [⟨.comment, text ++ [Byte.newline]⟩] := by
  have hchain := chained_segments line
  by_cases hcomment : ∃ s ∈ line.segments.getLast?, s.shape = .comment
  · obtain ⟨⟨shape, text⟩, hlast, rfl⟩ := hcomment
    obtain ⟨init, hinit⟩ := List.getLast?_eq_some_iff.mp hlast
    have hopen : text.getLast? ≠ some Byte.newline := by
      intro hnewline
      have hmem := List.mem_of_getLast? hnewline
      rw [← line.flatMap_text_segments, hinit] at hline
      simp_all
    have hformed := hchain.formed_of_mem _ (List.mem_of_getLast? hlast)
    obtain ⟨body, hbody, rfl⟩ := hformed.exists_open_comment rfl hopen
    exact .inr ⟨init, _, hinit, segments_append_of_last hinit (.spelled (.commentLine hbody)) rfl
      (by simp [show Byte.slash ≠ Byte.dot by decide])⟩
  · have hblank : Formed ⟨.blank, [Byte.newline]⟩ := .spelled (.blank rfl)
    have hchain' := hchain.concat hblank ?_ ?_
    · exact .inl (by simpa using segments_flatMap_text hchain')
    · intro s hs
      exact stopsAt_newline (fun hshape => hcomment ⟨s, hs, hshape⟩)
        (hclosed s (List.mem_of_getLast? hs))
    · rintro c ⟨⟩
      rfl

end Segment

/-! ## Scans line by line -/

namespace Source

variable {α : Type} {path : Bytes} {id : UInt32} {f : Placed → Option α}

theorem shape_ne_unclosed_of_line (hline : Byte.newline ∉ line)
    (hclosed : ∀ s ∈ line.segments, s.shape ≠ .unclosed) :
    ∀ s ∈ Bytes.segments (line ++ [Byte.newline]), s.shape ≠ .unclosed := by
  rcases Segment.segments_append_newline hline hclosed with hsplit | ⟨init, text, heq, hsplit⟩
  · rw [hsplit, List.forall_mem_append]
    exact ⟨hclosed, by simp⟩
  · rw [heq, List.forall_mem_append] at hclosed
    rw [hsplit, List.forall_mem_append]
    exact ⟨hclosed.1, by simp⟩

/-- What is neither a blank nor a comment is the same in a line with and without its newline. -/
theorem filterMap_placed_line
    (hf : ∀ p : Placed, p.segment.shape = .blank ∨ p.segment.shape = .comment → f p = none)
    (hline : Byte.newline ∉ line) (hclosed : ∀ s ∈ line.segments, s.shape ≠ .unclosed) :
    (⟨line ++ [Byte.newline], path, id⟩ : Source).placed.filterMap f =
      (⟨line, path, id⟩ : Source).placed.filterMap f := by
  have hlast : ∀ start (s : Segment), s.shape = .blank ∨ s.shape = .comment →
      (Segment.place id start [s]).filterMap f = [] := by
    intro start s hs
    simp [Segment.place, hf ⟨s, _⟩ hs]
  simp only [placed]
  rcases Segment.segments_append_newline hline hclosed with hsplit | ⟨init, text, heq, hsplit⟩
  · rw [hsplit, Segment.place_append, List.filterMap_append, hlast _ _ (.inl rfl), List.append_nil]
  · rw [hsplit, heq, Segment.place_append, Segment.place_append, List.filterMap_append,
      List.filterMap_append, hlast _ _ (.inr rfl), hlast _ _ (.inr rfl)]

/-- A text is scanned line by line. -/
theorem filterMap_placed_append_line {g : Bytes → α → α}
    (hf : ∀ p : Placed, p.segment.shape = .blank ∨ p.segment.shape = .comment → f p = none)
    (hg : ∀ before p, f (p.shift before) = (f p).map (g before))
    (hline : Byte.newline ∉ line) (hclosed : ∀ s ∈ line.segments, s.shape ≠ .unclosed) :
    (⟨line ++ Byte.newline :: rest, path, id⟩ : Source).placed.filterMap f =
      (⟨line, path, id⟩ : Source).placed.filterMap f ++
        ((⟨rest, path, id⟩ : Source).placed.filterMap f).map (g (line ++ [Byte.newline])) := by
  have hlast : (line ++ [Byte.newline]).getLast? = some Byte.newline := List.getLast?_concat
  rw [List.append_cons, placed_append hlast (shape_ne_unclosed_of_line hline hclosed),
    List.filterMap_append, filterMap_placed_line hf hline hclosed, List.filterMap_map,
    List.map_filterMap, ← funext (hg (line ++ [Byte.newline]))]
  rfl

/-- What relates the finds of a line alone to those of its place in a text, if it holds on the
first line and is kept when another line is put before, relates all lines of a text to it. -/
theorem forall₂_lines {g : Bytes → α → α} {R : Nat → α → α → Prop}
    (hf : ∀ p : Placed, p.segment.shape = .blank ∨ p.segment.shape = .comment → f p = none)
    (hg : ∀ before p, f (p.shift before) = (f p).map (g before))
    (hfirst : ∀ line, Byte.newline ∉ line →
      ∀ u ∈ (⟨line, path, id⟩ : Source).placed.filterMap f, R 1 u u)
    (hnext : ∀ line, Byte.newline ∉ line →
      ∀ i u t, R i u t → R (i + 1) u (g (line ++ [Byte.newline]) t))
    (text : Bytes) (hclosed : ∀ line ∈ text.lines, ∀ s ∈ line.segments, s.shape ≠ .unclosed) :
    List.Forall₂ (fun u t => R u.2 u.1 t)
      ((text.lines.zipIdx 1).flatMap fun l =>
        ((⟨l.1, path, id⟩ : Source).placed.filterMap f).map (·, l.2))
      ((⟨text, path, id⟩ : Source).placed.filterMap f) := by
  have halone : ∀ line, Byte.newline ∉ line → List.Forall₂ (fun u t => R u.2 u.1 t)
      (((⟨line, path, id⟩ : Source).placed.filterMap f).map (·, 1))
      ((⟨line, path, id⟩ : Source).placed.filterMap f) := by
    intro line hline
    exact List.forall₂_map_left_iff.mpr (List.forall₂_same.mpr (hfirst line hline))
  induction text using Bytes.line_induction with
  | nil => simp [placed, Segment.place]
  | last line hline hne =>
    rw [Bytes.lines_of_notMem hline hne, List.zipIdx_singleton, List.flatMap_singleton]
    exact halone line hline
  | cons line rest hline ih =>
    rw [Bytes.lines_append_newline hline, List.forall_mem_cons] at hclosed
    rw [Bytes.lines_append_newline hline, List.zipIdx_cons, List.flatMap_cons,
      filterMap_placed_append_line hf hg hline hclosed.1]
    refine List.rel_append (halone line hline) ?_
    -- the finds of the other lines are those of the text behind, with greater numbers
    have hsucc : ((rest.lines.zipIdx 2).flatMap fun l =>
        ((⟨l.1, path, id⟩ : Source).placed.filterMap f).map (·, l.2)) =
        ((rest.lines.zipIdx 1).flatMap fun l =>
          ((⟨l.1, path, id⟩ : Source).placed.filterMap f).map (·, l.2)).map
          fun u => (u.1, u.2 + 1) := by
      rw [List.zipIdx_succ, List.flatMap_map, List.map_flatMap]
      simp [Function.comp_def]
    rw [hsucc, List.forall₂_map_left_iff, List.forall₂_map_right_iff]
    exact (ih hclosed.2).imp fun u t h => hnext line hline u.2 u.1 t h

end Source

end LoxLex
