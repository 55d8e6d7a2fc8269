import LoxLex.Segment.Basic

/-!
# Segments make up the text

## Main statements

* `Segment.text_first_isPrefix`: the first segment of a text is a beginning of it.
* `Bytes.flatMap_text_segments`: the segments of a text, one behind the other, are the text.
-/

namespace LoxLex

theorem Symbol.spelling_isPrefix {s : Symbol} {text : Bytes} (h : leading? text = some s) :
    s.spelling <+: text :=
  List.isPrefixOf_iff_prefix.mp
    (List.find?_some (p := fun s : Symbol => s.spelling.isPrefixOf text) h)

namespace Segment

theorem fraction_isPrefix (text : Bytes) : fraction text <+: text := by
  fun_cases fraction text with
  | case1 => exact List.prefix_rfl
  | case2 b rest => exact List.cons_prefix_cons.mpr ⟨rfl, List.takeWhile_prefix _⟩
  | case3 => exact List.nil_prefix

theorem numeral_isPrefix (text : Bytes) : numeral text <+: text := by
  obtain ⟨tail, h⟩ := fraction_isPrefix (text.dropWhile Byte.isDigit)
  exact ⟨tail, by rw [numeral, List.append_assoc, h, List.takeWhile_append_dropWhile]⟩

theorem commentLine_isPrefix (text : Bytes) : commentLine text <+: text := by
  obtain ⟨tail, h⟩ := List.take_prefix 1 (text.dropWhile (· ≠ Byte.newline))
  exact ⟨tail, by rw [commentLine, List.append_assoc, h, List.takeWhile_append_dropWhile]⟩

/-- Up to the first quote, what stands before it. -/
theorem takeWhile_ne_quote {body behind : Bytes} (h : Byte.quote ∉ body) :
    (body ++ Byte.quote :: behind).takeWhile (· ≠ Byte.quote) = body := by
  rw [List.takeWhile_append_of_pos (by grind)]
  simp

theorem text_quoted_isPrefix (rest : Bytes) : (quoted rest).text <+: Byte.quote :: rest := by
  unfold quoted
  split
  · next h =>
    obtain ⟨body, behind, rfl, hbody⟩ := List.eq_append_cons_of_mem h
    rw [takeWhile_ne_quote hbody]
    exact ⟨behind, by simp⟩
  · exact List.prefix_rfl

theorem text_stray_isPrefix (b : Byte) (rest : Bytes) : (stray b rest).text <+: b :: rest := by
  refine List.cons_prefix_cons.mpr ⟨rfl, ?_⟩
  split
  · exact List.takeWhile_prefix _
  · exact List.nil_prefix

theorem text_first_isPrefix (b : Byte) (rest : Bytes) : (first b rest).text <+: b :: rest := by
  fun_cases first b rest with
  | case1 => exact List.cons_prefix_cons.mpr ⟨rfl, List.nil_prefix⟩
  | case2 => exact List.cons_prefix_cons.mpr ⟨rfl, List.takeWhile_prefix _⟩
  | case3 => exact numeral_isPrefix _
  | case4 _ _ _ h => exact h ▸ text_quoted_isPrefix rest
  | case5 => exact commentLine_isPrefix _
  | case6 _ _ _ _ _ s h => exact Symbol.spelling_isPrefix h
  | case7 => exact text_stray_isPrefix b rest

/-- A text is its first segment and what is left of it. -/
theorem text_first_append_drop (b : Byte) (rest : Bytes) :
    (first b rest).text ++ (b :: rest).drop (first b rest).text.length = b :: rest := by
  obtain ⟨tail, h⟩ := text_first_isPrefix b rest
  rw [← h, List.drop_left]

end Segment

@[simp] theorem Bytes.flatMap_text_segments (text : Bytes) :
    text.segments.flatMap (·.text) = text := by
  fun_induction Bytes.segments text with
  | case1 => rfl
  | case2 b rest s ih => rw [List.flatMap_cons, ih, Segment.text_first_append_drop]

/-- No segment is empty. -/
theorem Bytes.text_ne_nil_of_mem_segments {text : Bytes} {s : Segment}
    (h : s ∈ text.segments) : s.text ≠ [] := by
  fun_induction Bytes.segments text with
  | case1 => cases h
  | case2 b rest first ih =>
    rcases List.mem_cons.mp h with rfl | h
    · exact Segment.text_first_ne_nil b rest
    · exact ih h

end LoxLex
