import Mathlib.Data.List.Forall2
import Mathlib.Data.List.Induction
import LoxLex.Source.Position

/-!
# Positions by counting

Positions are kept up byte by byte. Here they are told from the bytes before them: the line
from the newlines among them, the column from the bytes behind the last newline.

## Main definitions

* `Position.behind` — the place behind a text, by counting.
* `Position.ofOffset` — the place of an offset in a text.

## Main statements

* `Position.start_after`: reading a text from its start leads to the place behind it.
-/

namespace LoxLex.Position

/-- The place behind the bytes `before`, with which a text begins. -/
def behind (before : Bytes) : Position where
  line := (1 + before.count Byte.newline).toUInt32
  column := (1 + (before.reverse.takeWhile (· ≠ Byte.newline)).length).toUInt32
  offset := before.length

/-- The place of the offset `n` in a text. -/
def ofOffset (text : Bytes) (n : Nat) : Position := behind (text.take n)

theorem behind_concat (before : Bytes) (b : Byte) :
    behind (before ++ [b]) = (behind before).step b := by
  unfold behind step
  by_cases hb : b = Byte.newline
  · simp [hb, ← Nat.add_assoc]
  · simp [hb, ← Nat.add_assoc]

theorem start_after (text : Bytes) : start.after text = behind text := by
  induction text using List.reverseRecOn with
  | nil => rfl
  | append_singleton text b ih => rw [after_append, ih, behind_concat, after_cons, after_nil]

/-- Only the newlines of a text and its length decide where it ends. -/
theorem after_congr {p : Position} {text other : Bytes}
    (h : List.Forall₂ (fun b c => b = Byte.newline ↔ c = Byte.newline) text other) :
    p.after text = p.after other := by
  induction h generalizing p with
  | nil => rfl
  | cons hbyte _ ih =>
    rw [after_cons, after_cons, ← ih]
    simp only [step, hbyte]

theorem after_set {p : Position} {text : Bytes} {i : Nat} {b : Byte}
    (hold : text[i]? ≠ some Byte.newline) (hnew : b ≠ Byte.newline) :
    p.after (text.set i b) = p.after text := by
  refine after_congr (List.forall₂_iff_get.mpr ⟨List.length_set, fun j _ hj => ?_⟩)
  by_cases hij : i = j
  · subst hij
    rw [List.getElem?_eq_getElem hj] at hold
    simpa [hnew] using hold
  · simp [hij]

theorem ofOffset_length_append (before rest : Bytes) :
    ofOffset (before ++ rest) before.length = behind before := by
  rw [ofOffset, List.take_left]

end LoxLex.Position
