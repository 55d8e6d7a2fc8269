import LoxLex.Source.Basic

/-!
# Searching for a line

A line is searched for by its number: the source is read from its beginning and newlines are
counted, until the search is on that line or the source is over.

## Main definitions

* `LineSearch.next?` — a search one byte further on.
* `LineSearch.run` — a search until it is over.
* `Source.searchLine` — the line on which a search ends.
-/

namespace LoxLex

/-- How far a search has come, and on which line that is. Lines are 32-bit words. -/
structure LineSearch where
  offset : Nat := 0
  line : UInt32 := 1
deriving DecidableEq, Repr

namespace LineSearch

/-- The search one byte further on. It is over at the end of the source and on the line that is
wanted. -/
def next? (s : Source) (wanted : UInt32) (l : LineSearch) : Option LineSearch :=
  match s.text[l.offset]? with
  | none => none
  | some b =>
    if l.line < wanted then
      some ⟨l.offset + 1, if b = Byte.newline then l.line + 1 else l.line⟩
    else none

variable {s : Source} {wanted : UInt32} {l l' : LineSearch}

/-- A search goes on only before the end of the source and before the line that is wanted. -/
theorem exists_of_next?_eq_some (h : l.next? s wanted = some l') :
    ∃ b, s.text[l.offset]? = some b ∧ l.line < wanted ∧
      l' = ⟨l.offset + 1, if b = Byte.newline then l.line + 1 else l.line⟩ := by
  unfold next? at h
  split at h
  · cases h
  · next b hb =>
    split at h
    · next hlt => exact ⟨b, hb, hlt, (Option.some.inj h).symm⟩
    · cases h

theorem left_next?_lt (h : l.next? s wanted = some l') :
    s.text.length - l'.offset < s.text.length - l.offset := by
  obtain ⟨b, hb, -, rfl⟩ := exists_of_next?_eq_some h
  obtain ⟨hlt, -⟩ := List.getElem?_eq_some_iff.mp hb
  dsimp only
  omega

/-- The search until it is over. -/
def run (s : Source) (wanted : UInt32) (l : LineSearch) : LineSearch :=
  match _h : l.next? s wanted with
  | none => l
  | some next => run s wanted next
termination_by s.text.length - l.offset
decreasing_by exact left_next?_lt _h

end LineSearch

/-- The line on which a search for it ends, without its newline and without one carriage return
before it. No line has the number zero, and none is found where the search ends on another line. -/
def Source.searchLine (s : Source) (wanted : UInt32) : Bytes :=
  let found := LineSearch.run s wanted {}
  if wanted = 0 ∨ found.line ≠ wanted then []
  else Bytes.dropCarriageReturn ((s.text.drop found.offset).takeWhile (· ≠ Byte.newline))

end LoxLex
