import LoxLex.Proofs.LineEndings
import LoxLex.Proofs.LineText
import LoxLex.Source.LineSearch

/-!
# The lines that are found

A line is what stands between two newlines, without its carriage return. The search for it passes
through the source byte by byte. Its line is counted in 32 bits, but it is never behind the line
that is wanted, so the count does not wrap however long the source is.

## Main definitions

* `LineSearch.Passes` — the states that a search passes through.
* `LineSearch.OnTrack` — what holds of a search in all of them.

## Main statements

* `Bytes.getElem?_splitOn`: the pieces of a text are what follows its newlines.
* `Source.lineText_eq`: a line is a piece of the source.
* `LineSearch.OnTrack.next`, `LineSearch.Passes.onTrack`: a search stays on its track.
* `Source.searchLine_eq`: the search finds the line.
* `Source.lineText_found`: which lines there are, and how they are found.
-/

namespace LoxLex

namespace Bytes

variable {text line rest : Bytes} {n : Nat}

theorem length_splitOn (text : Bytes) :
    (text.splitOn Byte.newline).length = 1 + text.count Byte.newline := by
  induction text using line_induction with
  | nil => rfl
  | last line hline _ => rw [splitOn_of_notMem hline, List.count_eq_zero.mpr hline]; rfl
  | cons line rest hline ih =>
    rw [splitOn_append_newline hline, List.length_cons, ih, List.count_append,
      List.count_eq_zero.mpr hline, List.count_cons_self]
    omega

theorem afterNewlines_of_notMem (hline : Byte.newline ∉ line) (n : Nat) :
    afterNewlines (n + 1) line = none := by
  induction line with
  | nil => rfl
  | cons b line ih => grind [afterNewlines]

/-- The pieces of a text are what follows its newlines, each up to the next one. -/
theorem getElem?_splitOn (text : Bytes) (n : Nat) : (text.splitOn Byte.newline)[n]? =
    (text.afterNewlines n).map (·.takeWhile (· ≠ Byte.newline)) := by
  have hwhole : ∀ line : Bytes, Byte.newline ∉ line →
      ∀ b ∈ line, decide (b ≠ Byte.newline) = true := by grind
  induction text using line_induction generalizing n with
  | nil => cases n <;> rfl
  | last line hline _ =>
    rw [splitOn_of_notMem hline]
    cases n with
    | zero =>
      rw [afterNewlines, Option.map_some, List.takeWhile_eq_self_iff.mpr (hwhole line hline)]
      rfl
    | succ n => simp [afterNewlines_of_notMem hline]
  | cons line rest hline ih =>
    rw [splitOn_append_newline hline]
    cases n with
    | zero =>
      have hstop : ∀ b ∈ (Byte.newline :: rest).head?, decide (b ≠ Byte.newline) = false := by simp
      rw [afterNewlines, Option.map_some, takeWhile_append_stop (hwhole line hline) hstop]
      rfl
    | succ n => rw [List.getElem?_cons_succ, ih, afterNewlines_line hline]

theorem newline_notMem_of_mem_splitOn (h : line ∈ text.splitOn Byte.newline) :
    Byte.newline ∉ line := by
  obtain ⟨n, hn⟩ := List.mem_iff_getElem?.mp h
  rw [getElem?_splitOn] at hn
  obtain ⟨rest, -, rfl⟩ := Option.map_eq_some_iff.mp hn
  intro hmem
  have hnewline := List.mem_takeWhile_imp hmem
  simp at hnewline

end Bytes

namespace Source

variable {s : Source} {n : UInt32}

/-- A line is a piece of the source, without the carriage return at its end. -/
theorem lineText_eq (hn : n ≠ 0) : s.lineText n =
    ((s.text.splitOn Byte.newline)[n.toNat - 1]?.map Bytes.dropCarriageReturn).getD [] := by
  rw [lineText, if_neg hn, Bytes.getElem?_splitOn]
  cases s.text.afterNewlines (n.toNat - 1) <;> rfl

theorem lineText_of_length_lt (h : 1 + s.text.count Byte.newline < n.toNat) :
    s.lineText n = [] := by
  have hne : n ≠ 0 := by
    rintro rfl
    simp at h
  have hnone : (s.text.splitOn Byte.newline)[n.toNat - 1]? = none := by
    apply List.getElem?_eq_none
    rw [Bytes.length_splitOn]
    omega
  rw [lineText_eq hne, hnone]
  rfl

theorem newline_notMem_lineText (s : Source) (n : UInt32) : Byte.newline ∉ s.lineText n := by
  by_cases hn : n = 0
  · simp [lineText, hn]
  · rw [lineText_eq hn]
    cases hpiece : (s.text.splitOn Byte.newline)[n.toNat - 1]? with
    | none => simp
    | some piece =>
      have hmem := Bytes.newline_notMem_of_mem_splitOn (List.mem_of_getElem? hpiece)
      exact fun hnewline => hmem (Bytes.mem_of_mem_dropCarriageReturn hnewline)

end Source

/-! ## The search -/

namespace LineSearch

variable {s : Source} {wanted : UInt32} {l l' : LineSearch}

/-- The states that a search passes through, from the beginning of the source on. -/
inductive Passes (s : Source) (wanted : UInt32) : LineSearch → Prop where
  | start : Passes s wanted {}
  | next {l l' : LineSearch} (h : Passes s wanted l) (hnext : l.next? s wanted = some l') :
      Passes s wanted l'

/-- The search is within the source, on the line that counting gives. It is not behind the line
that is wanted, and where it has reached this line it is at the beginning of it. -/
structure OnTrack (s : Source) (wanted : UInt32) (l : LineSearch) : Prop where
  offset_le : l.offset ≤ s.text.length
  line_eq : l.line.toNat = 1 + (s.text.take l.offset).count Byte.newline
  line_le : l.line.toNat ≤ max 1 wanted.toNat
  newline_before : l.line = wanted → ∀ b ∈ (s.text.take l.offset).getLast?, b = Byte.newline

theorem OnTrack.start (s : Source) (wanted : UInt32) : OnTrack s wanted {} := by
  constructor
  case line_le => exact Nat.le_max_left _ _
  all_goals simp

/-- The next line is not behind the line that is wanted, so its number does not wrap. -/
theorem toNat_line_add_one (h : l.line < wanted) : (l.line + 1).toNat = l.line.toNat + 1 := by
  have hlt := UInt32.lt_iff_toNat_lt.mp h
  have hword := wanted.toNat_lt
  exact (UInt32.toNat_add _ _).trans (Nat.mod_eq_of_lt (by simp; omega))

/-- Reading a byte keeps a search on its track. -/
theorem OnTrack.next (h : l.OnTrack s wanted) (hnext : l.next? s wanted = some l') :
    l'.OnTrack s wanted := by
  obtain ⟨b, hb, hlt, rfl⟩ := exists_of_next?_eq_some hnext
  obtain ⟨hoffset, rfl⟩ := List.getElem?_eq_some_iff.mp hb
  have hsucc := toNat_line_add_one hlt
  have hline := h.line_eq
  have hcount : (s.text.take (l.offset + 1)).count Byte.newline =
      (s.text.take l.offset).count Byte.newline + [s.text[l.offset]].count Byte.newline := by
    rw [List.take_succ_eq_append_getElem hoffset, List.count_append]
  have hlast : (s.text.take (l.offset + 1)).getLast? = some s.text[l.offset] := by
    rw [List.take_succ_eq_append_getElem hoffset, List.getLast?_concat]
  have hwanted := UInt32.lt_iff_toNat_lt.mp hlt
  by_cases hnewline : s.text[l.offset] = Byte.newline
  · rw [hnewline, List.count_singleton_self] at hcount
    rw [if_pos hnewline]
    constructor
    case offset_le => exact hoffset
    case line_eq => dsimp only; omega
    case line_le => dsimp only; omega
    case newline_before => simp [hlast, hnewline]
  · have hzero : [s.text[l.offset]].count Byte.newline = 0 :=
      List.count_eq_zero.mpr (by simpa using Ne.symm hnewline)
    rw [if_neg hnewline]
    -- on a byte of an earlier line the search is not where it is wanted
    have hearlier : l.line ≠ wanted := fun heq => by simp [heq] at hwanted
    constructor
    case offset_le => exact hoffset
    case line_eq => dsimp only; omega
    case line_le => dsimp only; omega
    case newline_before => exact fun heq => absurd heq hearlier

/-- A search stays on its track. -/
theorem Passes.onTrack (h : Passes s wanted l) : l.OnTrack s wanted := by
  induction h with
  | start => exact .start s wanted
  | next _ hnext ih => exact ih.next hnext

/-- A search passes through the state in which it is over. -/
theorem passes_run (h : Passes s wanted l) :
    Passes s wanted (run s wanted l) ∧ (run s wanted l).next? s wanted = none := by
  fun_induction run s wanted l with
  | case1 l hover => exact ⟨h, hover⟩
  | case2 l next hnext ih => exact ih (h.next hnext)

/-- Where a search is over it is on the line that is wanted, or at the end of the source. -/
theorem OnTrack.over (h : l.OnTrack s wanted) (hne : wanted ≠ 0)
    (hover : l.next? s wanted = none) : l.line = wanted ∨
      l.line < wanted ∧ l.offset = s.text.length := by
  have hle := h.line_le
  have hoffset := h.offset_le
  have hpos : 0 < wanted.toNat := Nat.pos_of_ne_zero fun hzero => hne (UInt32.toNat_inj.mp hzero)
  rcases Nat.lt_or_eq_of_le (show l.line.toNat ≤ wanted.toNat by omega) with hlt | heq
  · have hbefore := UInt32.lt_iff_toNat_lt.mpr hlt
    refine .inr ⟨hbefore, ?_⟩
    by_contra hinside
    have hbyte := List.getElem?_eq_getElem (show l.offset < s.text.length by omega)
    simp [next?, hbyte, hbefore] at hover
  · exact .inl (UInt32.toNat_inj.mp heq)

/-- On the line that is wanted, what is left of the source begins with this line. -/
theorem OnTrack.afterNewlines_eq (h : l.OnTrack s wanted) (hwanted : l.line = wanted) :
    s.text.afterNewlines (wanted.toNat - 1) = some (s.text.drop l.offset) := by
  have hline := h.line_eq
  have hcount : wanted.toNat - 1 = (s.text.take l.offset).count Byte.newline := by
    rw [← hwanted]
    omega
  have hafter := Bytes.afterNewlines_count (h.newline_before hwanted) (s.text.drop l.offset)
  rwa [← hcount, List.take_append_drop] at hafter

end LineSearch

namespace Source

/-- The search finds the line. -/
theorem searchLine_eq (s : Source) (n : UInt32) : s.searchLine n = s.lineText n := by
  have hstart : LineSearch.Passes s n {} := .start
  obtain ⟨hpasses, hover⟩ := LineSearch.passes_run hstart
  have htrack := hpasses.onTrack
  unfold searchLine
  dsimp only
  generalize LineSearch.run s n {} = found at htrack hover
  by_cases hn : n = 0
  · rw [if_pos (.inl hn), lineText, if_pos hn]
  · rcases htrack.over hn hover with hwanted | ⟨hearlier, hend⟩
    · rw [if_neg (by simp [hn, hwanted]), lineText, if_neg hn, htrack.afterNewlines_eq hwanted]
    · have hlt := UInt32.lt_iff_toNat_lt.mp hearlier
      have hcount := htrack.line_eq
      rw [hend, List.take_length] at hcount
      have hother : found.line ≠ n := fun heq => by simp [heq] at hlt
      rw [if_pos (.inr hother), lineText_of_length_lt (hcount ▸ hlt)]

/-- A source has one line more than newlines. Each is the piece between two newlines that its
number counts, without one carriage return at its end, and no other number has a line. The search
for a line finds it; it stays within the source, and its own line is the number of newlines before
it and one, so that it has not wrapped. -/
theorem lineText_found (s : Source) (n : UInt32) :
    let pieces := s.text.splitOn Byte.newline
    pieces.length = 1 + s.text.count Byte.newline ∧
      (∀ i (hi : i < pieces.length), n.toNat = i + 1 →
        s.lineText n = Bytes.dropCarriageReturn pieces[i]) ∧
      (n = 0 ∨ pieces.length < n.toNat → s.lineText n = []) ∧
      Byte.newline ∉ s.lineText n ∧
      s.searchLine n = s.lineText n ∧
      LineSearch.Passes s n (LineSearch.run s n {}) ∧
      ∀ l, LineSearch.Passes s n l → l.offset ≤ s.text.length ∧
        l.line.toNat = 1 + (s.text.take l.offset).count Byte.newline := by
  intro pieces
  refine ⟨Bytes.length_splitOn s.text, ?_, ?_, s.newline_notMem_lineText n, s.searchLine_eq n,
    (LineSearch.passes_run .start).1, fun l h => ⟨h.onTrack.offset_le, h.onTrack.line_eq⟩⟩
  · intro i hi hnumber
    have hn : n ≠ 0 := by
      rintro rfl
      simp at hnumber
    rw [lineText_eq hn, hnumber, Nat.add_sub_cancel, List.getElem?_eq_getElem hi]
    rfl
  · rintro (rfl | hlt)
    · rfl
    · exact lineText_of_length_lt (Bytes.length_splitOn s.text ▸ hlt)

/-- The third line has no newline, and there is no fourth one. -/
example : let s : Source := ⟨ascii "a\n\r\nb\r", ascii "one.lox", 7⟩
    s.lineText 2 = [] ∧ s.lineText 3 = ascii "b" ∧ s.lineText 4 = [] := by
  decide

end Source

end LoxLex
