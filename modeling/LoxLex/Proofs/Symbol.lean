import LoxLex.Segment.Lemmas

/-!
# The longest symbol

Symbols have one or two bytes, and the first byte of a symbol of two is a symbol as well. So
whether a symbol ends behind itself is decided by the one byte that follows.

## Main definitions

* `Symbol.opens` — the bytes that symbols begin with.
* `Symbol.takes` — the bytes that make something longer of a symbol.

## Main statements

* `Symbol.spelling_isPrefix_of_leading?`: the leading symbol of a text is its longest.
* `Symbol.leading?_spelling_append`: a symbol leads what it stands before, unless it takes the
  next byte.
-/

namespace LoxLex.Symbol

/-! ## First bytes -/

def opens (b : Byte) : Bool := all.any (·.spelling.head? = some b)

theorem head?_spelling_of_isPrefix {s : Symbol} {b : Byte} {rest : Bytes}
    (h : s.spelling <+: b :: rest) : s.spelling.head? = some b := by
  rw [List.head?_eq_some_head s.spelling_ne_nil, h.head s.spelling_ne_nil, List.head_cons]

theorem opens_of_spelling_isPrefix {s : Symbol} {b : Byte} {rest : Bytes}
    (h : s.spelling <+: b :: rest) : opens b :=
  List.any_eq_true.mpr ⟨s, s.mem_all, by simpa using head?_spelling_of_isPrefix h⟩

theorem eq_slash_of_isPrefix {s : Symbol} {rest : Bytes}
    (h : s.spelling <+: Byte.slash :: rest) : s = slash := by
  have heads : ∀ s ∈ all, s.spelling.head? = some Byte.slash → s = slash := by decide
  exact heads s s.mem_all (head?_spelling_of_isPrefix h)

/-- The first byte of a symbol is a symbol itself. -/
theorem exists_spelling_eq_singleton {b : Byte} (h : opens b) :
    ∃ s : Symbol, s.spelling = [b] := by
  obtain ⟨s, hs, hb⟩ := List.any_eq_true.mp h
  have heads : ∀ s ∈ all, ∃ t ∈ all, t.spelling = s.spelling.head?.toList := by decide
  obtain ⟨t, -, ht⟩ := heads s hs
  exact ⟨t, by simpa [of_decide_eq_true hb] using ht⟩

/-- No symbol begins like a segment of another shape, comments apart. -/
theorem classes_of_opens {b : Byte} (h : opens b) : b.isBlank = false ∧
    b.isWordStart = false ∧ b.isDigit = false ∧ b ≠ Byte.quote := by
  obtain ⟨s, hs, hb⟩ := List.any_eq_true.mp h
  have heads : ∀ s ∈ all, ∀ b ∈ s.spelling.head?, b.isBlank = false ∧
      b.isWordStart = false ∧ b.isDigit = false ∧ b ≠ Byte.quote := by decide +kernel
  exact heads s hs b (of_decide_eq_true hb)

/-- A byte that is found to be no symbol begins none. -/
theorem opens_eq_false_of_find? {b : Byte} {q : Symbol → Bool} (hq : ∀ s, s.spelling = [b] → q s)
    (h : all.find? q = none) : opens b = false := by
  rw [← Bool.not_eq_true]
  intro hb
  obtain ⟨s, hs⟩ := exists_spelling_eq_singleton hb
  exact List.find?_eq_none.mp h s s.mem_all (hq s hs)

/-! ## The leading symbol -/

theorem leading?_eq_none_iff {b : Byte} {rest : Bytes} :
    leading? (b :: rest) = none ↔ opens b = false := by
  constructor
  · exact opens_eq_false_of_find? fun s hs => by simp [hs]
  · intro h
    refine List.find?_eq_none.mpr fun s _ hs => ?_
    simp [opens_of_spelling_isPrefix (List.isPrefixOf_iff_prefix.mp hs)] at h

/-- The longer of two symbols with the same beginning is listed first. -/
theorem pairwise_all : all.Pairwise fun s t => ¬ s.spelling <+: t.spelling := by
  decide +kernel

/-- Every symbol that a text begins with is a beginning of its leading symbol. -/
theorem spelling_isPrefix_of_leading? {s t : Symbol} {text : Bytes}
    (h : leading? text = some s) (ht : t.spelling <+: text) : t.spelling <+: s.spelling := by
  obtain ⟨-, before, behind, hall, hbefore⟩ := List.find?_eq_some_iff_append.mp h
  have hs := spelling_isPrefix h
  have hmem := hall ▸ t.mem_all
  rcases List.mem_append.mp hmem with hmem | hmem
  · -- `t` would have been found before `s`
    have := hbefore t hmem
    simp [List.isPrefixOf_iff_prefix.mpr ht] at this
  · rcases List.mem_cons.mp hmem with rfl | hmem
    · exact List.prefix_rfl
    · have later := (List.pairwise_append.mp (hall ▸ pairwise_all)).2.1
      have := (List.pairwise_cons.mp later).1 t hmem
      exact (List.prefix_or_prefix_of_prefix ht hs).resolve_right this

/-! ## What follows a symbol -/

/-- Whether the byte `b` behind the symbol makes a longer symbol or a comment of it. -/
def takes (s : Symbol) (b : Byte) : Bool :=
  match s with
  | bang | equal | greater | less => b == '='.toUInt8
  | slash => b == Byte.slash
  | _ => false

theorem takes_eq_false_of_isBlank {s : Symbol} {b : Byte} (h : b.isBlank) :
    s.takes b = false := by
  have hequal : b ≠ '='.toUInt8 := by
    rintro rfl
    exact absurd h (by decide)
  have hslash : b ≠ Byte.slash := by
    rintro rfl
    exact absurd h (by decide)
  cases s <;> simp [takes, hequal, hslash]

/-- What a symbol takes makes a longer symbol of it, or two slashes. -/
theorem exists_spelling_eq_of_takes {s : Symbol} {b : Byte} (h : s.takes b) :
    s = slash ∧ b = Byte.slash ∨ ∃ t : Symbol, t.spelling = s.spelling ++ [b] := by
  unfold takes at h
  split at h
  · exact .inr ⟨bangEqual, eq_of_beq h ▸ rfl⟩
  · exact .inr ⟨equalEqual, eq_of_beq h ▸ rfl⟩
  · exact .inr ⟨greaterEqual, eq_of_beq h ▸ rfl⟩
  · exact .inr ⟨lessEqual, eq_of_beq h ▸ rfl⟩
  · exact .inl ⟨rfl, eq_of_beq h⟩
  · cases h

theorem takes_of_spelling_isPrefix {s t : Symbol} (h : s.spelling <+: t.spelling) (hne : t ≠ s) :
    ∃ b, s.takes b ∧ s.spelling ++ [b] <+: t.spelling := by
  have pairs : ∀ s ∈ all, ∀ t ∈ all, s.spelling <+: t.spelling → t ≠ s →
      s.takes '='.toUInt8 ∧ s.spelling ++ ['='.toUInt8] <+: t.spelling := by decide +kernel
  exact ⟨_, pairs s s.mem_all t t.mem_all h hne⟩

theorem leading?_spelling_append {s : Symbol} {tail : Bytes}
    (h : ∀ b ∈ tail.head?, s.takes b = false) : leading? (s.spelling ++ tail) = some s := by
  obtain ⟨t, ht⟩ : ∃ t, leading? (s.spelling ++ tail) = some t := by
    refine Option.isSome_iff_exists.mp (List.find?_isSome.mpr ⟨s, s.mem_all, ?_⟩)
    exact List.isPrefixOf_iff_prefix.mpr (List.prefix_append _ _)
  have hs := spelling_isPrefix_of_leading? ht (List.prefix_append _ _)
  by_cases hne : t = s
  · rw [ht, hne]
  · obtain ⟨b, hb, hpre⟩ := takes_of_spelling_isPrefix hs hne
    have hb' := (List.prefix_append_right_inj _).mp (hpre.trans (spelling_isPrefix ht))
    obtain ⟨behind, rfl⟩ := hb'
    simp [h b rfl] at hb

end LoxLex.Symbol
