import Mathlib.Data.List.Basic
import LoxLex.Proofs.Chain
import LoxLex.Proofs.Placed

/-!
# Bounded lookahead

At most two bytes behind a segment decide that it ends there. So what ends two bytes before some
place of a text is found whatever the text goes on with behind that place.

## Main definitions

* `Span.settled` — the spans that end at least two bytes before a place.

## Main statements

* `Segment.stopsAt_append_iff`: two bytes behind a segment decide whether it stops.
* `Segment.filter_place_append`: what is settled in a text stays when the text goes on.
* `Source.scan_settled`: two texts with a common beginning have what is settled in it in common.
-/

namespace LoxLex

/-- Whether the span ends at least two bytes before the offset `n`. -/
def Span.settled (n : Nat) (s : Span) : Bool := s.stop.offset + 2 ≤ n

namespace Segment

/-! ## Two bytes decide -/

section First

variable {s : Segment} {b : Byte} {rest behind tail : Bytes}

theorem stopsAt_append_iff (h : 2 ≤ tail.length) : s.StopsAt (tail ++ behind) ↔ s.StopsAt tail := by
  match tail with
  | [] => simp at h
  | [_] => simp at h
  | b :: c :: rest =>
    have hfraction : fraction (b :: c :: rest ++ behind) = [] ↔ fraction (b :: c :: rest) = [] := by
      rw [List.cons_append, fraction_cons_eq_nil_iff, fraction_cons_eq_nil_iff]
      rfl
    unfold StopsAt
    split <;> simp_all

/-- A first segment that leaves two bytes of a text is the same whatever follows the text. -/
theorem first_append_eq (h : (first b (rest ++ behind)).text.length + 2 ≤ (b :: rest).length)
    (other : Bytes) : first b (rest ++ other) = first b (rest ++ behind) := by
  have hpre := text_first_isPrefix b (rest ++ behind)
  obtain ⟨tail, htail⟩ : (first b (rest ++ behind)).text <+: b :: rest :=
    List.prefix_of_prefix_length_le hpre (List.prefix_append (b :: rest) behind) (by omega)
  have hlength : 2 ≤ tail.length := by
    have := congrArg List.length htail
    grind
  have hjoin : ∀ more, (first b (rest ++ behind)).text ++ (tail ++ more) = b :: (rest ++ more) := by
    intro more
    rw [← List.append_assoc, htail, List.cons_append]
  have hstop : (first b (rest ++ behind)).StopsAt tail :=
    (stopsAt_append_iff hlength).mp (stopsAt_first (hjoin behind))
  exact first_of_formed formed_first ((stopsAt_append_iff hlength).mpr hstop) (hjoin other)

/-- When a text goes on, its first segment stays or reaches its last two bytes either way. -/
theorem first_append_or (b : Byte) (rest behind : Bytes) :
    first b (rest ++ behind) = first b rest ∨
      (b :: rest).length < (first b rest).text.length + 2 ∧
        (b :: rest).length < (first b (rest ++ behind)).text.length + 2 := by
  by_cases h : (first b (rest ++ [])).text.length + 2 ≤ (b :: rest).length
  · exact .inl (by simpa using first_append_eq h behind)
  · by_cases h' : (first b (rest ++ behind)).text.length + 2 ≤ (b :: rest).length
    · exact .inl (by simpa using (first_append_eq h' []).symm)
    · rw [List.append_nil] at h
      exact .inr ⟨by omega, by omega⟩

end First

/-! ## Segments that are settled -/

variable {file : UInt32} {start : Position} {s : Segment} {l : List Segment} {p : Placed} {n : Nat}

theorem offset_le_of_mem_place (h : p ∈ place file start l) :
    start.offset ≤ p.span.stop.offset := by
  obtain ⟨before, behind, -, hspan⟩ := exists_of_mem_place h
  simp only [hspan, Position.offset_after]
  omega

theorem filter_place_of_reaches (h : n < start.offset + 2) :
    (place file start l).filter (·.span.settled n) = [] := by
  refine List.filter_eq_nil_iff.mpr fun p hp => ?_
  have := offset_le_of_mem_place hp
  simp only [Span.settled, decide_eq_true_eq]
  omega

theorem filter_place_cons_of_reaches (h : n < start.offset + s.text.length + 2) :
    (place file start (s :: l)).filter (·.span.settled n) = [] := by
  rw [place, List.filter_cons_of_neg]
  · exact filter_place_of_reaches (by simpa using h)
  · simpa [Span.settled] using h

/-- What is settled in a text stays when the text goes on. -/
theorem filter_place_append (file : UInt32) (start : Position) (text behind : Bytes) :
    (place file start (text ++ behind).segments).filter
        (·.span.settled (start.offset + text.length)) =
      (place file start text.segments).filter (·.span.settled (start.offset + text.length)) := by
  fun_induction Bytes.segments text generalizing start
  case case1 => rw [filter_place_of_reaches (by simp), filter_place_of_reaches (by simp)]
  case case2 b rest s ih =>
    have hle : s.text.length ≤ (b :: rest).length := (text_first_isPrefix b rest).length_le
    rw [List.cons_append, Bytes.segments_cons]
    have hor : first b (rest ++ behind) = s ∨ (b :: rest).length < s.text.length + 2 ∧
        (b :: rest).length < (first b (rest ++ behind)).text.length + 2 :=
      first_append_or b rest behind
    rcases hor with heq | ⟨hlt, hlt'⟩
    · -- the segment is the same, and the rest of the text goes on in the same way
      have hdrop : (b :: (rest ++ behind)).drop s.text.length =
          (b :: rest).drop s.text.length ++ behind := by
        rw [← List.cons_append, List.drop_append_of_le_length hle]
      have hrest : start.offset + (b :: rest).length =
          (start.after s.text).offset + ((b :: rest).drop s.text.length).length := by
        rw [Position.offset_after, List.length_drop]
        omega
      rw [heq, hdrop, place, place, List.filter_cons, List.filter_cons, hrest, ih]
    · rw [filter_place_cons_of_reaches (by omega), filter_place_cons_of_reaches (by omega)]

end Segment

/-! ## Scans of two texts with a common beginning -/

namespace Source

variable {α : Type} {s t : Source} {n : Nat}

/-- What is picked from placed segments is settled if they are. -/
theorem filter_filterMap_settled {f : Placed → Option α} {g : α → Span}
    (h : ∀ p, ∀ a ∈ f p, (g a).stop = p.span.stop) (l : List Placed) :
    (l.filterMap f).filter (fun a => (g a).settled n) =
      (l.filter (·.span.settled n)).filterMap f := by
  rw [List.filter_filterMap, List.filterMap_filter]
  refine List.filterMap_congr fun p _ => ?_
  cases hf : f p with
  | none => simp
  | some a =>
    have hstop := h p a hf
    simp [Option.filter_some, Span.settled, hstop]

theorem filter_placed_eq (hs : n ≤ s.text.length) (ht : n ≤ t.text.length) (hid : s.id = t.id)
    (htake : s.text.take n = t.text.take n) :
    s.placed.filter (·.span.settled n) = t.placed.filter (·.span.settled n) := by
  have hplaced : ∀ u : Source, n ≤ u.text.length → u.placed.filter (·.span.settled n) =
      (Segment.place u.id .start (Bytes.segments (u.text.take n))).filter (·.span.settled n) := by
    intro u hu
    have hn : Position.start.offset + (u.text.take n).length = n := by
      simp [Position.start, hu]
    have := Segment.filter_place_append u.id .start (u.text.take n) (u.text.drop n)
    rwa [List.take_append_drop, hn] at this
  rw [hplaced s hs, hplaced t ht, hid, htake]

theorem filter_tokens_settled (hs : n ≤ s.text.length) :
    s.tokens.filter (·.span.settled n) =
      (s.placed.filter (·.span.settled n)).filterMap Placed.token? := by
  have heof : s.eof.span.settled n = false := by
    simp [eof, stop, Span.settled, Position.start]
    omega
  have hpick : ∀ p, ∀ u ∈ Placed.token? p, u.span.stop = p.span.stop :=
    fun p u hu => congrArg Span.stop (Placed.token?_eq_some hu).2.2.2
  rw [tokens_eq, List.filter_append, filter_filterMap_settled hpick,
    List.filter_cons_of_neg (by simp [heof])]
  simp

theorem filter_faults_settled (origin : Bytes) :
    (s.faults.map (Fault.diagnostic origin)).filter (·.span.settled n) =
      ((s.placed.filter (·.span.settled n)).filterMap Placed.fault?).map
        (Fault.diagnostic origin) := by
  have hpick : ∀ p, ∀ f ∈ Placed.fault? p, f.span.stop = p.span.stop := by
    intro p f hf
    rcases Placed.fault?_eq_some hf with ⟨-, -, hspan⟩ | ⟨-, -, hspan⟩ <;> rw [hspan]
    rfl
  rw [List.filter_map, ← filter_filterMap_settled hpick]
  rfl

/-- Two texts that begin with the same `n` bytes have the same tokens and the same diagnostics as
far as these end two bytes before the offset `n`, whatever the texts go on with. -/
theorem scan_settled (s t : Source) (sink : Sink) (n : Nat) (hs : n ≤ s.text.length)
    (ht : n ≤ t.text.length) (hid : s.id = t.id) (htake : s.text.take n = t.text.take n) :
    (s.scan sink).1.filter (·.span.settled n) = (t.scan sink).1.filter (·.span.settled n) ∧
      (s.scan sink).2.entries.filter (·.span.settled n) =
        (t.scan sink).2.entries.filter (·.span.settled n) := by
  have hplaced := filter_placed_eq hs ht hid htake
  constructor
  · rw [scan_eq, scan_eq, filter_tokens_settled hs, filter_tokens_settled ht, hplaced]
  · simp only [scan_eq, Sink.addFaults, List.filter_append]
    rw [filter_faults_settled, filter_faults_settled, hplaced]

/-- The texts part behind a dot, which is a fraction in one of them and a token in the other. A
character that is no token and a symbol of two bytes are settled there, the number is not. -/
theorem scan_settled_at :
    let s : Source := ⟨ascii "@ x<=1." ++ ascii "5 \"a", ascii "a.lox", 3⟩
    let t : Source := ⟨ascii "@ x<=1." ++ ascii "x", ascii "b.lox", 3⟩
    let sink : Sink := ⟨ascii "Scanner", []⟩
    7 ≤ s.text.length ∧ 7 ≤ t.text.length ∧ s.id = t.id ∧ s.text.take 7 = t.text.take 7 ∧
      (s.scan sink).1.filter (·.span.settled 7) = (t.scan sink).1.filter (·.span.settled 7) ∧
      (s.scan sink).2.entries.filter (·.span.settled 7) =
        (t.scan sink).2.entries.filter (·.span.settled 7) :=
  ⟨by decide, by decide, rfl, rfl, scan_settled _ _ _ 7 (by decide) (by decide) rfl rfl⟩

end Source

end LoxLex
