import LoxLex.Proofs.LongestMatch
import LoxLex.Proofs.Places

/-!
# Bytes in comments and strings

What stands in a comment or between the quotes of a string is not looked at, but for the byte
that ends it and for newlines. One byte can be changed there and nothing else notices.

## Main definitions

* `Segment.Replaces` — whether a segment can stand in the place of another.
* `Token.setByte`, `Source.setByte` — a token and a source with one byte changed.

## Main statements

* `Segment.Chained.replace`: a segment of a chain is replaced, and the others stay.
* `Source.placed_setByte`: where a segment is replaced, all others stay in their places.
* `Source.scan_setByte`: what a scan finds once a byte of a comment or a string is changed.
-/

namespace LoxLex

/-- A string with the byte of the index `i` changed. Numbers have no bytes. -/
def Literal.setByte (i : Nat) (b : Byte) : Literal → Literal
  | number value => number value
  | string text => string (text.set i b)

/-- A token with the byte of the index `i` changed in its lexeme, and in its literal behind the
quote with which the lexeme begins. -/
def Token.setByte (t : Token) (i : Nat) (b : Byte) : Token :=
  { t with lexeme := t.lexeme.set i b, literal := t.literal.map (Literal.setByte (i - 1) b) }

namespace Segment

/-! ## A segment in the place of another -/

/-- Whether the segment `t` can stand where `s` does, without a change before or behind it. -/
structure Replaces (t s : Segment) : Prop where
  formed : t.Formed
  stopsAt : ∀ tail, s.StopsAt tail → t.StopsAt tail
  stopsLike : ∀ tail, StopsLike (s.text ++ tail) (t.text ++ tail)
  after : ∀ p : Position, p.after t.text = p.after s.text

variable {s t : Segment} {before behind : List Segment}

theorem Chained.replace (h : Chained (before ++ s :: behind)) (ht : t.Replaces s) :
    Chained (before ++ t :: behind) := by
  refine h.append_congr ?_ ?_
  · cases h.of_append with
    | cons _ hstop hrest => exact .cons ht.formed (ht.stopsAt _ hstop) hrest
  · rw [List.flatMap_cons, List.flatMap_cons]
    exact ht.stopsLike _

/-- The segment with the byte of the index `i` changed. -/
def setByte (s : Segment) (i : Nat) (b : Byte) : Segment := { s with text := s.text.set i b }

section SetByte

variable {i : Nat} {b : Byte}

/-- A byte behind the first one can be changed where no newline comes or goes, if the segment
stays well formed and what follows it still does. -/
theorem replaces_setByte (hdot : s.text.head? ≠ some Byte.dot)
    (hold : s.text[i + 1]? ≠ some Byte.newline) (hnew : b ≠ Byte.newline)
    (hformed : (s.setByte (i + 1) b).Formed)
    (hstop : ∀ tail, s.StopsAt tail → (s.setByte (i + 1) b).StopsAt tail) :
    (s.setByte (i + 1) b).Replaces s where
  formed := hformed
  stopsAt := hstop
  stopsLike tail := by
    rw [setByte]
    cases htext : s.text with
    | nil => exact .refl tail
    | cons c rest =>
      refine .cons_of_ne_dot fun hc => hdot ?_
      rw [htext, hc, List.head?_cons]
  after p := Position.after_set hold hnew

theorem notMem_set {c : Byte} {text : Bytes} (h : c ∉ text) (hb : b ≠ c) : c ∉ text.set i b :=
  fun hmem => (List.mem_or_eq_of_mem_set hmem).elim h hb.symm

/-- Another byte stands before the newline that a text ends with. -/
theorem getLast?_set {text : Bytes} (hold : text[i]? ≠ some Byte.newline)
    (h : text.getLast? = some Byte.newline) : (text.set i b).getLast? = some Byte.newline := by
  rw [List.getLast?_eq_getElem?] at h ⊢
  have hlast : i ≠ text.length - 1 := by
    rintro rfl
    exact hold h
  rw [List.length_set, List.getElem?_set_ne hlast, h]

/-- Behind its slashes a comment is open to any byte but a newline. -/
theorem Formed.replaces_comment (h : s.Formed) (hshape : s.shape = .comment)
    (hi : i + 2 < s.text.length) (hold : s.text[i + 2]? ≠ some Byte.newline)
    (hnew : b ≠ Byte.newline) : (s.setByte (i + 2) b).Replaces s := by
  obtain ⟨body, ending, hbody, hending, htext⟩ := h.exists_comment hshape
  have hlt : i < body.length := by
    rcases hending with rfl | rfl
    · simpa [htext] using hi
    · have hle : i ≤ body.length := by simpa [htext, Nat.lt_succ_iff] using hi
      have hne : i ≠ body.length := by
        rintro rfl
        simp [htext] at hold
      omega
  have hdot : s.text.head? ≠ some Byte.dot := by
    simp [htext, show Byte.slash ≠ Byte.dot by decide]
  have hset : s.text.set (i + 2) b = Byte.slash :: Byte.slash :: body.set i b ++ ending := by
    simp [htext, List.set_append_left, hlt]
  have hformed : (s.setByte (i + 2) b).Formed := by
    refine .spelled ?_
    rw [setByte, hshape, hset]
    rcases hending with rfl | rfl
    · rw [List.append_nil]
      exact .comment (notMem_set hbody hnew)
    · exact .commentLine (notMem_set hbody hnew)
  refine replaces_setByte hdot hold hnew hformed fun tail hstop => ?_
  rw [StopsAt, hshape] at hstop
  rw [StopsAt, setByte, hshape]
  exact hstop.imp_left (getLast?_set hold)

/-- Between its quotes a string is open to any byte but a quote. -/
theorem Formed.replaces_string (h : s.Formed) (hshape : s.shape = .string)
    (hi : i + 2 < s.text.length) (hold : s.text[i + 1]? ≠ some Byte.newline)
    (hnew : b ≠ Byte.newline) (hquote : b ≠ Byte.quote) : (s.setByte (i + 1) b).Replaces s := by
  obtain ⟨body, hbody, htext⟩ := h.exists_body hshape
  have hlt : i < body.length := by simpa [htext] using hi
  have hdot : s.text.head? ≠ some Byte.dot := by
    simp [htext, show Byte.quote ≠ Byte.dot by decide]
  have hset : s.text.set (i + 1) b = Byte.quote :: body.set i b ++ [Byte.quote] := by
    simp [htext, List.set_append_left, hlt]
  have hformed : (s.setByte (i + 1) b).Formed := by
    refine .spelled ?_
    rw [setByte, hshape, hset]
    exact .string (notMem_set hbody hquote)
  refine replaces_setByte hdot hold hnew hformed fun tail _ => ?_
  rw [StopsAt, setByte, hshape]
  trivial

end SetByte

/-- Behind the quote the literal has the same bytes as the text. -/
theorem literal?_setByte (hshape : s.shape = .string) (i : Nat) (b : Byte) :
    (s.setByte (i + 1) b).literal? = s.literal?.map (Literal.setByte i b) := by
  have hbody : ((s.text.set (i + 1) b).drop 1).dropLast =
      ((s.text.drop 1).dropLast).set i b := by
    cases s.text with
    | nil => rfl
    | cons c rest =>
      rw [List.set_cons_succ, List.drop_one, List.drop_one, List.tail_cons, List.tail_cons,
        List.dropLast_eq_take, List.dropLast_eq_take, List.length_set, List.take_set]
  simp only [literal?, setByte, hshape, hbody]
  rfl

end Segment

/-! ## The places around it -/

namespace Placed

variable {p : Placed} {t : Token}

theorem shape_eq_string (h : p.token? = some t) (hkind : t.kind = .string) :
    p.segment.shape = .string := by
  obtain ⟨kind, hkind', rfl⟩ := Option.map_eq_some_iff.mp h
  obtain rfl : kind = .string := hkind
  have hword : Kind.ofWord p.segment.text ≠ .string := Kind.ofWord_ne (by simp) rfl
  unfold Segment.kind? at hkind'
  split at hkind' <;> simp_all

/-- A string token changes as its segment does. -/
theorem token?_setByte (h : p.token? = some t) (hshape : p.segment.shape = .string) (i : Nat)
    (b : Byte) : (Placed.mk (p.segment.setByte (i + 1) b) p.span).token? =
      some (t.setByte (i + 1) b) := by
  have hkind : p.segment.kind? = some .string := by rw [Segment.kind?, hshape]
  have hkind' : (p.segment.setByte (i + 1) b).kind? = some .string := by
    rw [Segment.kind?, Segment.setByte, hshape]
  rw [token?, hkind] at h
  cases h
  rw [token?, hkind', Segment.literal?_setByte hshape]
  rfl

end Placed

namespace Source

variable {s : Source} {l r : List Placed} {p : Placed} {i : Nat} {b : Byte}

/-- The source with the byte of the index `i` changed. -/
def setByte (s : Source) (i : Nat) (b : Byte) : Source := { s with text := s.text.set i b }

/-- If what a segment becomes when a byte is changed can stand in its place, all other segments
stay in theirs. -/
theorem placed_setByte (h : s.placed = l ++ p :: r) (hi : i < p.segment.text.length)
    (ht : (p.segment.setByte i b).Replaces p.segment) :
    (s.setByte (p.span.start.offset + i) b).placed = l ++ ⟨p.segment.setByte i b, p.span⟩ :: r ∧
      (s.setByte (p.span.start.offset + i) b).stop = s.stop := by
  obtain ⟨before, behind, hsegments, rfl, hspan, rfl⟩ := Segment.exists_of_place_eq h
  have htext : s.text =
      before.flatMap (·.text) ++ (p.segment.text ++ behind.flatMap (·.text)) := by
    rw [← Bytes.flatMap_text_segments s.text, hsegments, List.flatMap_append, List.flatMap_cons]
  have hset : (s.setByte (p.span.start.offset + i) b).text =
      (before ++ p.segment.setByte i b :: behind).flatMap (·.text) := by
    rw [setByte, htext, hspan, Position.offset_after, Position.start, Nat.zero_add,
      List.set_append_right _ _ (Nat.le_add_right _ _), Nat.add_sub_cancel_left,
      List.set_append_left _ _ hi, List.flatMap_append, List.flatMap_cons]
    rfl
  have hchain := (hsegments ▸ Segment.chained_segments s.text).replace ht
  have hsegments' := Segment.segments_flatMap_text hchain
  rw [← hset] at hsegments'
  constructor
  · rw [placed, hsegments', Segment.place_append, Segment.place, ht.after, hspan]
    rfl
  · rw [stop, stop, hset, htext]
    simp only [List.flatMap_append, List.flatMap_cons, Position.after_append, ht.after]

/-- A token of a scan was placed, and so were those before and behind it. -/
theorem exists_placed_of_tokens_eq {before behind : List Token} {t : Token}
    (h : s.tokens = before ++ t :: behind) (ht : t.kind ≠ .eof) : ∃ l p r,
      s.placed = l ++ p :: r ∧ before = l.filterMap Placed.token? ∧ p.token? = some t ∧
      behind = r.filterMap Placed.token? ++ [s.eof] := by
  have heof : t ≠ s.eof := by
    rintro rfl
    exact ht rfl
  rw [tokens_eq] at h
  rcases List.append_eq_append_iff.mp h with ⟨x, rfl, hx⟩ | ⟨x, hplaced, hx⟩
  · -- behind what is placed there is only the end of the file
    cases x with
    | nil => exact absurd (List.cons.inj hx).1.symm heof
    | cons => simp at hx
  · cases x with
    | nil => exact absurd (List.cons.inj hx).1 heof
    | cons u x =>
      obtain ⟨rfl, rfl⟩ := List.cons.inj hx
      obtain ⟨l, rest, hl, rfl, hrest⟩ := List.filterMap_eq_append_iff.mp hplaced
      obtain ⟨between, p, r, rfl, hnone, hp, rfl⟩ := List.filterMap_eq_cons_iff.mp hrest
      refine ⟨l ++ between, p, r, by rw [hl, List.append_assoc], ?_, hp, rfl⟩
      rw [List.filterMap_append, List.filterMap_eq_nil_iff.mpr hnone, List.append_nil]

/-- What a scan finds once a segment that is no fault is replaced: the segment may make another
token, and all else is as it was. -/
theorem scan_setByte_of_placed_eq (h : s.placed = l ++ p :: r) (hi : i < p.segment.text.length)
    (ht : (p.segment.setByte i b).Replaces p.segment) (hfault : p.segment.shape.isFault = false)
    (sink : Sink) : (s.setByte (p.span.start.offset + i) b).scan sink =
      (l.filterMap Placed.token? ++ ((Placed.mk (p.segment.setByte i b) p.span).token?.toList ++
        (r.filterMap Placed.token? ++ [s.eof])), (s.scan sink).2) := by
  obtain ⟨hplaced, hstop⟩ := placed_setByte h hi ht
  have heof : (s.setByte (p.span.start.offset + i) b).eof = s.eof := by
    rw [eof, eof, hstop]
    rfl
  have hnone : (Placed.mk (p.segment.setByte i b) p.span).fault? = p.fault? := by
    rw [Placed.fault?_eq_none (p := p) hfault]
    exact Placed.fault?_eq_none hfault
  rw [scan_eq, scan_eq, tokens_of_placed_eq hplaced, faults_of_placed_eq hplaced, heof,
    faults_of_placed_eq h, hnone]

/-- Behind the slashes of a comment a byte that is no newline can be any other, and the scan is
the same. -/
theorem scan_setByte_of_comment (hp : p ∈ s.placed) (hshape : p.segment.shape = .comment)
    (hi : p.span.start.offset + 2 ≤ i) (hi' : i < p.span.stop.offset)
    (hold : s.text[i]? ≠ some Byte.newline) (hnew : b ≠ Byte.newline) (sink : Sink) :
    (s.setByte i b).scan sink = s.scan sink := by
  obtain ⟨j, rfl⟩ : ∃ j, i = p.span.start.offset + (j + 2) :=
    ⟨i - p.span.start.offset - 2, by omega⟩
  have hj : j + 2 < p.segment.text.length := by
    have := offset_stop_of_mem_placed hp
    omega
  rw [getElem?_of_mem_placed hp hj] at hold
  have hformed := formed_of_mem_placed hp
  have hfault : p.segment.shape.isFault = false := by rw [hshape]; rfl
  have htoken : ∀ q : Placed, q.segment.shape = .comment → q.token? = none :=
    fun q hq => Placed.token?_eq_none (by rw [hq]; rfl)
  obtain ⟨l, r, hplaced⟩ := List.append_of_mem hp
  rw [scan_setByte_of_placed_eq hplaced hj (hformed.replaces_comment hshape hj hold hnew) hfault,
    htoken ⟨p.segment.setByte (j + 2) b, p.span⟩ hshape, ← htoken p hshape,
    ← tokens_of_placed_eq hplaced, scan_eq]

/-- Between the quotes of a string a byte that is no newline can be any other but a quote, and
the token is the only one to change. -/
theorem scan_setByte_of_string {before behind : List Token} {t : Token}
    (h : s.tokens = before ++ t :: behind) (hkind : t.kind = .string)
    (hi : t.span.start.offset < i) (hi' : i + 1 < t.span.stop.offset)
    (hold : s.text[i]? ≠ some Byte.newline) (hnew : b ≠ Byte.newline) (hquote : b ≠ Byte.quote)
    (sink : Sink) : (s.setByte i b).scan sink =
      (before ++ t.setByte (i - t.span.start.offset) b :: behind, (s.scan sink).2) := by
  obtain ⟨l, p, r, hplaced, rfl, htoken, rfl⟩ :=
    exists_placed_of_tokens_eq h (by rw [hkind]; simp)
  have hp : p ∈ s.placed := hplaced ▸ List.mem_append_right _ List.mem_cons_self
  have hshape := Placed.shape_eq_string htoken hkind
  obtain ⟨-, -, -, hspan⟩ := Placed.token?_eq_some htoken
  rw [hspan] at hi hi' ⊢
  obtain ⟨j, rfl⟩ : ∃ j, i = p.span.start.offset + (j + 1) :=
    ⟨i - p.span.start.offset - 1, by omega⟩
  have hj : j + 2 < p.segment.text.length := by
    have := offset_stop_of_mem_placed hp
    omega
  rw [getElem?_of_mem_placed hp (by omega)] at hold
  have hformed := formed_of_mem_placed hp
  have hfault : p.segment.shape.isFault = false := by rw [hshape]; rfl
  rw [scan_setByte_of_placed_eq hplaced (by omega)
    (hformed.replaces_string hshape hj hold hnew hquote) hfault,
    Placed.token?_setByte htoken hshape j b, Nat.add_sub_cancel_left]
  rfl

/-- Nothing is read inside comments and strings: with a byte of a comment changed a source is
scanned as before, and with a byte of a string changed only the token of this string is another,
by the same byte. -/
theorem scan_setByte (s : Source) (sink : Sink) (i : Nat) (b : Byte)
    (hold : s.text[i]? ≠ some Byte.newline) (hnew : b ≠ Byte.newline) :
    (∀ start comment, s.text.CutAt start comment → comment.shape = .comment → start + 2 ≤ i →
      i < start + comment.text.length → (s.setByte i b).scan sink = s.scan sink) ∧
    ∀ before t behind, (s.scan sink).1 = before ++ t :: behind → t.kind = .string →
      t.span.start.offset < i → i + 1 < t.span.stop.offset → b ≠ Byte.quote →
      (s.setByte i b).scan sink =
        (before ++ t.setByte (i - t.span.start.offset) b :: behind, (s.scan sink).2) := by
  constructor
  · intro start comment hcut hshape hi hi'
    obtain ⟨p, hp, rfl, rfl⟩ := cutAt_iff.mp hcut
    rw [← offset_stop_of_mem_placed hp] at hi'
    exact scan_setByte_of_comment hp hshape hi hi' hold hnew sink
  · intro before t behind h hkind hi hi' hquote
    rw [scan_eq] at h
    exact scan_setByte_of_string h hkind hi hi' hold hnew hquote sink

/-- A quote can stand in the comment, and two slashes in the string that runs over two lines. -/
theorem scan_setByte_at :
    let s : Source := ⟨ascii "1//a@\n\"b\n/c\"@", [], 0⟩
    let sink : Sink := ⟨[], []⟩
    let found := s.scan sink
    let string : Token := ⟨.string, ascii "\"b\n/c\"", some (.string (ascii "b\n/c")), 3,
      ⟨⟨2, 1, 6⟩, ⟨3, 4, 12⟩, 0⟩⟩
    (s.setByte 4 Byte.quote).scan sink = found ∧
      (s.setByte 10 Byte.slash).scan sink =
        (found.1.take 1 ++ string.setByte 4 Byte.slash :: found.1.drop 2, found.2) :=
  let comment : Placed := ⟨⟨.comment, ascii "//a@\n"⟩, ⟨⟨1, 2, 1⟩, ⟨2, 1, 6⟩, 0⟩⟩
  ⟨(scan_setByte _ _ 4 Byte.quote (by decide) (by decide)).1 1 comment.segment
      (cutAt_iff.mpr ⟨comment, by decide +kernel, rfl, rfl⟩) rfl (by decide) (by decide),
    (scan_setByte _ _ 10 Byte.slash (by decide) (by decide)).2 _ _ _ (by decide +kernel) rfl
      (by decide) (by decide) (by decide)⟩

end Source

end LoxLex
