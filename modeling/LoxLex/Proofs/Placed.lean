import LoxLex.Proofs.ScannedSegments

/-!
# Segments in their places

What a segment becomes in its place: a token, a fault or nothing, with the place in it.

## Main statements

* `Segment.exists_of_place_eq`: a segment is placed behind the segments before it.
* `Placed.token?_eq_some`, `Placed.fault?_eq_some` — what tokens and faults keep of a segment.
-/

namespace LoxLex

/-- What `g` tells of the things picked from a list, told of the list itself. -/
theorem map_filterMap_of_pick {α β γ : Type} {f : α → Option β} {g : β → γ} {q : α → Bool}
    {k : α → γ} (h : ∀ a, (f a).map g = if q a then some (k a) else none) (l : List α) :
    (l.filterMap f).map g = (l.filter q).map k := by
  rw [List.map_filterMap]
  induction l with
  | nil => rfl
  | cons a l ih =>
    have ha := h a
    by_cases hq : q a
    · rw [if_pos hq] at ha
      simp only [List.filterMap_cons, ha, List.filter_cons_of_pos hq, List.map_cons, ih]
    · rw [if_neg hq] at ha
      simp only [List.filterMap_cons, ha, List.filter_cons_of_neg hq, ih]

/-- Words are identifiers or keywords. -/
theorem Kind.ofWord_ne {word : Bytes} {kind : Kind} (h : kind ≠ .identifier)
    (hkeyword : kind.isKeyword = false) : ofWord word ≠ kind := by
  unfold ofWord
  split
  · rintro rfl
    cases hkeyword
  · exact h.symm

namespace Segment

variable {file : UInt32} {start : Position} {segments : List Segment} {p : Placed}

theorem map_segment_place :
    (place file start segments).map (·.segment) = segments := by
  induction segments generalizing start with
  | nil => rfl
  | cons s rest ih => rw [place, List.map_cons, ih]

theorem place_append (l m : List Segment) : place file start (l ++ m) =
    place file start l ++ place file (start.after (l.flatMap (·.text))) m := by
  induction l generalizing start with
  | nil => rfl
  | cons s l ih =>
    rw [List.cons_append, place, place, ih, List.flatMap_cons, Position.after_append,
      List.cons_append]

theorem exists_of_place_eq {l r : List Placed} (h : place file start segments = l ++ p :: r) :
    ∃ before behind, segments = before ++ p.segment :: behind ∧ l = place file start before ∧
      p.span = ⟨start.after (before.flatMap (·.text)),
        (start.after (before.flatMap (·.text))).after p.segment.text, file⟩ ∧
      r = place file p.span.stop behind := by
  induction l generalizing start segments with
  | nil =>
    cases segments with
    | nil => cases h
    | cons s rest =>
      obtain ⟨rfl, rfl⟩ := List.cons.inj h
      exact ⟨[], rest, rfl, rfl, rfl, rfl⟩
  | cons q l ih =>
    cases segments with
    | nil => cases h
    | cons s rest =>
      rw [place, List.cons_append, List.cons.injEq] at h
      obtain ⟨rfl, h⟩ := h
      obtain ⟨before, behind, rfl, rfl, hspan, rfl⟩ := ih h
      refine ⟨s :: before, behind, rfl, rfl, ?_, rfl⟩
      rw [hspan, List.flatMap_cons, Position.after_append]

theorem exists_of_mem_place (h : p ∈ place file start segments) :
    ∃ before behind, segments = before ++ p.segment :: behind ∧
      p.span = ⟨start.after (before.flatMap (·.text)),
        (start.after (before.flatMap (·.text))).after p.segment.text, file⟩ := by
  obtain ⟨l, r, hplace⟩ := List.append_of_mem h
  obtain ⟨before, behind, hsegments, -, hspan, -⟩ := exists_of_place_eq hplace
  exact ⟨before, behind, hsegments, hspan⟩

theorem isSome_kind? (s : Segment) : s.kind?.isSome = s.shape.isToken := by
  unfold kind?
  cases s.shape <;> rfl

theorem kind?_eq_none {s : Segment} (h : s.shape.isToken = false) : s.kind? = none := by
  rwa [← isSome_kind?, Option.isSome_eq_false_iff, Option.isNone_iff_eq_none] at h

theorem kind?_ne_eof (s : Segment) : s.kind? ≠ some .eof := by
  have hword : Kind.ofWord s.text ≠ .eof := Kind.ofWord_ne (by simp) rfl
  unfold kind?
  split <;> simp [hword]

end Segment

namespace Placed

variable {p : Placed}

theorem token?_eq_some {t : Token} (h : p.token? = some t) : t.kind ≠ .eof ∧
    t.lexeme = p.segment.text ∧ t.line = p.span.stop.line ∧ t.span = p.span := by
  obtain ⟨kind, hkind, rfl⟩ := Option.map_eq_some_iff.mp h
  exact ⟨fun heof => p.segment.kind?_ne_eof (heof ▸ hkind), rfl, rfl, rfl⟩

theorem token?_eq_none (h : p.segment.shape.isToken = false) : p.token? = none := by
  rw [token?, Segment.kind?_eq_none h]
  rfl

theorem fault?_eq_none (h : p.segment.shape.isFault = false) : p.fault? = none := by
  unfold fault?
  split <;> simp_all [Shape.isFault]

/-- A stray character is reported where it stands, a string without an end where the text
ends. -/
theorem fault?_eq_some {f : Fault} (h : p.fault? = some f) :
    p.segment.shape = .stray ∧ f.code = .unexpectedCharacter ∧ f.span = p.span ∨
      p.segment.shape = .unclosed ∧ f.code = .unterminatedString ∧ f.span = p.span.atEnd := by
  unfold fault? at h
  split at h
  · next hshape =>
    cases h
    exact .inl ⟨hshape, rfl, rfl⟩
  · next hshape =>
    cases h
    exact .inr ⟨hshape, rfl, rfl⟩
  · cases h

end Placed

namespace Source

variable {s : Source} {p : Placed}

theorem map_segment_placed (s : Source) : s.placed.map (·.segment) = s.text.segments :=
  Segment.map_segment_place

theorem segment_mem_of_mem_placed (h : p ∈ s.placed) : p.segment ∈ s.text.segments :=
  s.map_segment_placed ▸ List.mem_map_of_mem h

/-- The end of the file is no segment. -/
theorem filter_kind_tokens : s.tokens.filter (·.kind ≠ .eof) =
    s.placed.filterMap Placed.token? := by
  have hkind : ∀ t ∈ s.placed.filterMap Placed.token?, decide (t.kind ≠ .eof) = true := by
    intro t ht
    obtain ⟨p, -, hp⟩ := List.mem_filterMap.mp ht
    simpa using (Placed.token?_eq_some hp).1
  rw [tokens_eq, List.filter_append, List.filter_eq_self.mpr hkind]
  simp [eof]

end Source

end LoxLex
