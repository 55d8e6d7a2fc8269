import Mathlib.Algebra.Group.Nat.Defs
import Mathlib.Data.List.Basic
import LoxLex.Token.Cursor

/-!
# Runs of a token cursor

A cursor may be asked anything in any order. However it was used, it stands before or at the first
end-of-file token, or behind the last token if there is none, and it reads what comes before that
place token by token.

## Main definitions

* `Token.stopIndex` — the place at which a cursor stops.
* `Token.Cursor.Op` — what can be asked of a cursor.
* `Token.Cursor.after`, `Token.Cursor.answers` — what many operations leave and answer.
* `Token.Cursor.InOrder` — what holds of a cursor after any operations.

## Main statements

* `Token.Cursor.exec_moves`: all that an operation can do to a cursor.
* `Token.Cursor.Within.after`: no run leads a cursor past its stop.
* `Token.Cursor.after_inOrder`: a cursor is in order however it was used.
-/

namespace LoxLex.Token

/-- The index of the first end-of-file token; the number of tokens if there is none. -/
def stopIndex (tokens : List Token) : Nat := tokens.findIdx (·.kind = .eof)

namespace Cursor

variable {c : Cursor} {tokens : List Token} {ops : List Op} {op : Op} {n : Nat}

/-- What can be asked of a cursor. -/
inductive Op where
  | isAtEnd
  | position
  | current
  | peek (ahead : UInt64)
  | previous
  | advance
  | check (kind : Kind)
  | accept (kind : Kind)
  | format

inductive Answer where
  | flag (value : Bool)
  | index (value : Nat)
  | token (t : Token)
  | text (bytes : Bytes)

/-- What an operation answers, and the cursor behind it. -/
def Op.exec (op : Op) (c : Cursor) : Answer × Cursor :=
  match op with
  | isAtEnd => (.flag c.isAtEnd, c)
  | position => (.index c.position, c)
  | current => (.token c.current, c)
  | peek ahead => (.token (c.peek ahead), c)
  | previous => (.token c.previous, c)
  | advance => (.token c.advance.1, c.advance.2)
  | check kind => (.flag (c.check kind), c)
  | accept kind => (.flag (c.accept kind).1, (c.accept kind).2)
  | format => (.text c.format, c)

/-- The cursor behind many operations. -/
def after (c : Cursor) (ops : List Op) : Cursor := ops.foldl (fun c op => (op.exec c).2) c

/-- The answers to many operations, one after the other. -/
def answers (c : Cursor) : List Op → List Answer
  | [] => []
  | op :: ops => (op.exec c).1 :: answers (op.exec c).2 ops

/-! ## One operation -/

/-- The cursor one token further on. -/
def next (c : Cursor) : Cursor := { c with position := c.position + 1 }

@[simp] theorem previous_next (c : Cursor) : c.next.previous = c.current := rfl

theorem advance_of_isAtEnd (h : c.isAtEnd = true) : c.advance = (c.current, c) := by
  simp [advance, h]

theorem advance_of_not_isAtEnd (h : c.isAtEnd = false) : c.advance = (c.current, c.next) := by
  simp only [advance, h, ← previous_next]
  rfl

theorem accept_eq (c : Cursor) (kind : Kind) : c.accept kind =
    if c.isAtEnd = false ∧ c.current.kind = kind then (true, c.next) else (false, c) := by
  unfold accept check
  cases h : c.isAtEnd with
  | true => simp
  | false => simp [advance_of_not_isAtEnd h]

/-- An operation leaves the cursor where it is, or takes it one token further on if it is not at
its end. -/
theorem exec_moves (op : Op) (c : Cursor) :
    (op.exec c).2 = c ∨ c.isAtEnd = false ∧ (op.exec c).2 = c.next := by
  cases op with
  | advance =>
    cases h : c.isAtEnd with
    | true => exact .inl (congrArg Prod.snd (advance_of_isAtEnd h))
    | false => exact .inr ⟨rfl, congrArg Prod.snd (advance_of_not_isAtEnd h)⟩
  | accept kind =>
    have haccept := congrArg Prod.snd (c.accept_eq kind)
    split at haccept
    · next h => exact .inr ⟨h.1, haccept⟩
    · exact .inl haccept
  | _ => exact .inl rfl

/-! ## The stop -/

theorem stopIndex_le_length (tokens : List Token) : stopIndex tokens ≤ tokens.length :=
  List.findIdx_le_length

/-- No end-of-file token stands before the stop. -/
theorem exists_of_lt_stopIndex (h : n < stopIndex tokens) :
    ∃ t, tokens[n]? = some t ∧ t.kind ≠ .eof := by
  have hlength := Nat.lt_of_lt_of_le h (stopIndex_le_length tokens)
  refine ⟨tokens[n], List.getElem?_eq_getElem hlength, ?_⟩
  simpa using List.not_of_lt_findIdx h

theorem kind_eq_eof_of_stopIndex {t : Token} (h : tokens[stopIndex tokens]? = some t) :
    t.kind = .eof := by
  unfold stopIndex at h
  obtain ⟨hlength, rfl⟩ := List.getElem?_eq_some_iff.mp h
  exact of_decide_eq_true (@List.findIdx_getElem _ _ _ hlength)

/-- A cursor over these tokens that is not past their stop. -/
structure Within (tokens : List Token) (c : Cursor) : Prop where
  tokens_eq : c.tokens = tokens
  position_le : c.position ≤ stopIndex tokens

namespace Within

theorem exists_token (h : c.Within tokens) (hlt : c.position < stopIndex tokens) :
    ∃ t, tokens[c.position]? = some t ∧ t.kind ≠ .eof ∧ c.current = t ∧ c.isAtEnd = false := by
  obtain ⟨t, ht, hkind⟩ := exists_of_lt_stopIndex hlt
  refine ⟨t, ht, hkind, ?_, ?_⟩
  · rw [current, h.tokens_eq, ht, Option.getD_some]
  · simpa [isAtEnd, h.tokens_eq, ht] using hkind

theorem isAtEnd_iff (h : c.Within tokens) :
    c.isAtEnd = true ↔ c.position = stopIndex tokens := by
  constructor
  · intro hend
    by_contra hne
    have hle := h.position_le
    obtain ⟨t, -, -, -, hbefore⟩ := h.exists_token (by omega)
    simp [hend] at hbefore
  · intro hstop
    unfold isAtEnd
    split
    · rfl
    · next t ht =>
      rw [h.tokens_eq, hstop] at ht
      exact decide_eq_true (kind_eq_eof_of_stopIndex ht)

theorem lt_of_isAtEnd_eq_false (h : c.Within tokens) (hend : c.isAtEnd = false) :
    c.position < stopIndex tokens := by
  have hiff := h.isAtEnd_iff
  have hle := h.position_le
  grind

/-- One operation keeps a cursor on its way and does not lead back. -/
theorem exec (h : c.Within tokens) (op : Op) :
    (op.exec c).2.Within tokens ∧ c.position ≤ (op.exec c).2.position := by
  rcases exec_moves op c with hsame | ⟨hend, hnext⟩
  · rw [hsame]
    exact ⟨h, Nat.le_refl _⟩
  · rw [hnext]
    exact ⟨⟨h.tokens_eq, h.lt_of_isAtEnd_eq_false hend⟩, Nat.le_succ _⟩

/-- So do any number of operations. -/
theorem after (h : c.Within tokens) (ops : List Op) :
    (c.after ops).Within tokens ∧ c.position ≤ (c.after ops).position := by
  induction ops generalizing c with
  | nil => exact ⟨h, Nat.le_refl _⟩
  | cons op ops ih =>
    obtain ⟨hstep, hle⟩ := h.exec op
    obtain ⟨hrest, hle'⟩ := ih hstep
    exact ⟨hrest, Nat.le_trans hle hle'⟩

/-- A cursor at the stop is the one that was put there. -/
theorem eq_of_position_eq (h : c.Within tokens) (hstop : c.position = stopIndex tokens) :
    c = { tokens, position := stopIndex tokens } := by
  rw [← hstop, ← h.tokens_eq]

/-- Reading on gives the tokens before the stop one by one, and then the token at the stop. -/
theorem answers_replicate_advance (h : c.Within tokens) (n : Nat) :
    c.answers (List.replicate n .advance) =
      (((tokens.take (stopIndex tokens)).drop c.position).take n).map .token ++
        List.replicate (n - (stopIndex tokens - c.position))
          (.token ({ tokens, position := stopIndex tokens } : Cursor).current) := by
  induction n generalizing c with
  | zero => simp [answers]
  | succ n ih =>
    rw [List.replicate_succ, answers]
    rcases Nat.lt_or_eq_of_le h.position_le with hlt | hstop
    · obtain ⟨t, ht, -, hcurrent, hend⟩ := h.exists_token hlt
      have hnext : c.next.Within tokens := ⟨h.tokens_eq, hlt⟩
      have hrest : (tokens.take (stopIndex tokens)).drop c.position =
          t :: (tokens.take (stopIndex tokens)).drop (c.position + 1) := by
        rw [List.drop_eq_getElem?_toList_append, List.getElem?_take_of_lt hlt, ht]
        rfl
      have hcount : n + 1 - (stopIndex tokens - c.position) =
          n - (stopIndex tokens - (c.position + 1)) := by omega
      simp only [Op.exec, advance_of_not_isAtEnd hend, ih hnext, hrest, hcount, hcurrent]
      rfl
    · have hend := h.isAtEnd_iff.mpr hstop
      have hrest : (tokens.take (stopIndex tokens)).drop (stopIndex tokens) = [] :=
        List.drop_eq_nil_of_le (List.length_take_le _ _)
      simp only [Op.exec, advance_of_isAtEnd hend, ih h, hstop, hrest, Nat.sub_self, Nat.sub_zero,
        ← h.eq_of_position_eq hstop, List.take_nil, List.map_nil, List.nil_append]
      rfl

end Within

/-! ## Runs -/

theorem peek_of_lt {ahead : UInt64}
    (h : (c.position + ahead.toNat) % 2 ^ 64 < c.tokens.length) :
    c.peek ahead = c.tokens[(c.position + ahead.toNat) % 2 ^ 64] := by
  have hsize : UInt64.size = 2 ^ 64 := rfl
  rw [peek, hsize, List.getElem?_eq_getElem h, Option.getD_some]

theorem peek_of_le {ahead : UInt64}
    (h : c.tokens.length ≤ (c.position + ahead.toNat) % 2 ^ 64) : c.peek ahead = c.final := by
  have hsize : UInt64.size = 2 ^ 64 := rfl
  rw [peek, hsize, List.getElem?_eq_none h, Option.getD_none]

/-- What holds of a cursor over these tokens:
it stands at the stop or before it, and nothing leads it back;
before the stop, reading gives the token under it, which is then the previous one, and at the stop
it reads what it stands on and stays;
a kind is accepted if the token before the stop has it, and what is not accepted changes nothing;
it looks ahead modulo 2 ^ 64 and sees the last token where there is none, or the stand-in if there
are no tokens at all;
read on, it gives what is before the stop in this order, each token once. -/
structure InOrder (tokens : List Token) (c : Cursor) : Prop where
  tokens_eq : c.tokens = tokens
  position_le : c.position ≤ stopIndex tokens
  ascending : ∀ more, c.position ≤ (c.after more).position
  isAtEnd_iff : c.isAtEnd = true ↔ c.position = stopIndex tokens
  advance_before : c.position < stopIndex tokens → ∃ t, tokens[c.position]? = some t ∧
    c.advance = (t, { c with position := c.position + 1 }) ∧ c.advance.2.previous = t
  advance_at : c.position = stopIndex tokens → c.advance = (c.current, c)
  accept_iff : ∀ kind, (c.accept kind).1 = true ↔
    c.position < stopIndex tokens ∧ ∃ t, tokens[c.position]? = some t ∧ t.kind = kind
  accepted : ∀ kind, (c.accept kind).1 = true →
    (c.accept kind).2 = { c with position := c.position + 1 }
  refused : ∀ kind, (c.accept kind).1 = false → (c.accept kind).2 = c
  accept_eof : c.accept .eof = (false, c)
  peek_inside : ∀ ahead (h : (c.position + ahead.toNat) % 2 ^ 64 < tokens.length),
    c.peek ahead = tokens[(c.position + ahead.toNat) % 2 ^ 64]
  peek_outside : ∀ ahead (h : tokens ≠ []),
    tokens.length ≤ (c.position + ahead.toNat) % 2 ^ 64 → c.peek ahead = tokens.getLast h
  standIn : tokens = [] → (∀ ahead, c.peek ahead = {}) ∧ c.current = {} ∧ c.previous = {} ∧
    c.advance = ({}, c) ∧ ({} : Token).kind = .eof
  reads_on : ∀ n, c.answers (List.replicate n .advance) =
    (((tokens.take (stopIndex tokens)).drop c.position).take n).map .token ++
      List.replicate (n - (stopIndex tokens - c.position))
        (.token ({ tokens, position := stopIndex tokens } : Cursor).current)

theorem Within.accept_iff (h : c.Within tokens) (kind : Kind) : (c.accept kind).1 = true ↔
    c.position < stopIndex tokens ∧ ∃ t, tokens[c.position]? = some t ∧ t.kind = kind := by
  rw [accept_eq]
  constructor
  · split
    · next haccept =>
      have hlt := h.lt_of_isAtEnd_eq_false haccept.1
      obtain ⟨t, ht, -, hcurrent, -⟩ := h.exists_token hlt
      exact fun _ => ⟨hlt, t, ht, hcurrent ▸ haccept.2⟩
    · simp
  · rintro ⟨hlt, t, ht, hkind⟩
    obtain ⟨u, hu, -, hcurrent, hend⟩ := h.exists_token hlt
    obtain rfl : t = u := Option.some.inj (ht.symm.trans hu)
    simp [hend, hcurrent, hkind]

theorem Within.inOrder (h : c.Within tokens) : c.InOrder tokens := by
  constructor
  case tokens_eq => exact h.tokens_eq
  case position_le => exact h.position_le
  case ascending => exact fun more => (h.after more).2
  case isAtEnd_iff => exact h.isAtEnd_iff
  case advance_before =>
    intro hlt
    obtain ⟨t, ht, -, hcurrent, hend⟩ := h.exists_token hlt
    rw [advance_of_not_isAtEnd hend, previous_next, hcurrent]
    exact ⟨t, ht, rfl, rfl⟩
  case advance_at => exact fun hstop => advance_of_isAtEnd (h.isAtEnd_iff.mpr hstop)
  case accept_iff => exact h.accept_iff
  case accepted =>
    intro kind
    rw [accept_eq]
    split <;> simp [next]
  case refused =>
    intro kind
    rw [accept_eq]
    split <;> simp
  case accept_eof =>
    rw [accept_eq, if_neg]
    rintro ⟨hend, hkind⟩
    obtain ⟨t, -, hne, hcurrent, -⟩ := h.exists_token (h.lt_of_isAtEnd_eq_false hend)
    exact hne (hcurrent ▸ hkind)
  case peek_inside =>
    obtain ⟨rfl, -⟩ := h
    exact fun ahead hlt => peek_of_lt hlt
  case peek_outside =>
    obtain ⟨rfl, -⟩ := h
    intro ahead hne hle
    rw [peek_of_le hle, final, List.getLastD_eq_getLast?, List.getLast?_eq_some_getLast hne]
    rfl
  case standIn =>
    rintro rfl
    have hstop : c = { tokens := [], position := 0 } :=
      h.eq_of_position_eq (Nat.le_zero.mp h.position_le)
    rw [hstop]
    exact ⟨fun _ => rfl, rfl, rfl, rfl, rfl⟩
  case reads_on => exact h.answers_replicate_advance

/-- A fresh cursor is in order after any operations. Read on from the beginning, it gives the
tokens before its stop. -/
theorem after_inOrder (tokens : List Token) (ops : List Op) :
    (({ tokens } : Cursor).after ops).InOrder tokens ∧
      ({ tokens } : Cursor).answers (List.replicate (stopIndex tokens) .advance) =
        (tokens.take (stopIndex tokens)).map .token := by
  have hfresh : ({ tokens } : Cursor).Within tokens := ⟨rfl, Nat.zero_le _⟩
  constructor
  · exact (hfresh.after ops).1.inOrder
  · simp [hfresh.answers_replicate_advance, List.take_take]

end Cursor

end LoxLex.Token
