import LoxLex.Bytes

/-!
# Positions

A place in a text. Lines and columns count from one and columns count bytes;
both are 32-bit words and wrap. The offset is the number of bytes before the
place and does not wrap.

## Main definitions

* `Position.step`, `Position.after` — the place behind a byte or a text.
* `Position.least`, `Position.greatest` — the two ends of a pair of places.
-/

namespace LoxLex

structure Position where
  line : UInt32 := 0
  column : UInt32 := 0
  offset : Nat := 0
deriving DecidableEq, Repr, Inhabited

namespace Position

/-- The beginning of a text. -/
def start : Position := ⟨1, 1, 0⟩

/-- The place behind the byte `b` at `p`: a newline leads to the next line. -/
def step (p : Position) (b : Byte) : Position :=
  if b = Byte.newline then ⟨p.line + 1, 1, p.offset + 1⟩
  else ⟨p.line, p.column + 1, p.offset + 1⟩

/-- The place behind a whole text that begins at `p`. -/
def after (p : Position) (text : Bytes) : Position := text.foldl step p

@[simp] theorem offset_step (p : Position) (b : Byte) : (p.step b).offset = p.offset + 1 := by
  unfold step; split <;> rfl

@[simp] theorem after_nil (p : Position) : p.after [] = p := rfl

@[simp] theorem after_cons (p : Position) (b : Byte) (text : Bytes) :
    p.after (b :: text) = (p.step b).after text := rfl

@[simp] theorem after_append (p : Position) (s t : Bytes) :
    p.after (s ++ t) = (p.after s).after t := by
  simp [after]

@[simp] theorem offset_after (p : Position) (text : Bytes) :
    (p.after text).offset = p.offset + text.length := by
  induction text generalizing p with
  | nil => rfl
  | cons b text ih => simp [ih]; omega

/-- `LINE:COLUMN` -/
def format (p : Position) : Bytes :=
  Bytes.decimal p.line.toNat ++ ascii ":" ++ Bytes.decimal p.column.toNat

/-! ## Order -/

/-- Whether `p` stands before `q` by line, then column. -/
def before (p q : Position) : Bool :=
  p.line < q.line || (p.line == q.line && p.column < q.column)

/-- The earlier line and column, and the smaller offset, each on its own. -/
def least (p q : Position) : Position :=
  { (if q.before p then q else p) with offset := min p.offset q.offset }

/-- The later line and column, and the greater offset, each on its own. -/
def greatest (p q : Position) : Position :=
  { (if p.before q then q else p) with offset := max p.offset q.offset }

end Position

end LoxLex
