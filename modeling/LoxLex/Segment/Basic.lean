import LoxLex.Token.Basic

/-!
# Segments

A text is cut from left to right into segments, each the longest piece that any of the
shapes allows. Nothing is left out: blanks, comments and what fits no other shape are
segments as well.

## Main definitions

* `Segment.first` — the segment that a text begins with.
* `Bytes.segments` — all segments of a text.
* `Segment.kind?`, `Segment.literal?` — what a segment is as a token.
-/

namespace LoxLex

/-- The shapes of segments. The last two are the faults: a string that nothing closes, and a
character that begins none of the other shapes. -/
inductive Shape where
  | blank
  | comment
  | symbol (s : Symbol)
  | word
  | number
  | string
  | unclosed
  | stray
deriving DecidableEq, Repr

structure Segment where
  shape : Shape
  text : Bytes
deriving DecidableEq, Repr

/-- The longest symbol that a text begins with: `all` lists the longer ones first. -/
def Symbol.leading? (text : Bytes) : Option Symbol := all.find? (·.spelling.isPrefixOf text)

namespace Segment

/-! ## The longest piece of each shape -/

/-- A dot and the digits behind it; nothing unless the text begins with both. -/
def fraction : Bytes → Bytes
  | [] => []
  | b :: rest =>
    if b = Byte.dot ∧ rest.head?.any Byte.isDigit then b :: rest.takeWhile Byte.isDigit
    else []

/-- The digits at the beginning of a text and the fraction behind them. -/
def numeral (text : Bytes) : Bytes :=
  text.takeWhile Byte.isDigit ++ fraction (text.dropWhile Byte.isDigit)

/-- A text up to its first newline and with it. -/
def commentLine (text : Bytes) : Bytes :=
  text.takeWhile (· ≠ Byte.newline) ++ (text.dropWhile (· ≠ Byte.newline)).take 1

/-- The segment opened by a quote. It runs to the next quote, over newlines too, and to the
end of the text if there is no other quote. -/
def quoted (rest : Bytes) : Segment :=
  if Byte.quote ∈ rest then
    ⟨.string, Byte.quote :: rest.takeWhile (· ≠ Byte.quote) ++ [Byte.quote]⟩
  else ⟨.unclosed, Byte.quote :: rest⟩

/-- A byte that fits nowhere else. A lead byte takes the continuation bytes behind it along,
so that a character of valid UTF-8 stays whole. -/
def stray (b : Byte) (rest : Bytes) : Segment :=
  ⟨.stray, b :: if b.isLead then rest.takeWhile Byte.isContinuation else []⟩

/-- The segment at the beginning of the text `b :: rest`. -/
def first (b : Byte) (rest : Bytes) : Segment :=
  if b.isBlank then ⟨.blank, [b]⟩
  else if b.isWordStart then ⟨.word, b :: rest.takeWhile Byte.isWordPart⟩
  else if b.isDigit then ⟨.number, numeral (b :: rest)⟩
  else if b = Byte.quote then quoted rest
  else if b = Byte.slash ∧ rest.head? = some Byte.slash then
    ⟨.comment, commentLine (b :: rest)⟩
  else match Symbol.leading? (b :: rest) with
    | some s => ⟨.symbol s, s.spelling⟩
    | none => stray b rest

theorem numeral_ne_nil {b : Byte} (rest : Bytes) (h : b.isDigit) : numeral (b :: rest) ≠ [] := by
  simp [numeral, h]

theorem commentLine_slash_ne_nil (rest : Bytes) : commentLine (Byte.slash :: rest) ≠ [] := by
  simp [commentLine, show Byte.slash ≠ Byte.newline by decide]

theorem text_quoted_ne_nil (rest : Bytes) : (quoted rest).text ≠ [] := by
  unfold quoted; split <;> simp

theorem text_first_ne_nil (b : Byte) (rest : Bytes) : (first b rest).text ≠ [] := by
  fun_cases first b rest with
  | case3 _ _ h => exact numeral_ne_nil rest h
  | case4 => exact text_quoted_ne_nil rest
  | case5 _ _ _ _ h => exact h.1 ▸ commentLine_slash_ne_nil rest
  | case6 _ _ _ _ _ s => exact Symbol.spelling_ne_nil s
  | _ => simp [stray]

theorem length_text_first_pos (b : Byte) (rest : Bytes) : 0 < (first b rest).text.length :=
  List.length_pos_iff.mpr (text_first_ne_nil b rest)

/-! ## Segments as tokens -/

/-- The kind of the token that a segment is. Blanks, comments and faults are none. -/
def kind? (s : Segment) : Option Kind :=
  match s.shape with
  | .symbol symbol => some (.symbol symbol)
  | .word => some (.ofWord s.text)
  | .number => some .number
  | .string => some .string
  | .blank | .comment | .unclosed | .stray => none

/-- The value of a numeral, or the text between the quotes of a string. -/
def literal? (s : Segment) : Option Literal :=
  match s.shape with
  | .number => some (.number (Decimal.ofNumeral s.text).toBinary64)
  | .string => some (.string ((s.text.drop 1).dropLast))
  | _ => none

end Segment

/-- A text cut into segments. -/
def Bytes.segments : Bytes → List Segment
  | [] => []
  | b :: rest =>
    let s := Segment.first b rest
    s :: segments ((b :: rest).drop s.text.length)
termination_by text => text.length
decreasing_by
  have := Segment.length_text_first_pos b rest
  simp only [List.length_drop, List.length_cons]
  omega

@[simp] theorem Bytes.segments_nil : Bytes.segments [] = [] := by simp [Bytes.segments]

theorem Bytes.segments_cons (b : Byte) (rest : Bytes) :
    Bytes.segments (b :: rest) = Segment.first b rest ::
      Bytes.segments ((b :: rest).drop (Segment.first b rest).text.length) := by
  simp [Bytes.segments]

end LoxLex
