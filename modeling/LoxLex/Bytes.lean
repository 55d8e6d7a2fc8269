/-!
# Bytes

Texts are lists of bytes. A program text may hold any bytes, so nothing here
asks for valid UTF-8; `ascii` is only for spelling out words of our own.

## Main definitions

* `Byte.isDigit`, `Byte.isWordStart`, … — the classes of bytes that segments
  are made of.
* `Bytes.decimal`, `Bytes.ofDecimal` — decimal numerals.
* `Bytes.lines` — a text cut into lines.
-/

namespace LoxLex

abbrev Byte := UInt8

abbrev Bytes := List Byte

/-- The bytes of a word written in ASCII. -/
def ascii (word : String) : Bytes := word.toList.map Char.toUInt8

namespace Byte

/-- What a cursor answers where there is no byte. -/
def nul : Byte := 0
def newline : Byte := '\n'.toUInt8
def carriageReturn : Byte := '\r'.toUInt8
def quote : Byte := '"'.toUInt8
def dot : Byte := '.'.toUInt8
def slash : Byte := '/'.toUInt8

/-! ## Classes of bytes -/

def isDigit (b : Byte) : Bool := '0'.toUInt8 ≤ b && b ≤ '9'.toUInt8

/-- ASCII letters and the underscore start a word. -/
def isWordStart (b : Byte) : Bool :=
  ('a'.toUInt8 ≤ b && b ≤ 'z'.toUInt8) || ('A'.toUInt8 ≤ b && b ≤ 'Z'.toUInt8)
    || b == '_'.toUInt8

def isWordPart (b : Byte) : Bool := b.isWordStart || b.isDigit

def isBlank (b : Byte) : Bool :=
  b == ' '.toUInt8 || b == '\t'.toUInt8 || b == carriageReturn || b == newline

/-- The bytes that may open a character of several bytes in UTF-8. -/
def isLead (b : Byte) : Bool := 0xC0 ≤ b

/-- The bytes that may only follow a lead byte in UTF-8. -/
def isContinuation (b : Byte) : Bool := 0x80 ≤ b && b < 0xC0

/-- The value of a digit. -/
def digitValue (b : Byte) : Nat := b.toNat - '0'.toNat

end Byte

namespace Bytes

/-! ## Decimal numerals -/

/-- A natural number in decimal, without leading zeros. -/
def decimal (n : Nat) : Bytes := (Nat.toDigits 10 n).map Char.toUInt8

/-- An integer in decimal; only negative ones carry a sign. -/
def decimalInt : Int → Bytes
  | .ofNat n => decimal n
  | .negSucc n => ascii "-" ++ decimal (n + 1)

@[simp] theorem decimalInt_natCast (n : Nat) : decimalInt n = decimal n := rfl

/-- The number that a run of digits denotes. -/
def ofDecimal (digits : Bytes) : Nat := digits.foldl (fun n b => 10 * n + b.digitValue) 0

@[simp] theorem ofDecimal_nil : ofDecimal [] = 0 := rfl

@[simp] theorem ofDecimal_concat (digits : Bytes) (b : Byte) :
    ofDecimal (digits ++ [b]) = 10 * ofDecimal digits + b.digitValue := by
  simp [ofDecimal]

/-! ## Lines -/

/-- The lines of a text: what stands between its newlines. A newline ends a line,
so there is no further line after the last one. -/
def lines (text : Bytes) : List Bytes :=
  let pieces := text.splitOn Byte.newline
  if pieces.getLast? = some [] then pieces.dropLast else pieces

@[simp] theorem lines_nil : lines [] = [] := rfl

end Bytes

end LoxLex
