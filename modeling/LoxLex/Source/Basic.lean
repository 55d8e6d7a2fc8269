import LoxLex.Source.Span

/-!
# Sources

A text with the path that it came from and a number that its spans carry.

## Main definitions

* `Source.slice` — the text of a span.
* `Source.lineText` — one line, found by its number.
-/

namespace LoxLex

structure Source where
  text : Bytes
  path : Bytes
  id : UInt32 := 0
deriving DecidableEq, Repr, Inhabited

/-- What follows the first `n` newlines of a text, if it has that many. -/
def Bytes.afterNewlines : Nat → Bytes → Option Bytes
  | 0, text => some text
  | _ + 1, [] => none
  | n + 1, b :: rest =>
    if b = Byte.newline then afterNewlines n rest else afterNewlines (n + 1) rest

/-- A text without its last byte where that is a carriage return. -/
def Bytes.dropCarriageReturn (text : Bytes) : Bytes :=
  if text.getLast? = some Byte.carriageReturn then text.dropLast else text

namespace Source

/-- The text that a span covers. A span that ends before it starts, or behind the end of
the source, covers nothing. -/
def slice (s : Source) (span : Span) : Bytes :=
  if span.stop.offset < span.start.offset ∨ s.text.length < span.stop.offset then []
  else (s.text.drop span.start.offset).take (span.stop.offset - span.start.offset)

/-- The line with the given number, without its newline and without one carriage return
before it. Lines count from one; a line that is not there is empty. -/
def lineText (s : Source) (line : UInt32) : Bytes :=
  if line = 0 then []
  else match s.text.afterNewlines (line.toNat - 1) with
    | none => []
    | some rest => Bytes.dropCarriageReturn (rest.takeWhile (· ≠ Byte.newline))

end Source

end LoxLex
