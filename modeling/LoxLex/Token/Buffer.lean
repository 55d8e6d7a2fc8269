import LoxLex.Token.Basic

/-!
# Literals in a buffer

A number is written into a buffer of a fixed size before it becomes a text, and a text that is
longer than the buffer cannot be written. Strings are not copied.

## Main definitions

* `Binary64.write?` — the text of a number if a buffer has room for it.
* `Literal.write?` — the text of a literal by way of a buffer.
-/

namespace LoxLex

/-- The text of a number in a buffer of `size` bytes, or `none` if there is no room for it. -/
def Binary64.write? (size : Nat) (x : Binary64) : Option Bytes :=
  if x.format.length ≤ size then some x.format else none

namespace Literal

/-- The number of bytes in the buffer that numbers are written into. -/
def bufferSize : Nat := 32

def write? : Literal → Option Bytes
  | number value => value.write? bufferSize
  | string text => some text

end Literal

end LoxLex
