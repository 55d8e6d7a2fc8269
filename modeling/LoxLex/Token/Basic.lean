import LoxLex.Number.Shortest
import LoxLex.Source.Span
import LoxLex.Token.Kind

/-!
# Tokens

## Main definitions

* `Literal` — the value that numbers and strings carry.
* `Token` — a piece of a text with its kind and place.
* `Token.format` — a token on one line.
-/

namespace LoxLex

inductive Literal where
  | number (value : Binary64)
  | string (text : Bytes)
deriving DecidableEq, Repr

/-- A number in its shortest form, a string as it is. -/
def Literal.format : Literal → Bytes
  | number value => value.format
  | string text => text

/-- The line of a token is the one on which it ends. The defaults make the token that
stands at the end of an empty sequence. -/
structure Token where
  kind : Kind := .eof
  lexeme : Bytes := []
  literal : Option Literal := none
  line : UInt32 := 1
  span : Span := {}
deriving DecidableEq, Repr

namespace Token

def number? (t : Token) : Option Binary64 :=
  match t.literal with
  | some (.number value) => some value
  | _ => none

def string? (t : Token) : Option Bytes :=
  match t.literal with
  | some (.string text) => some text
  | _ => none

/-- The text of the literal; `null` where there is none. -/
def literalText (t : Token) : Bytes :=
  match t.literal with
  | some literal => literal.format
  | none => ascii "null"

/-- The name of the kind, the lexeme and the literal. -/
def format (t : Token) : Bytes :=
  t.kind.name ++ ascii " " ++ t.lexeme ++ ascii " " ++ t.literalText

end Token

end LoxLex
