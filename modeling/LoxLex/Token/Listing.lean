import LoxLex.Table
import LoxLex.Token.Basic

/-!
# Listings of tokens

Tokens are listed one to a line or in a table.

## Main definitions

* `Listing.format` — tokens in either form.
-/

namespace LoxLex

inductive Listing where
  | list
  | table
deriving DecidableEq, Repr

/-- One line for each token. -/
def Token.listText (tokens : List Token) : Bytes :=
  tokens.flatMap fun t => t.format ++ ascii "\n"

/-- The cells of the token with the given index. Quotes show where a lexeme begins and ends. -/
def Token.cells (t : Token) (index : Nat) : List Bytes :=
  [Bytes.decimal index, t.kind.name, ascii "'" ++ t.lexeme ++ ascii "'", t.literalText,
    Bytes.decimal t.line.toNat]

def Token.table (tokens : List Token) : Table :=
  .ofRows [ascii "#", ascii "Kind", ascii "Lexeme", ascii "Literal", ascii "Line"]
    (tokens.mapIdx fun index t => t.cells index)

def Token.tableText (tokens : List Token) : Bytes := (Token.table tokens).format

def Listing.format : Listing → List Token → Bytes
  | list => Token.listText
  | table => Token.tableText

end LoxLex
