import LoxLex.Token.Listing

/-!
# Reading tokens one by one

A cursor over any sequence of tokens. It stops at the first end-of-file token, or behind the
last token if there is no such token. An empty sequence reads as a lone end-of-file token.

## Main definitions

* `Token.Cursor.peek` — a token some way ahead.
* `Token.Cursor.advance`, `Token.Cursor.accept` — the two ways to read a token.
-/

namespace LoxLex.Token

structure Cursor where
  tokens : List Token
  position : Nat := 0
deriving DecidableEq, Repr

namespace Cursor

def isAtEnd (c : Cursor) : Bool :=
  match c.tokens[c.position]? with
  | none => true
  | some t => t.kind = .eof

/-- What is read where no token has the index asked for: the last one, or an end-of-file
token if there are none. -/
def final (c : Cursor) : Token := c.tokens.getLastD {}

def current (c : Cursor) : Token := (c.tokens[c.position]?).getD c.final

/-- The token `ahead` places from the cursor. The sum wraps at 64 bits, so that a great number
leads back. -/
def peek (c : Cursor) (ahead : UInt64 := 0) : Token :=
  (c.tokens[(c.position + ahead.toNat) % UInt64.size]?).getD c.final

/-- The token before the cursor, or the first one if there is none before. -/
def previous (c : Cursor) : Token := (c.tokens[c.position - 1]?).getD c.final

/-- Reads a token: at the end the cursor stays and the token under it is read. -/
def advance (c : Cursor) : Token × Cursor :=
  if c.isAtEnd then (c.current, c)
  else
    let next := { c with position := c.position + 1 }
    (next.previous, next)

/-- Whether the token under the cursor has the given kind. -/
def check (c : Cursor) (kind : Kind) : Bool := c.current.kind = kind

/-- Reads the token under the cursor if it has the given kind. The end is never read. -/
def accept (c : Cursor) (kind : Kind) : Bool × Cursor :=
  if c.check kind && !c.isAtEnd then (true, c.advance.2) else (false, c)

/-- All tokens in a table, wherever the cursor stands. -/
def format (c : Cursor) : Bytes := tableText c.tokens

end Cursor

end LoxLex.Token
