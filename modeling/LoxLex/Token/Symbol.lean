import LoxLex.Bytes

/-!
# Symbols

The punctuation and the operators of the language, each with one fixed spelling.

## Main definitions

* `Symbol.spelling` — how a symbol is written.
* `Symbol.name` — how listings show it.
-/

namespace LoxLex

inductive Symbol where
  | leftParen | rightParen | leftBrace | rightBrace | comma | dot | semicolon
  | minus | plus | slash | star
  | bang | bangEqual | equal | equalEqual | greater | greaterEqual | less | lessEqual
deriving DecidableEq, Repr

namespace Symbol

def spelling : Symbol → Bytes
  | leftParen => ascii "("
  | rightParen => ascii ")"
  | leftBrace => ascii "\x7b"
  | rightBrace => ascii "\x7d"
  | comma => ascii ","
  | dot => ascii "."
  | semicolon => ascii ";"
  | minus => ascii "-"
  | plus => ascii "+"
  | slash => ascii "/"
  | star => ascii "*"
  | bang => ascii "!"
  | bangEqual => ascii "!="
  | equal => ascii "="
  | equalEqual => ascii "=="
  | greater => ascii ">"
  | greaterEqual => ascii ">="
  | less => ascii "<"
  | lessEqual => ascii "<="

/-- The name under which listings show a symbol. -/
def name : Symbol → Bytes
  | leftParen => ascii "LEFT_PAREN"
  | rightParen => ascii "RIGHT_PAREN"
  | leftBrace => ascii "LEFT_BRACE"
  | rightBrace => ascii "RIGHT_BRACE"
  | comma => ascii "COMMA"
  | dot => ascii "DOT"
  | semicolon => ascii "SEMICOLON"
  | minus => ascii "MINUS"
  | plus => ascii "PLUS"
  | slash => ascii "SLASH"
  | star => ascii "STAR"
  | bang => ascii "BANG"
  | bangEqual => ascii "BANG_EQUAL"
  | equal => ascii "EQUAL"
  | equalEqual => ascii "EQUAL_EQUAL"
  | greater => ascii "GREATER"
  | greaterEqual => ascii "GREATER_EQUAL"
  | less => ascii "LESS"
  | lessEqual => ascii "LESS_EQUAL"

/-- Brackets and separators are punctuation; all other symbols are operators. -/
def isPunctuation : Symbol → Bool
  | leftParen | rightParen | leftBrace | rightBrace | comma | dot | semicolon => true
  | _ => false

def isOperator (s : Symbol) : Bool := !s.isPunctuation

/-- Every symbol, those of two bytes before those of one. -/
def all : List Symbol :=
  [bangEqual, equalEqual, greaterEqual, lessEqual,
    leftParen, rightParen, leftBrace, rightBrace, comma, dot, semicolon,
    minus, plus, slash, star, bang, equal, greater, less]

theorem mem_all (s : Symbol) : s ∈ all := by cases s <;> decide

theorem spelling_ne_nil (s : Symbol) : s.spelling ≠ [] := by cases s <;> decide

theorem spelling_injective {s t : Symbol} (h : s.spelling = t.spelling) : s = t := by
  revert h; cases s <;> cases t <;> decide

end Symbol

end LoxLex
