import LoxLex.Token.Keyword
import LoxLex.Token.Symbol

/-!
# Kinds of tokens

## Main definitions

* `Kind.name`, `Kind.ofName?` — the names under which listings show kinds.
* `Kind.spelling?` — the text of the kinds that have only one.
* `Kind.ofWord` — the kind of a word.
-/

namespace LoxLex

inductive Kind where
  | symbol (s : Symbol)
  | keyword (k : Keyword)
  | identifier
  | string
  | number
  | eof
deriving DecidableEq, Repr

namespace Kind

def name : Kind → Bytes
  | symbol s => s.name
  | keyword k => k.name
  | identifier => ascii "IDENTIFIER"
  | string => ascii "STRING"
  | number => ascii "NUMBER"
  | eof => ascii "EOF"

/-- The one text that tokens of this kind have; the other kinds leave it open. -/
def spelling? : Kind → Option Bytes
  | symbol s => some s.spelling
  | keyword k => some k.spelling
  | _ => none

/-- A word is a keyword if it is spelled like one, and an identifier otherwise. -/
def ofWord (word : Bytes) : Kind :=
  match Keyword.ofSpelling? word with
  | some k => keyword k
  | none => identifier

def isKeyword : Kind → Bool
  | keyword _ => true
  | _ => false

/-- Identifiers, strings and numbers: the kinds whose text tells more than the kind. -/
def isLiteral : Kind → Bool
  | identifier | string | number => true
  | _ => false

def isOperator : Kind → Bool
  | symbol s => s.isOperator
  | _ => false

def isPunctuation : Kind → Bool
  | symbol s => s.isPunctuation
  | _ => false

/-- Every kind. -/
def all : List Kind :=
  Symbol.all.map symbol ++ Keyword.all.map keyword ++ [identifier, string, number, eof]

/-- The kind with the given name. -/
def ofName? (name : Bytes) : Option Kind := all.find? (·.name == name)

theorem mem_all (k : Kind) : k ∈ all := by
  cases k with
  | symbol s => simp [all, Symbol.mem_all]
  | keyword k => simp [all, Keyword.mem_all]
  | _ => simp [all]

end Kind

end LoxLex
