import LoxLex.Bytes

/-!
# Keywords

The words that are not identifiers.

## Main definitions

* `Keyword.spelling` — the word itself.
* `Keyword.ofSpelling?` — the keyword that a word is, if it is one.
-/

namespace LoxLex

inductive Keyword where
  | «and» | «class» | «else» | «false» | «for» | «fun» | «if» | «nil» | «or»
  | «print» | «return» | «super» | «this» | «true» | «var» | «while»
deriving DecidableEq, Repr

def Keyword.spelling : Keyword → Bytes
  | .and => ascii "and"
  | .class => ascii "class"
  | .else => ascii "else"
  | .false => ascii "false"
  | .for => ascii "for"
  | .fun => ascii "fun"
  | .if => ascii "if"
  | .nil => ascii "nil"
  | .or => ascii "or"
  | .print => ascii "print"
  | .return => ascii "return"
  | .super => ascii "super"
  | .this => ascii "this"
  | .true => ascii "true"
  | .var => ascii "var"
  | .while => ascii "while"

/-- The name under which listings show a keyword. -/
def Keyword.name : Keyword → Bytes
  | .and => ascii "AND"
  | .class => ascii "CLASS"
  | .else => ascii "ELSE"
  | .false => ascii "FALSE"
  | .for => ascii "FOR"
  | .fun => ascii "FUN"
  | .if => ascii "IF"
  | .nil => ascii "NIL"
  | .or => ascii "OR"
  | .print => ascii "PRINT"
  | .return => ascii "RETURN"
  | .super => ascii "SUPER"
  | .this => ascii "THIS"
  | .true => ascii "TRUE"
  | .var => ascii "VAR"
  | .while => ascii "WHILE"

/-- Every keyword, in the order of the words. -/
def Keyword.all : List Keyword :=
  [.and, .class, .else, .false, .for, .fun, .if, .nil, .or,
    .print, .return, .super, .this, .true, .var, .while]

/-- The keyword that is spelled `word`. Case matters. -/
def Keyword.ofSpelling? (word : Bytes) : Option Keyword := all.find? (·.spelling == word)

theorem Keyword.mem_all (k : Keyword) : k ∈ Keyword.all := by cases k <;> decide

theorem Keyword.spelling_injective {k l : Keyword} (h : k.spelling = l.spelling) : k = l := by
  revert h; cases k <;> cases l <;> decide

theorem Keyword.ofSpelling?_eq_some_iff {word : Bytes} {k : Keyword} :
    Keyword.ofSpelling? word = some k ↔ k.spelling = word := by
  constructor
  · intro h
    simpa using List.find?_some h
  · rintro rfl
    cases k <;> decide

@[simp] theorem Keyword.ofSpelling?_spelling (k : Keyword) :
    Keyword.ofSpelling? k.spelling = some k := Keyword.ofSpelling?_eq_some_iff.mpr rfl

end LoxLex
