import LoxLex.Bytes

/-!
# Directories

Files by their paths, and the way a path leads to one of them. A place in the directory is
the list of the names that lead to it, so the directory itself is the empty list. Of what
lies outside only the directories above are known to be there.

## Main definitions

* `Directory.place` — the place that a path names if all directories on its way exist.
* `Directory.read?` — the text of what a path leads to.
-/

namespace LoxLex

/-- Files with their paths. All directories on the way to a file exist along with it. -/
structure Directory where
  files : List (Bytes × Bytes) := []
deriving DecidableEq, Repr

namespace Directory

/-! ## Paths -/

/-- The name by which a directory refers to itself. -/
def self : Bytes := ascii "."

/-- The name by which a directory refers to the one that holds it. -/
def parent : Bytes := ascii ".."

/-- The length from which on a path is too long to lead anywhere. -/
def lengthLimit : Nat := 4096

/-- The names in a path from first to last. -/
def components (path : Bytes) : List Bytes := path.splitOn Byte.slash

/-- Whether a name in a path leads nowhere else. -/
def isIdle (name : Bytes) : Bool := name.isEmpty || name == self

/-- The place that a name leads to from another place. -/
def enter (here : List Bytes) (name : Bytes) : List Bytes :=
  if isIdle name then here
  else if name = parent then here.dropLast
  else here ++ [name]

/-- The place that the names of a path lead to. -/
def place (names : List Bytes) : List Bytes := names.foldl enter []

/-! ## What is there -/

/-- The text of the file at a place. If several paths lead to it, the last one counts. -/
def file? (d : Directory) (here : List Bytes) : Option Bytes :=
  (d.files.findRev? fun f => place (components f.1) == here).map (·.2)

/-- Whether there is a directory at a place: some path to a file comes through it. -/
def isDirectory (d : Directory) (here : List Bytes) : Bool :=
  d.files.any fun f =>
    let names := components f.1
    (List.range names.length).any fun n => place (names.take n) == here

/-! ## Reading -/

/-- Follows names from outside of the directory. The way leads upwards only, since no name
there is known. -/
def outside (names : List Bytes) : Option Bytes :=
  if names.all fun name => isIdle name || name == parent then some [] else none

/-- Follows names from a place where there is a directory. Whatever a name follows has to be a
directory, even where that name leads nowhere else. A directory can be read like a file, but
holds no text. -/
def walk (d : Directory) (here : List Bytes) : List Bytes → Option Bytes
  | [] => some []
  | name :: rest =>
    if name = parent ∧ here = [] then outside rest
    else
      let next := enter here name
      if isIdle name || name == parent || d.isDirectory next then d.walk next rest
      else if rest = [] then d.file? next
      else none

/-- The text of what a path leads to. The empty path leads nowhere, and one that begins with a
slash starts outside. -/
def read? (d : Directory) (path : Bytes) : Option Bytes :=
  if path = [] ∨ lengthLimit ≤ path.length then none
  else if path.head? = some Byte.slash then outside (components path)
  else d.walk [] (components path)

/-- A directory with one file in a directory of its own. -/
private def nested : Directory := ⟨[(ascii "a/b", ascii "1")]⟩

example : nested.read? (ascii "./a/..//a/b") = some (ascii "1") := by decide +kernel
example : nested.read? (ascii "a/..") = some [] := by decide +kernel
example : nested.read? (ascii "a/b/") = none := by decide +kernel
example : nested.read? (ascii "c/../a/b") = none := by decide +kernel

end Directory

end LoxLex
