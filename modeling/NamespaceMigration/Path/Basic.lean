import NamespaceMigration.Text.Basic

/-! Paths as they are written, and what can be said of them without looking at a disk. -/
namespace NamespaceMigration

/-- The parts of a path, without empty ones. -/
inductive PathPart where
  | root
  /-- A dot at the very start; others mean nothing. -/
  | here
  | up
  | named (name : Text)
deriving DecidableEq

namespace PathPart

def ofName (name : Text) : PathPart := if name = ['.', '.'] then .up else .named name

/-- The parts of a path in order. -/
def ofPath (path : Text) : List PathPart :=
  let names := path.splitOn '/'
  let start :=
    if path.head? = some '/' then [root] else if names.head? = some ['.'] then [here] else []
  start ++ (names.filter fun name => name ≠ [] ∧ name ≠ ['.']).map ofName

def name? : PathPart → Option Text
  | named name => some name
  | _ => none

end PathPart

namespace Path

def isAbsolute (path : Text) : Bool := path.head? == some '/'

/-- A path below a directory. An absolute path is not below it. -/
def join (directory path : Text) : Text :=
  if isAbsolute path ∨ directory.isEmpty then path
  else if directory.getLast? = some '/' then directory ++ path
  else directory ++ '/' :: path

/-- Names that lead nowhere else. -/
def isTrivial (name : Text) : Bool := name.isEmpty || name == ['.']

def dropTrivial (names : List Text) : List Text := (names.reverse.dropWhile isTrivial).reverse

/-- The path without its last part; nothing for a root and for the empty path. -/
def parent? (path : Text) : Option Text :=
  match path.splitOn '/' with
  | [] => none
  | first :: rest =>
    match dropTrivial rest with
    | [] => if first.isEmpty then none else some []
    | names =>
      let kept := first :: dropTrivial names.dropLast
      some (if kept = [[]] then ['/'] else Text.join ['/'] kept)

def name? (path : Text) : Option Text := (PathPart.ofPath path).getLast?.bind PathPart.name?

def withName (path name : Text) : Text :=
  join (if (name? path).isSome then (parent? path).getD [] else path) name

/-- What stands after the last dot of the name, unless the name starts with it. -/
def extension? (path : Text) : Option Text :=
  match (name? path).bind (Text.splitAtLast? '.') with
  | some (_ :: _, tail) => some tail
  | _ => none

end Path
end NamespaceMigration
