import NamespaceMigration.Disk.Basic
import NamespaceMigration.Plan.Identity

/-! The source files below a directory, sorted by their paths from there. -/
namespace NamespaceMigration

structure WalkOptions where
  followLinks : Bool
  /-- Leave out names that start with a dot. -/
  skipHidden : Bool
  /-- Paths from the start of the walk that are left out. -/
  skipped : List Text
deriving DecidableEq

namespace WalkOptions

def standard : WalkOptions := ⟨false, false, []⟩

def skips (o : WalkOptions) (relative : List Text) : Bool :=
  (o.skipHidden && relative.getLast?.any (·.head? == some '.')) ||
    o.skipped.any (PathPart.ofPath · == relative.map PathPart.named)

end WalkOptions

/-- Why a walk failed. -/
inductive WalkError where
  | noDirectory (path : Text)
  | io (path : Text) (e : IoError)
  /-- A link to a directory that the walk is in. -/
  | loop (ancestor child : Text)
deriving DecidableEq

namespace WalkError

/-- What went wrong on the way. -/
def detail : WalkError → Text
  | noDirectory path => path
  | io path e => "IO error for operation on " ++ path ++ ": " ++ e.message
  | loop ancestor child =>
    "File system loop found: " ++ child ++ " points to an ancestor " ++ ancestor

def message (e : WalkError) : Text :=
  match e with
  | noDirectory path => "Directory not found: " ++ path
  | _ => "Walk error: " ++ e.detail

def causes (e : WalkError) : List Text :=
  match e with
  | noDirectory _ => []
  | io _ inner => [e.detail, inner.message]
  | loop .. => [e.detail]

end WalkError

/-- A source file: its path, and its path from the start of the walk. -/
structure FoundFile where
  path : Text
  relative : Text
deriving DecidableEq

/-- A directory that a walk is in: where it is, and the path that led there. -/
structure WalkLevel where
  place : Place
  path : Text

namespace Disk

variable (d : Disk) (o : WalkOptions)

/-- What a name in a directory stands for, with the place. Links are followed if the options say so,
but never back into a directory that the walk is in. -/
def walkEntry (trail : List WalkLevel) (place : Place) (path : Text) :
    Except WalkError (Place × Option DiskEntry) :=
  match d.entry? place with
  | some (.link _) =>
    if !o.followLinks then .ok (place, none)
    else match d.find true path with
      | .error e => .error (.io path e)
      | .ok (target, e) =>
        match trail.find? (·.place == target) with
        | some level => if e = .directory then .error (.loop level.path path) else .ok (target, e)
        | none => .ok (target, e)
  | e? => .ok (place, e?)

/-- The source files below the innermost directory of a trail, which has the path `relative` from
the start. Each level adds another directory, so the number of entries bounds the depth. -/
def walkFrom : (depth : Nat) → (trail : List WalkLevel) → (relative : List Text) →
    Except WalkError (List FoundFile)
  | 0, _, _ => .ok []
  | _ + 1, [], _ => .ok []
  | depth + 1, level :: trail, relative => do
    let found ← (d.names level.place).mapM fun name => do
      let path := Path.join level.path name
      let relative := relative ++ [name]
      let (place, e?) ← d.walkEntry o (level :: trail) (level.place ++ [name]) path
      if o.skips relative then return []
      else match e? with
        | some .directory => walkFrom depth (⟨place, path⟩ :: level :: trail) relative
        | some (.file _) =>
          let isSource := (Path.extension? name).any (Text.eqIgnoreCase sourceExtension)
          return if isSource then [⟨path, Text.join ['/'] relative⟩] else []
        | _ => return []
    return found.flatten

/-- The source files below a directory. -/
def sourceFiles (root : Text) : Except WalkError (List FoundFile) :=
  match d.find true root with
  | .ok (place, .directory) =>
    (d.walkFrom o (d.entries.length + 1) [⟨place, root⟩] []).map fun files =>
      files.mergeSort fun a b => Text.le a.relative b.relative
  | _ => .error (.noDirectory root)

end Disk
end NamespaceMigration
