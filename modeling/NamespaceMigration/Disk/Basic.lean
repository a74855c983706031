import NamespaceMigration.Path.Basic
import NamespaceMigration.Text.Utf8

/-! Disks: what is at which place, and what operations on paths do to it. Paths may lead through links.
An operation that fails changes nothing. -/
namespace NamespaceMigration

/-- Why an operation on a path failed. -/
inductive IoError where
  | notFound
  | taken
  | notDirectory
  | isDirectory
  | tooManyLinks
  /-- The content of a file is no text. -/
  | notText
deriving DecidableEq

namespace IoError

def message : IoError → Text
  | notFound => "No such file or directory (os error 2)"
  | taken => "File exists (os error 17)"
  | notDirectory => "Not a directory (os error 20)"
  | isDirectory => "Is a directory (os error 21)"
  | tooManyLinks => "Too many levels of symbolic links (os error 40)"
  | notText => "stream did not contain valid UTF-8"

end IoError

/-- The names that lead from the root to a place, without links. -/
abbrev Place := List Text

inductive DiskEntry where
  | file (content : Bytes)
  | directory
  /-- The target is a path, taken from the directory of the link. -/
  | link (target : Text)
deriving DecidableEq

structure Disk where
  /-- Where paths start that are not absolute. -/
  home : Place
  entries : List (Place × DiskEntry)
deriving DecidableEq

namespace Disk

variable (d : Disk)

/-- The root is always a directory. -/
def entry? (p : Place) : Option DiskEntry :=
  if p.isEmpty then some .directory else d.entries.lookup p

/-- Puts an entry at a place. What was there before is lost. -/
def put (p : Place) (e : DiskEntry) : Disk :=
  if (d.entries.lookup p).isSome then
    { d with entries := d.entries.map fun old => if old.1 = p then (p, e) else old }
  else { d with entries := d.entries ++ [(p, e)] }

def erase (p : Place) : Disk := { d with entries := d.entries.filter (·.1 ≠ p) }

/-- The names in a directory. -/
def names (p : Place) : List Text :=
  d.entries.filterMap fun entry =>
    match entry.1.reverse with
    | name :: parent => if parent.reverse = p then some name else none
    | [] => none

/-- The steps of a path. A slash or a dot at its end asks for a directory. -/
def steps (path : Text) : List PathPart :=
  let parts := PathPart.ofPath path
  if ((path.splitOn '/').drop 1).getLast?.any Path.isTrivial then parts ++ [.here] else parts

/-- Follows steps from a directory. How a link goes on is given by `expand`; one at the very end is
followed only if `last` says so. The last step may lead to a place where nothing is. -/
def followSteps (last : Bool) (expand : Place → List PathPart → Except IoError Place)
    (place : Place) : List PathPart → Except IoError Place
  | [] => .ok place
  | .root :: rest => followSteps last expand [] rest
  | .here :: rest => followSteps last expand place rest
  | .up :: rest => followSteps last expand place.dropLast rest
  | .named name :: rest =>
    let next := place ++ [name]
    match d.entry? next with
    | some .directory => followSteps last expand next rest
    | some (.file _) => if rest.isEmpty then .ok next else .error .notDirectory
    | some (.link target) =>
      if rest.isEmpty ∧ !last then .ok next
      else if target.isEmpty then .error .notFound
      else expand place (steps target ++ rest)
    | none => if rest.isEmpty then .ok next else .error .notFound

/-- Follows steps through at most so many links. -/
def follow (last : Bool) : (links : Nat) → Place → List PathPart → Except IoError Place
  | 0 => d.followSteps last fun _ _ => .error .tooManyLinks
  | links + 1 => d.followSteps last (follow last links)

def maxLinks : Nat := 40

/-- The place that a path leads to, whether something is there or not. -/
def locate (last : Bool) (path : Text) : Except IoError Place :=
  if path.isEmpty then .error .notFound else d.follow last maxLinks d.home (steps path)

/-- What is where a path leads to, and the place. -/
def find (last : Bool) (path : Text) : Except IoError (Place × DiskEntry) := do
  let place ← d.locate last path
  match d.entry? place with
  | some e => .ok (place, e)
  | none => .error .notFound

def isDirectory (path : Text) : Bool :=
  match d.find true path with
  | .ok (_, .directory) => true
  | _ => false

def isFile (path : Text) : Bool :=
  match d.find true path with
  | .ok (_, .file _) => true
  | _ => false

def read (path : Text) : Except IoError Bytes := do
  match ← d.find true path with
  | (_, .file content) => .ok content
  | _ => .error .isDirectory

def readText (path : Text) : Except IoError Text := do
  match Text.ofUtf8? (← d.read path) with
  | some t => .ok t
  | none => .error .notText

def pathOf (place : Place) : Text := '/' :: Text.join ['/'] place

/-- The absolute path without links of what a path leads to. -/
def canonical (path : Text) : Except IoError Text := do
  let (place, _) ← d.find true path
  .ok (pathOf place)

/-- A path without the slashes at its end, which ask for a directory. -/
def dropSlashes (path : Text) : Text := if path = ['/'] then path else Text.trimEnd (· == '/') path

/-- Writes a file, which is new or loses its content. -/
def write (path : Text) (content : Bytes) : Except IoError Disk := do
  let place ← d.locate true (dropSlashes path)
  match d.entry? place with
  | some .directory => .error .isDirectory
  | _ => if path.getLast? = some '/' then .error .isDirectory else .ok (d.put place (.file content))

def makeDirectory (path : Text) : Except IoError Disk := do
  let place ← d.locate false (dropSlashes path)
  match d.entry? place with
  | some _ => .error .taken
  | none => .ok (d.put place .directory)

/-- Makes a directory and those above it that are missing, at most `depth` of them. -/
def makeDirectoriesFrom : (depth : Nat) → (path : Text) → Except IoError Disk
  | 0, path => d.makeDirectory path
  | depth + 1, path =>
    match d.makeDirectory path with
    | .ok made => .ok made
    | .error .notFound =>
      match Path.parent? path with
      | none => .error .notFound
      | some [] => d.makeDirectory path
      | some parent => do
        let above ← makeDirectoriesFrom depth parent
        if above.isDirectory path then .ok above else above.makeDirectory path
    | .error e => if d.isDirectory path then .ok d else .error e

/-- Makes a directory and all that are missing above it. One that is there already is fine. -/
def makeDirectories (path : Text) : Except IoError Disk :=
  if path.isEmpty then .ok d else d.makeDirectoriesFrom path.length path

/-- Removes a file or a link. -/
def remove (path : Text) : Except IoError Disk := do
  match ← d.find false path with
  | (_, .directory) => .error .isDirectory
  | (place, _) => .ok (d.erase place)

/-- Moves a file over another one or to a place where nothing is. -/
def move (source target : Text) : Except IoError Disk := do
  let (place, e) ← d.find false source
  let goal ← d.locate false target
  match d.entry? goal with
  | some .directory => .error .isDirectory
  | _ => .ok ((d.erase place).put goal e)

end Disk
end NamespaceMigration
