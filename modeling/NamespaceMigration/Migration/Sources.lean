import NamespaceMigration.Migration.Install
import NamespaceMigration.Migration.Plan

/-! Changes to source files where they are: references in them get new names, and files whose
declarations have all been planned are removed. -/
namespace NamespaceMigration

structure ReferenceReport where
  /-- The paths of the files written. -/
  changed : List Text
  /-- How many names changed. -/
  count : Nat
  review : List ReviewItem
deriving DecidableEq

namespace ReferenceReport

def empty : ReferenceReport := ⟨[], 0, []⟩

def append (a b : ReferenceReport) : ReferenceReport :=
  ⟨a.changed ++ b.changed, a.count + b.count, a.review ++ b.review⟩

end ReferenceReport

/-- Changes the references in one file. A file that is no text is left alone. -/
def updateFile (x : RenameIndex) (file : FoundFile) : DiskTask ReferenceReport := do
  let content ← DiskTask.ask fun d => (d.read file.path).mapError (.io file.path)
  match Text.ofUtf8? content with
  | none => return .empty
  | some t =>
    let r := Adaptation.ofText x t
    if r.count = 0 then return .empty
    installFile file.path r.text
    return ⟨[file.path], r.count, r.review.map fun item => { item with path? := some file.relative }⟩

/-- Changes the references in all source files below some directories. -/
def updateReferences (x : RenameIndex) (directories : List Text) (o : WalkOptions) :
    DiskTask ReferenceReport := do
  let files ← DiskTask.ask fun d => directories.mapM fun directory =>
    (d.sourceFiles o directory).mapError .walk
  let reports ← files.flatten.mapM (updateFile x)
  return reports.foldl .append .empty

namespace FilePlan

/-- Whether everything that a file declares goes elsewhere. -/
def isCleared (p : FilePlan) : Bool := !p.decisions.isEmpty && !p.hasErrors

end FilePlan

/-- Removes a file. The result has its path, unless it was missing. -/
def removeSource (path : Text) : DiskTask (List Text) := do
  match (← get).remove path with
  | .ok d => set d; return [path]
  | .error .notFound => return []
  | .error e => throw (.io path e)

/-- Removes the source files of a plan, which have to be what was planned, and returns their paths. A
trial removes nothing. -/
def clearSources (p : ProjectPlan) (trial : Bool) : DiskTask (List Text) := do
  DiskTask.ask (·.checkFiles p true)
  let paths := (p.files.filter (·.isCleared)).map fun file => Path.join p.sourceRoot file.path
  if trial then return paths
  return (← paths.mapM removeSource).flatten

end NamespaceMigration
