import NamespaceMigration.Migration.Error
import NamespaceMigration.Plan.Conflict

/-! Plans and the disk: making a plan of the files in a directory, saving and loading it, and making
sure that the files are still what was planned. -/
namespace NamespaceMigration

def planFileName : Text := ".psr4-migrate.map.json"

namespace Disk

variable (d : Disk)

/-- The plan file at a path. A directory has one with a name of its own. -/
def planPath (path : Text) : Text :=
  if d.isDirectory path then Path.join path planFileName else path

/-- The plan of all source files below a directory. -/
def planProject (root : Text) (c : PlanConfig) (o : WalkOptions) :
    Except MigrationError ProjectPlan := do
  c.validate.mapError .config
  let root ← (d.canonical root).mapError (.io root)
  let files ← (d.sourceFiles o root).mapError .walk
  let plans ← files.mapM fun file => do
    let content ← (d.read file.path).mapError (.io file.path)
    return FilePlan.ofBytes c file.relative content
  return .ofFiles root c plans

/-- Reads a signed plan. -/
def loadPlan (path : Text) (key : Bytes) : Except MigrationError ProjectPlan := do
  let path := d.planPath path
  let content ← (d.read path).mapError (.io path)
  (ProjectPlan.ofSealed key content).mapError .untrusted

/-- Makes sure that a planned file has the content that was planned. It may be missing only if
`mayMiss` says so. -/
def checkFile (root : Text) (mayMiss : Bool) (file : FilePlan) : Except MigrationError Unit :=
  match d.read (Path.join root file.path) with
  | .ok content => if contentHash content = file.hash then .ok () else .error (.stale file.path)
  | .error e => if mayMiss ∧ e = .notFound then .ok () else .error (.unreadable file.path e)

/-- Makes sure of all planned files, in the order of the plan. -/
def checkFiles (p : ProjectPlan) (mayMiss : Bool) : Except MigrationError Unit :=
  p.files.forM (d.checkFile p.sourceRoot mayMiss)

end Disk

/-- Writes a signed plan. The result is the path of its file. -/
def savePlan (p : ProjectPlan) (path : Text) (key : Bytes) : DiskTask Text := do
  let path ← DiskTask.ask fun d => .ok (d.planPath path)
  let parent := (Path.parent? path).getD []
  DiskTask.change parent (·.makeDirectories parent)
  DiskTask.change path (·.write path (p.sealed key))
  return path

end NamespaceMigration
