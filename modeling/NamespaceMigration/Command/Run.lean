import NamespaceMigration.Command.Arguments
import NamespaceMigration.Migration.Sources
import NamespaceMigration.Migration.Layout
import NamespaceMigration.Report.Plan

/-! Carrying out commands: what they do to a disk, what they say, and the code they end with. -/
namespace NamespaceMigration

structure Outcome where
  code : Nat
  out : Text
  err : Text
deriving DecidableEq

namespace Outcome

def success (out : Text) : Outcome := ⟨0, out, []⟩

/-- A number with blanks before it. -/
def number (n : Nat) : Text :=
  let digits := Text.ofNat n
  List.replicate (5 - digits.length) ' ' ++ digits

/-- A cause with its number, if there are several. Further lines of it are indented as far. -/
def indent (number? : Option Nat) (cause : Text) : Text :=
  let lead := match number? with
    | some n => number n ++ [':', ' ']
    | none => List.replicate 4 ' '
  lead ++ Text.join ('\n' :: List.replicate lead.length ' ') (cause.splitOn '\n')

/-- The causes of an error, from the outside in. -/
def describeCauses (causes : List Text) : Text :=
  let numbered := causes.zipIdx.map fun (cause, n) =>
    '\n' :: indent (if causes.length = 1 then none else some n) cause
  if causes.isEmpty then [] else "\n\nCaused by:" ++ numbered.flatten

/-- An error, after what had been said before it. What was being done when it arose is said first. -/
def failure (context? : Option Text) (e : MigrationError) (out : Text) : Outcome :=
  match context? with
  | some context =>
    ⟨1, out, "Error: " ++ context ++ describeCauses (e.message :: e.causes) ++ ['\n']⟩
  | none => ⟨1, out, "Error: " ++ e.message ++ describeCauses e.causes ++ ['\n']⟩

/-- What a task on the disk leads to. -/
def ofTask {α : Type} (context? : Option Text) (task : DiskTask α) (done : α → Text)
    (d : Disk) : Outcome × Disk :=
  match task.run d with
  | .ok a d => (success (done a), d)
  | .error e d => (failure context? e [], d)

end Outcome

/-- The table of literals to look at, under a title. -/
def reviewReport (review : List ReviewItem) : Text :=
  if review.isEmpty then []
  else "Review these string literals\n" ++ Table.render (review.map Row.ofReview)

/-- The table of a layout that has been written. -/
def LayoutReport.describe (r : LayoutReport) (destination : Text) : Text :=
  let aliases : Text :=
    if r.aliases = 0 then []
    else Text.ofNat r.aliases ++ " old name(s) kept loadable through aliases\n"
  Text.ofNat r.written.length ++ " file(s) written to " ++ destination ++ '\n' :: aliases ++
    reviewReport r.review

def ReferenceReport.describe (r : ReferenceReport) : Text :=
  Text.ofNat r.count ++ " reference(s) renamed in " ++ Text.ofNat r.changed.length ++
    " file(s)\n" ++ reviewReport r.review

namespace PlanCommand

def config (c : PlanCommand) : Except ConfigError PlanConfig := do
  let ignored ← c.ignored.mapM IgnoreRule.parse
  return { PlanConfig.ofLead c.lead with
    append := c.append
    underscore := c.underscore
    globalUnderscore := c.globalUnderscore
    ignored
    includesDir := c.includesDir }

/-- What is said of a plan with errors. -/
def refusal (p : ProjectPlan) : Text :=
  Text.ofNat p.errorCount ++
    " error(s) found, plan not saved (use --allow-errors to save anyway)\n"

/-- Shows a plan and saves it. -/
def save (c : PlanCommand) (key : Bytes) (p : ProjectPlan) (d : Disk) : Outcome × Disk :=
  if p.hasErrors ∧ !c.allowErrors then (⟨1, p.report, refusal p⟩, d)
  else if c.trial then (.success p.report, d)
  else match (savePlan p (c.planFile?.getD c.source) key).run d with
    | .ok path d => (.success (p.report ++ "Plan saved to " ++ path ++ ['\n']), d)
    | .error e d => (.failure none e p.report, d)

def run (c : PlanCommand) (key : Bytes) (d : Disk) : Outcome × Disk :=
  match c.config with
  | .error e => (.failure none (.config e) [], d)
  | .ok config =>
    match d.planProject c.source config ⟨c.followLinks, c.skipHidden, c.skipped⟩ with
    | .error e => (.failure (some ("cannot plan " ++ c.source)) e [], d)
    | .ok p => c.save key p d

end PlanCommand

/-- Loads a plan, and goes on with it if that works. -/
def withPlan (key : Bytes) (planFile : Text) (d : Disk) (next : ProjectPlan → Outcome × Disk) :
    Outcome × Disk :=
  match d.loadPlan planFile key with
  | .ok p => next p
  | .error e => (.failure (some ("cannot load plan " ++ d.planPath planFile)) e [], d)

/-- Loads plans, and goes on with their index after another one. -/
def withPlans (key : Bytes) (d : Disk) (next : RenameIndex → Outcome × Disk) (x : RenameIndex) :
    (planFiles : List Text) → Outcome × Disk
  | [] => next x
  | planFile :: planFiles =>
    withPlan key planFile d fun p => withPlans key d next (x.merge p.index) planFiles

namespace RenameCommand

def run (c : RenameCommand) (key : Bytes) (d : Disk) : Outcome × Disk :=
  withPlans key d
    (fun x => Outcome.ofTask none (updateReferences x c.directories .standard)
      ReferenceReport.describe d)
    .empty (c.planFile :: c.others)

end RenameCommand

namespace ConvertCommand

def run (c : ConvertCommand) (key : Bytes) (d : Disk) : Outcome × Disk :=
  withPlan key c.planFile d fun p =>
    Outcome.ofTask (some ("cannot convert into " ++ c.destination))
      (writeLayout p c.destination ⟨c.allowRisky, c.createAliases, c.dropLeadDirs⟩)
      (·.describe c.destination) d

end ConvertCommand

namespace Command

/-- What is said of source files that are removed, or would be. -/
def describeCleared (trial : Bool) (paths : List Text) : Text :=
  let verb : Text := if trial then "would be removed" else "removed"
  paths.flatMap (· ++ ['\n']) ++ Text.ofNat paths.length ++ " file(s) " ++ verb ++ ['\n']

/-- Carries out a command with a key for signatures. -/
def run (key : Bytes) (d : Disk) : Command → Outcome × Disk
  | plan c => c.run key d
  | convert c => c.run key d
  | rename c => c.run key d
  | inspect planFile namesChanged =>
    withPlan key planFile d fun p =>
      (.success (if namesChanged then p.namesChanged.print ++ ['\n'] else p.report), d)
  | clear planFile trial =>
    withPlan key planFile d fun p =>
      Outcome.ofTask none (clearSources p trial) (describeCleared trial) d

/-- The plan files that a command reads. -/
def planFiles : Command → List Text
  | plan _ => []
  | convert c => [c.planFile]
  | rename c => c.planFile :: c.others
  | inspect planFile _ | clear planFile _ => [planFile]

/-- The files and directories that a command looks at, except the sources of its plans. -/
def paths (c : Command) : List Text :=
  match c with
  | plan c => c.source :: c.planFile?.toList
  | convert o => o.destination :: c.planFiles
  | rename o => o.directories ++ c.planFiles
  | inspect .. | clear .. => c.planFiles

/-- The directories with the sources of the plans that can be loaded. -/
def sourceRoots (c : Command) (key : Bytes) (d : Disk) : List Text :=
  c.planFiles.filterMap fun planFile => (d.loadPlan planFile key).toOption.map (·.sourceRoot)

end Command

namespace NoCommand

/-- How the program is used. -/
def usage : Text :=
  "Usage: psr4-migrate plan [OPTIONS] <PREFIX> <SRC>\n" ++
    "       psr4-migrate convert [OPTIONS] <PLAN_FILE> <DEST>\n" ++
    "       psr4-migrate rename [OPTIONS] <PLAN_FILE> <DEST_DIRS>...\n" ++
    "       psr4-migrate inspect [OPTIONS] <PLAN_FILE>\n" ++
    "       psr4-migrate clear [OPTIONS] <PLAN_FILE>\n"

def outcome : NoCommand → Outcome
  | help => .success usage
  | version => .success "psr4-migrate 0.1.0-alpha\n"
  | wrongUse => ⟨2, [], usage⟩

end NoCommand

/-- The whole program: its arguments, the key for signatures if one is given, and the disk before
and after. -/
def runProgram (key? : Option Bytes) (arguments : List Text) (d : Disk) : Outcome × Disk :=
  match Command.ofArguments arguments with
  | .ok c => c.run (key?.getD defaultKey) d
  | .error e => (e.outcome, d)

end NamespaceMigration
