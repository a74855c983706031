import NamespaceMigration.Migration.Install
import NamespaceMigration.Migration.Plan

/-! Writing the planned layout. All sources are read and taken apart first; then every target is
written once, after what is in it already, with its parts in the order of the plan. -/
namespace NamespaceMigration

structure LayoutOptions where
  /-- Go on even with a plan that has risks. -/
  allowRisky : Bool
  /-- Keep old class names working. -/
  createAliases : Bool
  /-- Leave the directories of the lead out of the paths of types. -/
  dropLeadDirs : Bool
deriving DecidableEq

structure LayoutReport where
  /-- The files written, below the destination. -/
  written : List Text
  review : List ReviewItem
  /-- The number of old names that are loaded through aliases. -/
  aliases : Nat
deriving DecidableEq

/-- A declaration on its way to a file. -/
structure Delivery where
  target : Text
  extraction : Extraction

/-- What goes into one file. -/
structure Bundle where
  target : Text
  fragments : List Fragment

/-- The name of the file that loads old names, in the directory for shared code. -/
def autoloadFile : Text := "autoload.php"

/-- A path without the directories of a lead. -/
def dropLeadPath (lead target : Text) : Text :=
  if lead.isEmpty then target
  else
    let dirs := lead.map (fun c => if c = '\\' then '/' else c) ++ ['/']
    (Text.dropLead? dirs target).getD target

namespace Decision

/-- The file that a decision goes to. -/
def finalTarget (d : Decision) (lead : Text) (o : LayoutOptions) : Text :=
  if o.dropLeadDirs ∧ d.exclusive then dropLeadPath lead d.target else d.target

end Decision

namespace Bundle

/-- Deliveries by their targets, in the order in which the targets come first. -/
def ofDeliveries (deliveries : List Delivery) : List Bundle :=
  (deliveries.map (·.target)).eraseDups.map fun target =>
    ⟨target, (deliveries.filter (·.target == target)).map (·.extraction.fragment)⟩

/-- Adds fragments to one, in order. -/
def mergeAll (target : Text) (first : Fragment) (others : List Fragment) :
    Except MigrationError Fragment :=
  others.foldlM (fun merged other =>
    (merged.merge other).mapError fun fault => .extraction (.incompatible target fault)) first

/-- The code of a file, given what is in it already. -/
def merged (b : Bundle) (present? : Option Text) : Except MigrationError (Option Fragment) := do
  match present?, b.fragments with
  | some t, fragments =>
    let present ← (Fragment.ofText (Adaptation.qualify t)).mapError fun fault =>
      .extraction (.incompatible b.target fault)
    some <$> mergeAll b.target present fragments
  | none, first :: others => some <$> mergeAll b.target first others
  | none, [] => return none

end Bundle

namespace Disk

variable (d : Disk)

/-- The declarations of a planned file, taken out of it. -/
def extractFile (p : ProjectPlan) (o : LayoutOptions) (file : FilePlan) :
    Except MigrationError (List Delivery) := do
  if file.decisions.isEmpty then return []
  let path := Path.join p.sourceRoot file.path
  let f := SourceFile.parse (← (d.readText path).mapError (.io path))
  file.decisions.mapM fun decision => do
    let extraction ← (Extraction.ofDecision f file.path decision p.index o.createAliases).mapError
      .extraction
    return ⟨decision.finalTarget p.lead o, extraction⟩

/-- Everything that is to be written. A plan with risks is refused unless they are accepted. -/
def deliveries (p : ProjectPlan) (o : LayoutOptions) : Except MigrationError (List Delivery) := do
  d.checkFiles p false
  if !o.allowRisky ∧ !p.riskyFiles.isEmpty then throw (.risky (p.riskyFiles.map (·.path)))
  return (← p.files.mapM (d.extractFile p o)).flatten

/-- What is in a target already. -/
def presentText? (path : Text) : Except MigrationError (Option Text) :=
  if d.isFile path then ((d.readText path).mapError (.io path)).map some else .ok none

/-- The new content of a target. -/
def bundleText? (destination : Text) (b : Bundle) : Except MigrationError (Option Text) := do
  let merged? ← b.merged (← d.presentText? (Path.join destination b.target))
  return merged?.map fun merged => Adaptation.reimport merged.render

end Disk

/-- Writes one target. -/
def writeBundle (destination : Text) (b : Bundle) : DiskTask Unit := do
  match ← DiskTask.ask (·.bundleText? destination b) with
  | some t => installFile (Path.join destination b.target) t
  | none => return

namespace ProjectPlan

/-- Old names of types in small letters, with their new names, sorted. -/
def autoloadEntries (p : ProjectPlan) : List (Text × Text) :=
  let entries := p.decisions.filterMap fun (_, d) =>
    d.renamedType?.map fun c => (Text.toLower c.old.text, c.new.text)
  entries.mergeSort fun a b => if a.1 = b.1 then Text.le a.2 b.2 else Text.le a.1 b.1

end ProjectPlan

/-- The code that loads the new class for an old name. The statement after the class then defines the
old name. -/
def autoloadText (entries : List (Text × Text)) : Text :=
  let lines : Text := entries.flatMap fun (old, new) =>
    "        '" ++ old ++ "' => '" ++ new ++ "',\n"
  "<?php\n\n\\spl_autoload_register(static function (string $class): void \x7b\n" ++
    "    static $map = [\n" ++ lines ++
    "    ];\n\n    $key = \\strtolower(\\ltrim($class, '\\\\'));\n" ++
    "    if (isset($map[$key])) \x7b\n        \\class_exists($map[$key]);\n    \x7d\n\x7d);\n"

/-- Writes the file that loads old names, if there are any, and counts them. -/
def writeAutoload (p : ProjectPlan) (destination : Text) : DiskTask Nat := do
  let entries := p.autoloadEntries
  if entries.isEmpty then return 0
  let path := Path.join (Path.join destination p.includesDir) autoloadFile
  installFile path (autoloadText entries)
  return entries.length

/-- Writes the planned layout into a destination. -/
def writeLayout (p : ProjectPlan) (destination : Text) (o : LayoutOptions) :
    DiskTask LayoutReport := do
  let deliveries ← DiskTask.ask (·.deliveries p o)
  let bundles := Bundle.ofDeliveries deliveries
  bundles.forM (writeBundle destination)
  let aliases ← if o.createAliases then writeAutoload p destination else pure 0
  return ⟨bundles.map (·.target), deliveries.flatMap (·.extraction.review), aliases⟩

end NamespaceMigration
