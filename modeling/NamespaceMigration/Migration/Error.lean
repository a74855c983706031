import NamespaceMigration.Disk.Walk
import NamespaceMigration.Plan.Signature
import NamespaceMigration.Adaptation.Extraction

/-! Everything that can stop a migration. -/
namespace NamespaceMigration

inductive MigrationError where
  | config (e : ConfigError)
  | walk (e : WalkError)
  | io (path : Text) (e : IoError)
  | untrusted (e : SealError)
  /-- A source file is not what it was when the plan was made. -/
  | stale (path : Text)
  | unreadable (path : Text) (e : IoError)
  /-- The plan has risks that nobody accepted. -/
  | risky (files : List Text)
  | extraction (e : ExtractionError)
deriving DecidableEq

namespace MigrationError

def message : MigrationError → Text
  | config e => e.message
  | walk e => e.message
  | io path e => "IO error on " ++ path ++ ": " ++ e.message
  | untrusted e => e.message
  | stale path => "source file " ++ path ++ " changed since the plan was made"
  | unreadable path e =>
    "source file " ++ path ++ " listed in the plan cannot be read: " ++ e.message
  | risky files =>
    "plan is risky (" ++ Text.join ", " files ++ "), pass --allow-risky to convert anyway"
  | extraction e => e.message

/-- What is behind an error, from the outside in. -/
def causes : MigrationError → List Text
  | walk e => e.causes
  | io _ e | unreadable _ e => [e.message]
  | untrusted e => e.cause?.toList
  | _ => []

end MigrationError

/-- A step that changes the disk. What it has done before an error stays done. -/
abbrev DiskTask := EStateM MigrationError Disk

namespace DiskTask

/-- A step that only looks at the disk. -/
def ask {α : Type} (look : Disk → Except MigrationError α) : DiskTask α := do
  match look (← get) with
  | .ok a => return a
  | .error e => throw e

/-- One change of the disk. The path is that of its error. -/
def change (path : Text) (f : Disk → Except IoError Disk) : DiskTask Unit := do
  match f (← get) with
  | .ok d => set d
  | .error e => throw (.io path e)

end DiskTask
end NamespaceMigration
