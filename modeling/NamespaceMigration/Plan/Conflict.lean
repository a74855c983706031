import NamespaceMigration.Plan.Project

/-! Conflicts between the files of a project. New names go to the decisions in reading order: one
that needs a taken name is left out, takes no name itself, and becomes an error of its file. -/
namespace NamespaceMigration

/-- A new symbol: its kind and the key of its name. -/
abbrev Identity := SymbolKind × Text

def Component.identity (c : Component) : Identity := (c.symbolKind, c.new.key c.symbolKind)

/-- An accepted decision and the path of its file. -/
structure Owner where
  decision : Decision
  path : Text
deriving DecidableEq

/-- The symbols that are taken, and by whom. -/
abbrev Owners := List (Identity × Owner)

namespace Decision

def identities (d : Decision) : List Identity := d.components.map Component.identity

/-- The owner of the first symbol of a decision that is taken. -/
def clash? (d : Decision) (owners : Owners) : Option Owner :=
  d.identities.findSome? fun i => List.lookup i owners

/-- The symbols that an accepted decision takes. -/
def claims (d : Decision) (path : Text) : Owners := d.identities.map fun i => (i, ⟨d, path⟩)

end Decision

/-- What is left of a file's decisions. -/
structure Settlement where
  kept : List Decision
  conflicts : List PlanError
  owners : Owners

/-- Settles the decisions of the file `path` one after the other. -/
def settle (path : Text) (owners : Owners) : List Decision → Settlement
  | [] => ⟨[], [], owners⟩
  | d :: ds =>
    match d.clash? owners with
    | some owner =>
      let rest := settle path owners ds
      { rest with conflicts := .ofConflict d owner.decision owner.path :: rest.conflicts }
    | none =>
      let rest := settle path (owners ++ d.claims path) ds
      { rest with kept := d :: rest.kept }

/-- Settles all files one after the other. -/
def settleFiles (owners : Owners) : List FilePlan → List FilePlan
  | [] => []
  | file :: files =>
    let settled := settle file.path owners file.decisions
    { file with decisions := settled.kept, errors := file.errors ++ settled.conflicts } ::
      settleFiles settled.owners files

/-- The plan of a project, from the plans of its files in reading order. -/
def ProjectPlan.ofFiles (sourceRoot : Text) (c : PlanConfig) (files : List FilePlan) : ProjectPlan :=
  let settled := settleFiles [] files
  ⟨sourceRoot, c.includesPath, c.lead, settled, .ofFiles settled⟩

end NamespaceMigration
