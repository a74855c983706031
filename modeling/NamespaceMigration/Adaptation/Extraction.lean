import NamespaceMigration.Adaptation.Fragment
import NamespaceMigration.Adaptation.Steps

/-! Taking a declaration out of its file. It is put with its directives and imports into a file of
its own under its old namespace, where all names are written in full and get their new names. After
that the code can move to another namespace and means the same there. -/
namespace NamespaceMigration

inductive ExtractionError where
  /-- No declaration is where the plan says. -/
  | missing (path summary : Text)
  | incompatible (target : Text) (fault : MergeFault)
deriving DecidableEq

namespace ExtractionError

def message : ExtractionError → Text
  | missing path summary => summary ++ " not found in " ++ path ++ ", re-run plan"
  | incompatible target fault => "cannot merge into " ++ target ++ ": " ++ fault.message

end ExtractionError

/-- A declaration on its own, and the literals in it to look at. -/
structure Extraction where
  fragment : Fragment
  review : List ReviewItem
deriving DecidableEq

namespace Statement

/-- The token with the name of a class or function. -/
def nameToken? (s : Statement) : Option Nat :=
  match s.kind with
  | .classLike _ _ token | .function _ token => some token
  | _ => none

end Statement

namespace Decision

/-- The symbol of a renamed type with a file of its own. -/
def renamedType? (d : Decision) : Option Component :=
  d.primary?.filter fun c => c.kind.isType && c.isRenamed

/-- What comes before a declaration when it is put into a file of its own. -/
def surroundings (d : Decision) (imports : List Text) : Text :=
  "<?php\n" ++ Fragment.renderDirectives d.directives ++ Fragment.renderSpace d.oldSpace? ++
    imports.flatMap (· ++ ['\n']) ++ ['\n']

/-- Gives a declaration with a file of its own its new short name. It is the first statement. -/
def renameDeclaration (d : Decision) (t : Text) : Text :=
  match d.primary? with
  | none => t
  | some c =>
    if c.old.short = c.new.short then t
    else
      let f := SourceFile.parse t
      let statement? := f.scopes.head?.bind fun s => s.bodyStatements.head?
      match statement?.bind Statement.nameToken? with
      | some token => TextEdit.applyAll [⟨f.tokenRange token, c.new.short⟩] t
      | none => t

/-- The statement that keeps the old name of a class. -/
def aliasStatement? (d : Decision) : Option Text :=
  d.renamedType?.map fun c =>
    "\\class_alias('" ++ c.new.text ++ "', '" ++ c.old.text ++ "', false);"

end Decision

namespace Extraction

/-- The review items of the declaration itself, with the lines that they have in the source. -/
def placeReview (path : Text) (fragmentLine sourceLine : Nat) (review : List ReviewItem) :
    List ReviewItem :=
  (review.filter (fragmentLine ≤ ·.line)).map fun item =>
    { item with path? := some path, line := item.line - fragmentLine + sourceLine }

/-- The declaration of a decision, out of the file `path`. -/
def ofDecision (f : SourceFile) (path : Text) (d : Decision) (x : RenameIndex)
    (createAliases : Bool) : Except ExtractionError Extraction := do
  let some l := f.findByTokens? d.tokens.first d.tokens.stop | .error (.missing path d.summary)
  let some s := f.scopes.find? (·.containsToken l.statement.first)
    | .error (.missing path d.summary)
  let before := d.surroundings ((f.scopeUses s).map fun u => f.statementText u.statement)
  let range := f.rangeWithDoc l.statement
  let output := Adaptation.renameAll x (before ++ range.of f.text ++ ['\n'])
  let renamed := d.renameDeclaration output.text
  let fragment ← (Fragment.ofText renamed).mapError (.incompatible d.target)
  let aliases := if createAliases then d.aliasStatement?.toList else []
  return {
    fragment := { fragment with space? := d.newSpace?, body := fragment.body ++ aliases }
    review := placeReview path (before.count '\n' + 1) (f.lines.line range.start) output.review }

end Extraction
end NamespaceMigration
