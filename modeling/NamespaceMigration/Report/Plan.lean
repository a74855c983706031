import NamespaceMigration.Adaptation.Renamed
import NamespaceMigration.Json.Basic
import NamespaceMigration.Plan.Project
import NamespaceMigration.Text.Basic

/-! Tables of places in source files. Columns are as wide as their widest cell; rules stand above
and below the headings and under the last row. -/
namespace NamespaceMigration

/-- A file, lines of it, and what is said about them. -/
structure Row where
  file : Text
  lines : Text
  details : Text
deriving DecidableEq

namespace Row

def headings : Row := ⟨"File", "Lines", "Details"⟩

def cells (r : Row) : List Text := [r.file, r.lines, r.details]

def lineRange (first last : Nat) : Text := Text.ofNat first ++ ':' :: Text.ofNat last

def ofReview (item : ReviewItem) : Row where
  file := item.path?.getD []
  lines := lineRange item.line item.line
  details := item.text ++ " may need " ++ item.suggestion

end Row

namespace Table

/-- The widths of the columns in characters. -/
def widths (rows : List Row) : List Nat :=
  rows.foldl (fun widths row => List.zipWith (fun w cell => max w cell.length) widths row.cells)
    (Row.headings.cells.map List.length)

def rule (widths : List Nat) : Text :=
  ' ' :: Text.join [' '] (widths.map fun w => List.replicate (w + 2) '=')

/-- A cell filled up to the width of its column, with a blank on both sides. -/
def padded (width : Nat) (cell : Text) : Text :=
  ' ' :: cell ++ List.replicate (width - cell.length) ' ' ++ [' ']

def line (widths : List Nat) (r : Row) : Text :=
  Text.trimEnd isBlank (' ' :: Text.join [' '] (List.zipWith padded widths r.cells))

def render (rows : List Row) : Text :=
  let widths := widths rows
  let rule := rule widths
  let lines := [rule, line widths Row.headings, rule] ++ rows.map (line widths) ++ [rule]
  Text.join ['\n'] lines ++ ['\n']

end Table

namespace Row

def ofDecision (file : FilePlan) (d : Decision) : Row where
  file := file.path
  lines := lineRange d.span.startLine d.span.endLine
  details := d.summary ++ " -> " ++ d.target

def ofError (file : FilePlan) (e : PlanError) : Row where
  file := file.path
  lines := (e.span?.map fun span => lineRange span.startLine span.endLine).getD []
  details := e.message

end Row

namespace ProjectPlan

variable (p : ProjectPlan)

def decisionRows (risky : Bool) : List Row :=
  (p.decisions.filter (·.2.risky == risky)).map fun (file, d) => .ofDecision file d

def errorRows : List Row := p.files.flatMap fun file => file.errors.map (.ofError file)

/-- A table under a title; nothing without rows. -/
def titled (title : Text) (rows : List Row) : Text :=
  if rows.isEmpty then [] else title ++ Table.render rows

def report : Text :=
  Table.render (p.decisionRows false) ++ "Risky conversions\n" ++ titled [] (p.decisionRows true) ++
    titled "Errors\n" p.errorRows

/-- From old to new names, for the declarations with a file of their own. Of several new names for
an old one the last counts. -/
def namesChanged : JsonValue :=
  let changes := (p.decisions.filter (·.2.exclusive)).flatMap (·.2.components)
  .object (changes.foldl (fun members c => JsonValue.insert c.old.text (.string c.new.text) members) [])

end ProjectPlan

end NamespaceMigration
