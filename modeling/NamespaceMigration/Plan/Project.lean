import NamespaceMigration.Plan.Identity
import NamespaceMigration.Plan.Index

/-! The plan of one file. A file with syntax errors, or with statements that cannot be left out, is
not migrated at all. -/
namespace NamespaceMigration
namespace SourceFile

def planSyntaxError (f : SourceFile) (e : SyntaxError) : PlanError :=
  .ofSyntax e.render {
    startLine := f.lines.line e.range.start
    endLine := f.lines.line e.range.stop
    startOffset := keptOffset e.range.start
    endOffset := keptOffset e.range.stop }

end SourceFile

namespace FilePlan

/-- The plan of a text. -/
def ofText (c : PlanConfig) (path text : Text) : FilePlan :=
  let f := SourceFile.parse text
  let plan (decisions : List Decision) (errors : List PlanError) : FilePlan :=
    ⟨path, contentHash (Text.toUtf8 text), f.includesFile, decisions, errors⟩
  if !f.errors.isEmpty then plan [] (f.errors.map f.planSyntaxError)
  else match f.declarations with
    | .ok declarations => plan (declarations.map (f.decide c)) []
    | .error errors => plan [] errors

/-- Where the bytes of a file stop being text. Bytes can be too many for an offset. -/
def invalidSpan (valid : Text) (left : Bytes) : SourceSpan :=
  let line := valid.count '\n' + 1
  let offset := Text.byteSize valid
  let clamp := min SourceSpan.lastOffset
  ⟨line, line, clamp offset, clamp (offset + Text.invalidLength left)⟩

/-- The plan of a file's content. Bytes that are no text are not migrated. -/
def ofBytes (c : PlanConfig) (path : Text) (content : Bytes) : FilePlan :=
  match Text.ofUtf8 content with
  | (text, []) => ofText c path text
  | (valid, left) =>
    ⟨path, contentHash content, false, [], [.ofBytes (invalidSpan valid left)]⟩

end FilePlan

/-- The language level that files are parsed at. Every written plan names it. -/
def dialect : Text := "php8"

structure ProjectPlan where
  sourceRoot : Text
  /-- The directory for shared code, below the destination. -/
  includesDir : Text
  lead : Text
  /-- Ordered by their paths. -/
  files : List FilePlan
  /-- Made from the files, and not written with them. -/
  index : RenameIndex
deriving DecidableEq

namespace ProjectPlan

variable (p : ProjectPlan)

def reindex : ProjectPlan := { p with index := .ofFiles p.files }

/-- All decisions, each with the plan of its file. -/
def decisions : List (FilePlan × Decision) :=
  p.files.flatMap fun file => file.decisions.map fun decision => (file, decision)

def errorCount : Nat := (p.files.flatMap (·.errors)).length

def hasErrors : Bool := p.files.any FilePlan.hasErrors

def riskyFiles : List FilePlan := p.files.filter FilePlan.isRisky

def renamedCount : Nat := p.decisions.countP (·.2.isRenamed)

end ProjectPlan

end NamespaceMigration
