import NamespaceMigration.Adaptation.Qualified
import NamespaceMigration.Plan.Index

/-! The second step: names of migrated symbols become their new names. Names that no plan knows stay.
Literals that spell the name of a renamed class cannot be changed safely and are reported. -/
namespace NamespaceMigration

/-- A literal that may be the name of a renamed class. -/
structure ReviewItem where
  path? : Option Text
  line : Nat
  text : Text
  /-- The new name. -/
  suggestion : Text
deriving DecidableEq

/-- The edits of a file, how many names they change, and what to look at. -/
structure Renaming where
  edits : List TextEdit
  count : Nat
  review : List ReviewItem

namespace RenameIndex

variable (x : RenameIndex)

/-- The new name for a name in full, if that is another one. -/
def newName? (written : Text) (kind : SymbolKind) : Option QualifiedName := do
  let e ← x.find? kind written
  if e.changes ∧ e.new.text ≠ dropBackslashes written then some e.new else none

/-- The new name for a name with one meaning or two. Only a name that is not in full, and that
may be global, is looked up: the namespaced symbol first, then the global one. -/
def fallbackName? (meaning : Resolution) (kind : SymbolKind) : Option QualifiedName := do
  match meaning with
  | .resolved _ => none
  | .fallback namespaced global =>
    let e ← (x.find? kind namespaced.text).or (x.find? kind global.text)
    if e.changes then some e.new else none

end RenameIndex

/-- Two backslashes in a literal stand for one. -/
def foldBackslashes : Text → Text
  | '\\' :: '\\' :: t => '\\' :: foldBackslashes t
  | c :: t => c :: foldBackslashes t
  | [] => []

/-- A segment of a class name in ASCII. -/
def isPlainSegment (segment : Text) : Bool :=
  segment.head?.any (fun c => c.isAlpha || c == '_') &&
    segment.all fun c => c.isAlphanum || c == '_'

/-- The class name that a quoted literal spells. -/
def literalClass? (literal : Text) : Option Text :=
  match literal with
  | [] => none
  | quote :: rest =>
    if (quote = '\x27' ∨ quote = '\x22') ∧ 3 ≤ Text.byteSize literal ∧ rest.getLast? = some quote then
      let name := dropBackslashes (foldBackslashes rest.dropLast)
      if (name.splitOn '\\').all isPlainSegment then some name else none
    else none

namespace SourceFile

variable (f : SourceFile) (x : RenameIndex)

/-- The literals that spell the old name of a class. -/
def reviewLiterals : List ReviewItem :=
  let lines := f.lines
  (f.tokens.toList.filter (·.kind == .string)).filterMap fun token => do
    let name ← literalClass? token.text
    let e ← x.find? .type name
    if e.changes then
      some ⟨none, lines.line token.offset, token.text, e.new.written⟩
    else none

/-- The edit of an imported name. The alias stays what it was. Names in groups are left alone. -/
def renameImport? (item : ImportItem) : Option TextEdit := do
  if item.groupLead?.isSome then none
  else
    let new ← x.newName? item.name item.kind
    let short := lastSegment item.name
    let tail : Text := if item.alias? = none ∧ new.short ≠ short then " as " ++ short else []
    some ⟨f.tokenRange item.nameToken, new.text ++ tail⟩

def renameReference? (c : NameContext) (r : Reference) : Option TextEdit :=
  let new? :=
    if isWrittenInFull r.text then x.newName? r.text r.kind
    else x.fallbackName? (c.resolve r.text r.kind) r.kind
  new?.map fun new => ⟨f.tokenRange r.token, new.written⟩

/-- The new name for a name in a comment. -/
def renameDocName? (name : Text) : Option Text :=
  if isWrittenInFull name then (x.newName? name .type).map (·.written) else none

/-- The edits that rename in a scope, and how many names they change. -/
def renameScope (s : Scope) : List TextEdit × Nat :=
  let c := f.context s
  let inCode := (f.references s.first s.stop).filterMap (f.renameReference? x c)
  let inImports := (f.scopeImports s).filterMap (f.renameImport? x)
  let comments := (f.docComments s).map fun comment =>
    (comment, comment.docEdits (renameDocName? x))
  (inCode ++ inImports ++ comments.filterMap fun (comment, inner) => comment.docEdit? inner,
    inCode.length + inImports.length + (comments.flatMap (·.2)).length)

def renames : Renaming :=
  let scopes := f.scopes.map (f.renameScope x)
  ⟨scopes.flatMap (·.1), scopes.foldl (fun count scope => count + scope.2) 0, f.reviewLiterals x⟩

end SourceFile

end NamespaceMigration
