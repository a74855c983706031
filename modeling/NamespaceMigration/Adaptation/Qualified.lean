import NamespaceMigration.Name.Scope
import NamespaceMigration.Reference.Doc
import NamespaceMigration.Reference.Scan
import NamespaceMigration.Text.Range

/-! The first step of moving code: every name whose meaning is known is written in full. Unqualified
functions and constants that may be of the namespace or global stay as they are. -/
namespace NamespaceMigration

def isWrittenInFull (written : Text) : Bool := written.head? == some '\\'

namespace Token

/-- The edits inside a comment, given what comes in the place of the names in it. -/
def docEdits (comment : Token) (rename : Text → Option Text) : List TextEdit :=
  (DocComment.references comment.text).filterMap fun r => (rename r.name).map fun t => ⟨r.range, t⟩

/-- The edit that puts edits inside a comment into effect, if there are any. -/
def docEdit? (comment : Token) (inner : List TextEdit) : Option TextEdit :=
  if inner.isEmpty then none
  else some ⟨⟨comment.offset, comment.stop⟩, TextEdit.applyAll inner comment.text⟩

end Token

namespace NameContext

/-- A name in full, if it is not written so and has one meaning. -/
def qualify? (c : NameContext) (written : Text) (kind : SymbolKind) : Option Text :=
  if isWrittenInFull written then none else (c.resolve written kind).name?.map (·.written)

end NameContext

namespace SourceFile

variable (f : SourceFile)

/-- The edits that qualify the names of a scope, in code and in comments. -/
def qualifyScope (s : Scope) : List TextEdit :=
  let c := f.context s
  let inCode := (f.references s.first s.stop).filterMap fun r =>
    (c.qualify? r.text r.kind).map fun t => ⟨f.tokenRange r.token, t⟩
  let inComments := (f.docComments s).filterMap fun comment =>
    comment.docEdit? (comment.docEdits (c.qualify? · .type))
  inCode ++ inComments

def qualifyEdits : List TextEdit := f.scopes.flatMap f.qualifyScope

end SourceFile
end NamespaceMigration
