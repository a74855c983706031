import NamespaceMigration.Name.Context
import NamespaceMigration.Statement.Source

/-! The names of a scope: what it imports and what it declares. -/
namespace NamespaceMigration

namespace Located

/-- Whether a statement is inside the one with a number. -/
def isInside (l : Located) (number : Nat) : Bool := l.above.any (·.number == number)

end Located

namespace StatementKind

/-- The short names that a statement declares. -/
def declaredNames : StatementKind → List (SymbolKind × Text)
  | .classLike _ name _ => [(.type, name)]
  | .function name _ => [(.function, name)]
  | .constants names => names.map fun entry => (.constant, entry.1)
  | _ => []

end StatementKind

namespace NameContext

/-- Adds an import. An alias that is bound already stays as it is. -/
def addImport (c : NameContext) (item : ImportItem) : NameContext :=
  (c.addAlias? (.ofText item.name) item.shortName item.kind).getD c

end NameContext

namespace Scope

/-- The statements of a scope that carry code. -/
def bodyStatements (s : Scope) : List Statement :=
  s.home.statement.children.filter fun statement =>
    match statement.kind with
    | .imports _ | .empty | .html true | .declare _ false | .space .. => false
    | _ => true

end Scope

namespace SourceFile

variable (f : SourceFile)

def scopeImports (s : Scope) : List ImportItem :=
  (f.scopeUses s).flatMap fun l => l.statement.importItems?.getD []

/-- The short names that are declared in a scope, in conditions and blocks too. -/
def scopeNames (s : Scope) : List (SymbolKind × Text) :=
  let inside := f.outline.filter fun l =>
    l.isInside s.home.number && s.containsToken l.statement.first
  inside.flatMap fun l => l.statement.kind.declaredNames

/-- What names mean in a scope. -/
def context (s : Scope) : NameContext :=
  let imported := (f.scopeImports s).foldl NameContext.addImport (.empty s.space?)
  (f.scopeNames s).foldl (fun c (kind, name) => c.addDefinition name kind) imported

/-- The comments of a scope that document something. -/
def docComments (s : Scope) : List Token :=
  let inside := (f.tokens.toList.take s.stop).drop s.first
  inside.filter (·.kind == .docComment)

end SourceFile
end NamespaceMigration
