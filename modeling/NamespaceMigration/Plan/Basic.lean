import NamespaceMigration.Statement.Basic
import NamespaceMigration.Text.Lines

/-! Plans: for every declaration of a source file its old and new names, the file it goes to, and
what to look out for. -/
namespace NamespaceMigration

inductive DeclarationKind where
  | classLike (kind : ClassKind)
  | function
  | constant
  /-- A condition with declarations in its branches. -/
  | conditional
deriving DecidableEq

namespace DeclarationKind

/-- The kind of the declared symbols. What a condition defines at run time are constants. -/
def symbolKind : DeclarationKind → SymbolKind
  | classLike _ => .type
  | function => .function
  | constant | conditional => .constant

def isType : DeclarationKind → Bool
  | classLike _ => true
  | _ => false

/-- The word for the kind in messages. -/
def word : DeclarationKind → Text
  | classLike kind => kind.word
  | function => "function"
  | constant => "const"
  | conditional => "conditional"

end DeclarationKind

/-- One declared name, before and after. -/
structure Component where
  kind : DeclarationKind
  old : QualifiedName
  new : QualifiedName
deriving DecidableEq

namespace Component

def symbolKind (c : Component) : SymbolKind := c.kind.symbolKind

/-- Whether the new name is another symbol. -/
def isRenamed (c : Component) : Bool := c.old.key c.symbolKind != c.new.key c.symbolKind

def describe (c : Component) : Text := c.kind.word ++ ' ' :: c.old.text

end Component

/-- The lines and bytes of a statement. Lines count from one. -/
structure SourceSpan where
  startLine : Nat
  endLine : Nat
  startOffset : Nat
  endOffset : Nat
deriving DecidableEq

namespace SourceSpan

/-- Where offsets that do not fit stand. -/
def lastOffset : Nat := Nat.pow 2 offsetBits - 1

end SourceSpan

/-- The tokens from `first` up to `stop`. -/
structure TokenSpan where
  first : Nat
  stop : Nat
deriving DecidableEq

/-- What happens to one declaration. -/
structure Decision where
  kind : DeclarationKind
  span : SourceSpan
  tokens : TokenSpan
  /-- The enclosing namespace statement. -/
  spaceTokens? : Option TokenSpan
  oldSpace? : Option Text
  newSpace? : Option Text
  components : List Component
  /-- The directives in effect at the declaration. -/
  directives : List Directive
  /-- The file it goes to, below the destination. -/
  target : Text
  /-- The target holds nothing else. -/
  exclusive : Bool
  risky : Bool
  /-- A rule says that it keeps its name. -/
  ignored : Bool
  summary : Text
deriving DecidableEq

namespace Decision

def summarize (kind : DeclarationKind) (components : List Component) : Text :=
  let describe (c : Component) :=
    if kind = .conditional then "conditional " ++ c.describe else c.describe
  Text.join ", " (components.map describe)

/-- The symbol of a declaration that has a file of its own. -/
def primary? (d : Decision) : Option Component := if d.exclusive then d.components.head? else none

def isRenamed (d : Decision) : Bool := d.components.any Component.isRenamed

def isConditional (d : Decision) : Bool := d.kind == .conditional

end Decision

inductive PlanErrorKind where
  | syntaxFault
  | invalidStatement
  | conflict
  | encoding
deriving DecidableEq

namespace PlanErrorKind

def name : PlanErrorKind → Text
  | syntaxFault => "syntax"
  | invalidStatement => "invalid-statement"
  | conflict => "conflict"
  | encoding => "encoding"

end PlanErrorKind

/-- Why a file, or a part of it, is not migrated. -/
structure PlanError where
  kind : PlanErrorKind
  message : Text
  span? : Option SourceSpan
deriving DecidableEq

namespace PlanError

/-- A statement that declares nothing and cannot be left out. -/
def unexpected (what : Text) (span : SourceSpan) : PlanError :=
  ⟨.invalidStatement,
    "Map error, unexpected " ++ what ++ " on line " ++ Text.ofNat span.startLine, some span⟩

def ofSyntax (problem : Text) (span : SourceSpan) : PlanError :=
  ⟨.syntaxFault, "Syntax error on line " ++ Text.ofNat span.startLine ++ ", " ++ problem, some span⟩

/-- Bytes that are no text. -/
def ofBytes (span : SourceSpan) : PlanError :=
  ⟨.encoding,
    "Encoding error on line " ++ Text.ofNat span.startLine ++ ", content is not valid UTF-8",
    some span⟩

/-- A declaration whose new name another one, in the file `owner`, has already. -/
def ofConflict (later earlier : Decision) (owner : Text) : PlanError :=
  ⟨.conflict,
    "Map error, conflict between " ++ later.summary ++ " and " ++ earlier.summary ++ " on file " ++
      owner,
    some later.span⟩

end PlanError

/-- The plan of one source file. -/
structure FilePlan where
  /-- The path below the source directory. -/
  path : Text
  /-- The digest of the content. -/
  hash : Text
  /-- Another file is included somewhere. -/
  includesFile : Bool
  decisions : List Decision
  errors : List PlanError
deriving DecidableEq

namespace FilePlan

def isRisky (p : FilePlan) : Bool := p.includesFile || p.decisions.any (·.risky)

def hasErrors (p : FilePlan) : Bool := !p.errors.isEmpty

end FilePlan
end NamespaceMigration
