import NamespaceMigration.Digest.Sha256
import NamespaceMigration.Plan.Config
import NamespaceMigration.Plan.Declaration
import NamespaceMigration.Text.Utf8

/-! New names and targets. A type gets a namespace for its file's directory and a file of its own;
functions, constants and conditions keep their short names and share one file with all code of the
same namespace and directives. -/
namespace NamespaceMigration

def sourceExtension : Text := "php"

def bucketDigits : Nat := 7

namespace Directive

/-- By key, then by value. -/
def le (a b : Directive) : Bool := if a.key = b.key then Text.le a.value b.value else Text.le a.key b.key

end Directive

namespace PlanConfig

variable (c : PlanConfig)

/-- What is left of a namespace without the lead, which has to be whole segments of it. Nothing is
left of the lead itself. -/
def withoutLead (space : Text) : Option Text :=
  if c.lead.isEmpty then some space
  else match Text.dropLead? c.lead space with
    | some [] => none
    | some ('\\' :: rest) => some rest
    | _ => some space

/-- The new namespace for an old one: the lead, and what is not the lead already. -/
def newSpace? (old? : Option Text) : Option Text := do
  let old ← old?
  let rest := (if c.append then some old else c.withoutLead old).getD []
  let joined :=
    if rest.isEmpty then QualifiedName.ofText c.lead else QualifiedName.join (some c.lead) rest
  if joined.text.isEmpty then none else some (Identifier.sanitizeNamespace joined.text)

/-- Whether underscores separate namespaces in the types of a namespace. -/
def splitsUnderscores (space? : Option Text) : Bool :=
  c.underscore && (space?.isNone || !c.globalUnderscore)

/-- The segments and the last part of a short name with underscores. An underscore at the end
separates nothing. -/
def splitShort? (short : Text) : Option (List Text × Text) :=
  match Text.splitAtLast? '_' short with
  | some (head, tail) =>
    if tail.isEmpty then none else some ((head.splitOn '_').filter (!·.isEmpty), tail)
  | none => none

/-- The new name of a type. A short name that would be reserved is put after the last segment of
its namespace. -/
def newTypeName (old : QualifiedName) : QualifiedName :=
  let base := (c.newSpace? old.space?).getD c.lead
  let split? := if c.splitsUnderscores old.space? then splitShort? old.short else none
  let (segments, last) := split?.getD ([], old.short)
  let space :=
    if segments.isEmpty then base
    else
      let inner := Identifier.sanitizeNamespace (Text.join ['\\'] (segments.map Text.capitalize))
      (QualifiedName.join (some base) inner).text
  let lead := lastSegment space
  let short :=
    if lead.isEmpty then Identifier.withSuffix (Text.capitalize last) ['_']
    else Identifier.withLead (Text.capitalize last) lead
  .join (some space) short

/-- The new name of a declared symbol. -/
def newName (kind : DeclarationKind) (old : QualifiedName) (conditional : Bool) :
    QualifiedName :=
  if kind.isType ∧ !conditional then c.newTypeName old
  else .join (c.newSpace? old.space?) old.short

/-- The file of a type: its segments are directories. -/
def typeTarget (name : QualifiedName) : Text :=
  Text.join ['/'] name.segments ++ '.' :: sourceExtension

/-- What the digest of a shared file is taken of. -/
def bucketInput (space? : Option Text) (directives : List Directive) (conditional : Bool) : Text :=
  let sorted := directives.mergeSort Directive.le
  let pairs := sorted.map fun d => d.key ++ '=' :: d.value
  let form : Text := if conditional then "conditional" else "plain"
  space?.getD [] ++ '\n' :: Text.join [','] pairs ++ '\n' :: form

/-- The shared file for a namespace, a set of directives and a form of code. -/
def bucketTarget (space? : Option Text) (directives : List Directive) (conditional : Bool) : Text :=
  let digest := contentHash (Text.toUtf8 (bucketInput space? directives conditional))
  c.includesPath ++ "/include." ++ digest.take bucketDigits ++ '.' :: sourceExtension

/-- Underscores split the name of a type that is in a namespace already. -/
def splitsNamespacedType (d : Declaration) : Bool :=
  d.kind.isType && d.place.space?.isSome && c.splitsUnderscores d.place.space? &&
    d.names.any fun entry => '_' ∈ entry.2.short

/-- The components of a declaration: its names, and the constants it defines at run time. -/
def components (d : Declaration) : List Component :=
  let ignored := c.ignores d.place.space?
  let named := d.names.map fun (kind, old) =>
    ⟨kind, old, if ignored then old else c.newName kind old (d.kind == .conditional)⟩
  named ++ d.runtimeNames.map fun name => ⟨.constant, name, name⟩

end PlanConfig

namespace Located

/-- The tokens of the enclosing namespace statement. -/
def spaceTokens? (l : Located) : Option TokenSpan :=
  l.above.findSome? fun level =>
    match level.statement.kind with
    | .space .. => some ⟨level.statement.first, level.statement.stop⟩
    | _ => none

end Located

namespace SourceFile

/-- What happens to a declaration. -/
def decide (f : SourceFile) (c : PlanConfig) (d : Declaration) : Decision :=
  let space? := d.place.space?
  let ignored := c.ignores space?
  let conditional := d.kind == .conditional
  let components := c.components d
  let first? := components.head?.map (·.new)
  let newSpace? :=
    if ignored then space?
    else if d.kind.isType then first?.bind QualifiedName.space?
    else c.newSpace? space?
  let directives := d.place.directives
  { kind := d.kind
    span := f.sourceSpan d.place.statement
    tokens := ⟨d.place.statement.first, d.place.statement.stop⟩
    spaceTokens? := d.place.spaceTokens?
    oldSpace? := space?
    newSpace?
    components
    directives
    target :=
      if d.kind.isType then PlanConfig.typeTarget (first?.getD ⟨[]⟩)
      else c.bucketTarget newSpace? directives conditional
    exclusive := d.kind.isType
    risky := conditional || (!ignored && c.splitsNamespacedType d)
    ignored
    summary := Decision.summarize d.kind components }

end SourceFile
end NamespaceMigration
