import NamespaceMigration.Name.Qualified

/-! The statements of a source file. Only what declares, imports or scopes names has a shape of its
own; expressions stay in the token sequence. -/
namespace NamespaceMigration

inductive ClassKind where
  | classDecl
  | interfaceDecl
  | traitDecl
  | enumDecl
deriving DecidableEq

namespace ClassKind

def word : ClassKind → Text
  | classDecl => "class"
  | interfaceDecl => "interface"
  | traitDecl => "trait"
  | enumDecl => "enum"

end ClassKind

/-- One imported name of a `use` statement. -/
structure ImportItem where
  kind : SymbolKind
  /-- The target without its leading backslash, the lead of its group included. -/
  name : Text
  alias? : Option Text
  /-- The token with the written name. -/
  nameToken : Nat
  /-- What stands before the braces, if the item comes from a group. -/
  groupLead? : Option Text
deriving DecidableEq

namespace ImportItem

def shortName (item : ImportItem) : Text := item.alias?.getD (lastSegment item.name)

end ImportItem

/-- One `key=value` of a `declare` statement. -/
structure Directive where
  key : Text
  value : Text
deriving DecidableEq

inductive StatementKind where
  | sourceFile
  | space (name? : Option Text) (nameToken? : Option Nat) (braced : Bool)
  | imports (items : List ImportItem)
  | declare (directives : List Directive) (block : Bool)
  | classLike (kind : ClassKind) (name : Text) (nameToken : Nat)
  | function (name : Text) (nameToken : Nat)
  | constants (names : List (Text × Nat))
  | conditional
  /-- A call of `define`. The name is known only if it is a plain literal. -/
  | define (name? : Option Text)
  | returns
  | exits
  | empty
  | html (blank : Bool)
  | other
deriving DecidableEq

/-- A statement, the tokens from `first` up to `stop` that it covers, the comment that documents it,
and the statements inside it. -/
structure Statement where
  kind : StatementKind
  first : Nat
  stop : Nat
  doc? : Option Nat
  children : List Statement

end NamespaceMigration
