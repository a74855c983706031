import NamespaceMigration.Symbol.Kind
import NamespaceMigration.Text.Range

/-! References: the places where a source file uses a name. -/
namespace NamespaceMigration

/-- A name token that refers to a symbol. -/
structure Reference where
  token : Nat
  kind : SymbolKind
  /-- The name as written. -/
  text : Text
deriving DecidableEq

/-- A class name inside a comment, with its bytes counted from the start of the comment. -/
structure DocReference where
  range : TextRange
  name : Text
deriving DecidableEq

end NamespaceMigration
