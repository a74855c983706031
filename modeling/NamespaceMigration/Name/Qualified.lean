import NamespaceMigration.Symbol.Kind
import NamespaceMigration.Text.Case

/-! Qualified names and the keys by which two spellings are the same symbol. -/
namespace NamespaceMigration

/-- A fully qualified name, written without its leading backslash. -/
structure QualifiedName where
  text : Text
deriving DecidableEq

/-- The part of a name after its last backslash. -/
def lastSegment (name : Text) : Text :=
  match Text.splitAtLast? '\\' name with
  | some (_, short) => short
  | none => name

/-- Leading backslashes are no part of a name. -/
def dropBackslashes (name : Text) : Text := name.dropWhile (· == '\\')

namespace QualifiedName

def ofText (name : Text) : QualifiedName := ⟨dropBackslashes name⟩

/-- The name inside a namespace. The global namespace is absent or empty. -/
def join (space? : Option Text) (name : Text) : QualifiedName :=
  match space? with
  | none | some [] => ofText name
  | some space => ofText (Text.trim (· == '\\') space ++ '\\' :: dropBackslashes name)

/-- The namespace that holds the name; global names have none. -/
def space? (n : QualifiedName) : Option Text := (Text.splitAtLast? '\\' n.text).map (·.1)

def short (n : QualifiedName) : Text := lastSegment n.text

def segments (n : QualifiedName) : List Text := n.text.splitOn '\\'

/-- The name as it is written where no import can change its meaning. -/
def written (n : QualifiedName) : Text := '\\' :: n.text

end QualifiedName

/-- Two names of a kind mean the same symbol exactly if they have the same key. The case of a
constant's short name counts; all other case does not. -/
def lookupKey (kind : SymbolKind) (name : Text) : Text :=
  let name := dropBackslashes name
  if kind.isCaseSensitive then
    match Text.splitAtLast? '\\' name with
    | some (space, short) => Text.toLower space ++ '\\' :: short
    | none => name
  else Text.toLower name

/-- The key of a short name among the aliases and definitions of its kind. -/
def aliasKey (kind : SymbolKind) (short : Text) : Text :=
  if kind.isCaseSensitive then short else Text.toLower short

def QualifiedName.key (n : QualifiedName) (kind : SymbolKind) : Text := lookupKey kind n.text

/-- Namespaces are the same up to the case of ASCII letters. -/
def sameSpace : (a b : Option Text) → Bool
  | none, none => true
  | some a, some b => Text.eqIgnoreCase a b
  | _, _ => false

end NamespaceMigration
