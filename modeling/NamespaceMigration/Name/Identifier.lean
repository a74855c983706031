import NamespaceMigration.Text.Case
import NamespaceMigration.Token.Lexer

/-! Identifiers and the segments of a namespace, and how a reserved word is made into a name. -/
namespace NamespaceMigration
namespace Identifier

/-- A word that the language reads as one identifier. -/
def isIdentifier : Text → Bool
  | [] => false
  | c :: t => Lexer.isNameStart c && t.all Lexer.isNameChar

/-- An identifier that may be a part of a namespace: one that is not reserved. -/
def isSegment (segment : Text) : Bool := isIdentifier segment && !Word.isReserved segment

/-- Every segment may be written as it is, and the first is not the one the language keeps. -/
def isNamespace (name : Text) : Bool :=
  let segments := name.splitOn '\\'
  segments.head? != some ("PHP" : Text) && segments.all isSegment

def withSuffix (word tail : Text) : Text := if Word.isReserved word then word ++ tail else word

def withLead (word lead : Text) : Text := if Word.isReserved word then lead ++ word else word

/-- Every reserved segment gets an underscore at its end. -/
def sanitizeNamespace (name : Text) : Text :=
  Text.join ['\\'] ((name.splitOn '\\').map (withSuffix · ['_']))

end Identifier
end NamespaceMigration
