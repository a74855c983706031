import NamespaceMigration.Text.Range

/-! Syntax errors. They are collected beside the statements, so that a broken file still gives every
statement that could be recognized. -/
namespace NamespaceMigration

inductive SyntaxFault where
  | invalidCharacter
  /-- An open bracket, with its text if nothing after it could have closed it. -/
  | unclosedBracket (neverClosed : Option Text)
  | unexpectedCloser
  | missingTerminator
  | missingBody
  | malformedUse
  | malformedDeclare
  | malformedNamespace
  | unexpectedToken
deriving DecidableEq

structure SyntaxError where
  fault : SyntaxFault
  range : TextRange
deriving DecidableEq

namespace SyntaxFault

/-- The code names the family of the fault by its first digits. -/
def code : SyntaxFault → Text
  | invalidCharacter => "E0101"
  | unclosedBracket _ => "E0201"
  | unexpectedCloser => "E0202"
  | missingTerminator => "E0203"
  | missingBody => "E0301"
  | malformedUse => "E0501"
  | malformedDeclare => "E0502"
  | malformedNamespace => "E0503"
  | unexpectedToken => "E0901"

def message : SyntaxFault → Text
  | invalidCharacter => "unexpected character"
  | unclosedBracket _ => "unclosed bracket"
  | unexpectedCloser => "unexpected closing bracket"
  | missingTerminator => "expected ';'"
  | missingBody => "declaration is missing its body"
  | malformedUse => "malformed use statement"
  | malformedDeclare => "malformed declare statement"
  | malformedNamespace => "malformed namespace statement"
  | unexpectedToken => "unexpected token"

def hint? : SyntaxFault → Option Text
  | unclosedBracket (some bracket) => some ("'" ++ bracket ++ "' is never closed")
  | _ => none

end SyntaxFault

namespace SyntaxError

/-- The code and the message, with the hint on a line of its own. -/
def render (e : SyntaxError) : Text :=
  e.fault.code ++ ": " ++ e.fault.message ++
    match e.fault.hint? with
    | some hint => "\n  hint: " ++ hint
    | none => []

end SyntaxError
end NamespaceMigration
