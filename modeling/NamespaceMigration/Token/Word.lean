import NamespaceMigration.Text.Basic
import NamespaceMigration.Token.Basic

/-! The words of the PHP language, which are read without regard to the case of ASCII letters, and its
quoted literals. -/
namespace NamespaceMigration
namespace Word

/-- Words that no class and no part of a namespace may be called, soft-reserved type names
included. -/
def reservedWords : List Text := List.map String.toList [
  "__halt_compiler", "abstract", "and", "array", "as", "bool", "break", "callable", "case",
  "catch", "class", "clone", "const", "continue", "declare", "default", "die", "do", "echo",
  "else", "elseif", "empty", "enddeclare", "endfor", "endforeach", "endif", "endswitch",
  "endwhile", "eval", "exit", "extends", "false", "final", "finally", "float", "fn", "for",
  "foreach", "function", "global", "goto", "if", "implements", "include", "include_once",
  "instanceof", "insteadof", "int", "interface", "isset", "iterable", "list", "match", "mixed",
  "namespace", "never", "new", "null", "numeric", "object", "or", "print", "private",
  "protected", "public", "readonly", "require", "require_once", "resource", "return", "static",
  "string", "switch", "throw", "trait", "true", "try", "unset", "use", "var", "void", "while",
  "xor", "yield"]

/-- Words that look like names but never mean a symbol of a project. -/
def builtinNames : List Text := List.map String.toList [
  "array", "bool", "callable", "false", "float", "int", "iterable", "mixed", "never", "null",
  "object", "parent", "self", "static", "string", "true", "void"]

/-- Constants that the engine fills in where they stand. -/
def magicConstants : List Text := List.map String.toList [
  "__class__", "__dir__", "__file__", "__function__", "__line__", "__method__", "__namespace__",
  "__trait__", "__property__", "__compiler_halt_offset__"]

def isReserved (word : Text) : Bool := reservedWords.contains word.toLowerAscii

def isBuiltin (word : Text) : Bool := builtinNames.contains word.toLowerAscii

def isMagicConstant (word : Text) : Bool := magicConstants.contains word.toLowerAscii

/-- Keywords with a token kind of their own. -/
def ownKinds : List (Text × TokenKind) :=
  List.map (fun (word, kind) => (String.toList word, kind)) [
  ("abstract", .kwAbstract), ("as", .kwAs), ("case", .kwCase), ("catch", .kwCatch),
  ("class", .kwClass), ("const", .kwConst), ("declare", .kwDeclare), ("else", .kwElse),
  ("elseif", .kwElseif), ("enddeclare", .kwEnddeclare), ("endif", .kwEndif), ("exit", .kwExit),
  ("die", .kwExit), ("extends", .kwExtends), ("final", .kwFinal), ("finally", .kwFinally),
  ("fn", .kwFn), ("function", .kwFunction), ("goto", .kwGoto),
  ("__halt_compiler", .kwHaltCompiler), ("if", .kwIf), ("implements", .kwImplements),
  ("include", .kwInclude), ("include_once", .kwInclude), ("require", .kwInclude),
  ("require_once", .kwInclude), ("instanceof", .kwInstanceof), ("insteadof", .kwInsteadof),
  ("interface", .kwInterface), ("namespace", .kwNamespace), ("new", .kwNew),
  ("readonly", .kwReadonly), ("return", .kwReturn), ("static", .kwStatic), ("trait", .kwTrait),
  ("use", .kwUse)]

/-- Keywords that are told apart by their text alone. -/
def otherKeywords : List Text := List.map String.toList [
  "and", "array", "break", "callable", "clone", "continue", "default", "do", "echo", "empty",
  "endfor", "endforeach", "endswitch", "endwhile", "eval", "for", "foreach", "global", "isset",
  "list", "match", "or", "print", "private", "protected", "public", "switch", "throw", "try",
  "unset", "var", "while", "xor", "yield"]

/-- The kind of a word that is a keyword or a magic constant. -/
def keywordKind? (word : Text) : Option TokenKind :=
  let word := word.toLowerAscii
  if magicConstants.contains word then some .magicConstant
  else if otherKeywords.contains word then some .keyword
  else ownKinds.lookup word

end Word

/-- The value of a quoted literal. One with an escape, or with a variable inside double quotes, has
none. -/
def literalValue? : Text → Option Text
  | [] => none
  | quote :: t =>
    if quote ≠ '\x27' ∧ quote ≠ '\x22' then none
    else if t.getLast? ≠ some quote then none
    else
      let inner := t.dropLast
      if '\\' ∈ inner ∨ (quote = '\x22' ∧ '$' ∈ inner) then none else some inner

end NamespaceMigration
