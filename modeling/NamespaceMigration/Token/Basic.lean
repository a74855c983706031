import NamespaceMigration.Text.Basic

/-! Tokens: pieces of a source text with a kind and a place. Only words that the statement grammar or the
search for references looks at have a kind of their own. -/
namespace NamespaceMigration

inductive TokenKind where
  | whitespace
  | lineComment
  | blockComment
  | docComment
  | openTag
  | inlineHtml
  | openTagEcho
  | closeTag
  | ident
  | nameQualified
  | nameFullyQualified
  | nameRelative
  | variable
  | string
  | heredoc
  | number
  | kwAbstract
  | kwAs
  | kwCase
  | kwCatch
  | kwClass
  | kwConst
  | kwDeclare
  | kwElse
  | kwElseif
  | kwEnddeclare
  | kwEndif
  | kwExit
  | kwExtends
  | kwFinal
  | kwFinally
  | kwFn
  | kwFunction
  | kwGoto
  | kwHaltCompiler
  | kwIf
  | kwImplements
  | kwInclude
  | kwInstanceof
  | kwInsteadof
  | kwInterface
  | kwNamespace
  | kwNew
  | kwReadonly
  | kwReturn
  | kwStatic
  | kwTrait
  | kwUse
  | magicConstant
  | keyword
  | leftParen
  | rightParen
  | leftBrace
  | rightBrace
  | leftBracket
  | rightBracket
  | attributeOpen
  | semicolon
  | comma
  | colon
  | colonColon
  | arrow
  | nullsafeArrow
  | fatArrow
  | equals
  | question
  | pipe
  | ampersand
  | ellipsis
  | backslash
  | dollar
  | operator
  | error
deriving DecidableEq

namespace TokenKind

/-- Blanks, comments and the opening tag: tokens without a meaning for the grammar. -/
def isTrivia : TokenKind → Bool
  | whitespace | lineComment | blockComment | docComment | openTag => true
  | _ => false

/-- An identifier or a qualified form of one. -/
def isName : TokenKind → Bool
  | ident | nameQualified | nameFullyQualified | nameRelative => true
  | _ => false

def isOpeningBracket : TokenKind → Bool
  | leftParen | leftBrace | leftBracket | attributeOpen => true
  | _ => false

def isClosingBracket : TokenKind → Bool
  | rightParen | rightBrace | rightBracket => true
  | _ => false

/-- The closing bracket that belongs to an opening one. An attribute ends like an array. -/
def closer? : TokenKind → Option TokenKind
  | leftParen => some rightParen
  | leftBrace => some rightBrace
  | leftBracket | attributeOpen => some rightBracket
  | _ => none

/-- After these kinds a word names a member, a function or a constant, whatever it is. -/
def makesNextIdent : TokenKind → Bool
  | arrow | nullsafeArrow | colonColon | kwFunction | kwConst => true
  | _ => false

end TokenKind

/-- A piece of a source text. The offset counts the bytes before it. -/
structure Token where
  kind : TokenKind
  text : Text
  offset : Nat
deriving DecidableEq

namespace Token

def stop (t : Token) : Nat := t.offset + Text.byteSize t.text

end Token

end NamespaceMigration
