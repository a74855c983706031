import NamespaceMigration.Text.Basic
import NamespaceMigration.Token.Basic
import NamespaceMigration.Token.Word

/-! The lexer. Each scanner says how many characters the token at the start of a text has, and the
lexer takes that many and goes on with the rest, so no character is lost. -/
namespace NamespaceMigration
namespace Lexer

def isDigit (c : Char) : Bool := c.isDigit

def isSpace (c : Char) : Bool := c == ' ' || c == '\t' || c == '\r' || c == '\n'

/-- A character that an identifier may start with. Every character above ASCII may. -/
def isNameStart (c : Char) : Bool := c.isAlpha || c == '_' || 0x80 ≤ c.toNat

def isNameChar (c : Char) : Bool := isNameStart c || c.isDigit

def runLength (p : Char → Bool) (t : Text) : Nat := (t.takeWhile p).length

/-- The length of the name at the start of a text. A backslash belongs to the name only if a new
segment follows it. -/
def nameLength : Text → Nat
  | [] => 0
  | c :: t =>
    if isNameChar c then 1 + nameLength t
    else if c = '\\' ∧ t.head?.any isNameStart then 1 + nameLength t
    else 0

/-- The kind of a name. A single word may be a keyword, unless what stands before it makes it a
member, a function or a constant. -/
def nameKind (last : Option TokenKind) (name : Text) : TokenKind :=
  if '\\' ∈ name then
    if Text.eqIgnoreCase (name.takeWhile (· ≠ '\\')) "namespace" then .nameRelative
    else .nameQualified
  else if last.any TokenKind.makesNextIdent then .ident
  else (Word.keywordKind? name).getD .ident

def isDigitOrBar (c : Char) : Bool := c.isDigit || c == '_'

def isHexOrBar (c : Char) : Bool :=
  c.isDigit || ('a' ≤ c && c ≤ 'f') || ('A' ≤ c && c ≤ 'F') || c == '_'

def isBitOrBar (c : Char) : Bool := c == '0' || c == '1' || c == '_'

/-- The length of an exponent with at least one digit, or zero. -/
def exponentLength : Text → Nat
  | e :: t =>
    if e = 'e' ∨ e = 'E' then
      let sign := if t.head?.any (fun c => c == '+' || c == '-') then 1 else 0
      match runLength isDigitOrBar (t.drop sign) with
      | 0 => 0
      | digits => 1 + sign + digits
    else 0
  | [] => 0

/-- The length of a decimal number, with its fraction and exponent. -/
def decimalLength (t : Text) : Nat :=
  let whole := runLength isDigitOrBar t
  match t.drop whole with
  | '.' :: u =>
    let fraction := runLength isDigitOrBar u
    whole + 1 + fraction + exponentLength (u.drop fraction)
  | u => whole + exponentLength u

/-- The length of the number at the start of a text that starts with a digit. -/
def numberLength : Text → Nat
  | '0' :: c :: t =>
    if (c = 'x' ∨ c = 'X') ∧ t.head?.any isHexOrBar then 2 + runLength isHexOrBar t
    else if (c = 'b' ∨ c = 'B') ∧ t.head?.any isBitOrBar then 2 + runLength isBitOrBar t
    else decimalLength ('0' :: c :: t)
  | t => decimalLength t

/-- The length of a quoted string after its opening quote, the closing quote included. A backslash
protects the next character. -/
def quotedLength? (quote : Char) : Text → Option Nat
  | [] => none
  | c :: t =>
    if c = quote then some 1
    else if c = '\\' then
      match t with
      | [] => none
      | _ :: u => (quotedLength? quote u).map (· + 2)
    else (quotedLength? quote t).map (· + 1)

/-- The length of a string that is never closed. A backslash with nothing to protect stays
outside. -/
def unclosedLength : Text → Nat
  | [] => 0
  | c :: t =>
    if c = '\\' then
      match t with
      | [] => 0
      | _ :: u => 2 + unclosedLength u
    else 1 + unclosedLength t

/-- The end of a heredoc at the start of a line: the label, perhaps indented, and after it no
character that could continue it. -/
def heredocEnd? (label t : Text) : Option Nat :=
  let indent := runLength (fun c => c == ' ' || c == '\t') t
  match Text.dropLead? label (t.drop indent) with
  | some after => if after.head?.any isNameChar then none else some (indent + label.length)
  | none => none

/-- The length of a heredoc from a place in its body. One that is never closed takes the rest. -/
def heredocBodyLength (label : Text) : (lineStart : Bool) → Text → Nat
  | _, [] => 0
  | lineStart, c :: t =>
    match if lineStart then heredocEnd? label (c :: t) else none with
    | some length => length
    | none => 1 + heredocBodyLength label (c == '\n') t

/-- The length of a heredoc after its three angle brackets. There is none without a label or
without a line feed after the label. The character after a quoted label is taken for its closing
quote. -/
def heredocLength? (t : Text) : Option Nat :=
  let indent := runLength (fun c => c == ' ' || c == '\t') t
  let header := t.drop indent
  let quote := if header.head?.any (fun c => c == '\x27' || c == '\x22') then 1 else 0
  let label := (header.drop quote).takeWhile isNameChar
  let head := indent + quote + label.length + quote
  let body := t.drop head
  if label.isEmpty ∨ '\n' ∉ body then none
  else some (head + heredocBodyLength label false body)

/-- A line comment ends before a line break or a closing tag. -/
def lineCommentLength : Text → Nat
  | [] => 0
  | c :: t =>
    if c = '\n' ∨ c = '\r' ∨ (c = '?' ∧ t.head? = some '>') then 0
    else 1 + lineCommentLength t

/-- The length of a block comment after its opening. One that is never closed takes the rest. -/
def blockCommentLength (t : Text) : Nat :=
  match Text.splitFirst? "*/" t with
  | some (before, _) => before.length + 2
  | none => t.length

/-- A comment with two stars and a blank at its start documents what follows it. -/
def isDocComment (comment : Text) : Bool :=
  4 < Text.byteSize comment && Text.startsWith comment "/**" &&
    (comment.drop 3).head?.any isBlank

/-- The fixed symbols, longer ones first. -/
def symbols : List (Text × TokenKind) :=
  List.map (fun (symbol, kind) => (String.toList symbol, kind)) [
  ("<<<", .heredoc), ("===", .operator), ("!==", .operator), ("<=>", .operator),
  ("??=", .operator), ("**=", .operator), ("<<=", .operator), (">>=", .operator),
  ("//", .lineComment), ("/*", .blockComment), ("#[", .attributeOpen), ("::", .colonColon),
  ("->", .arrow), ("=>", .fatArrow), ("==", .operator), ("!=", .operator), ("<>", .operator),
  ("<=", .operator), (">=", .operator), ("**", .operator), ("<<", .operator), (">>", .operator),
  ("&&", .operator), ("||", .operator), ("??", .operator), ("+=", .operator), ("-=", .operator),
  ("*=", .operator), ("/=", .operator), ("%=", .operator), ("&=", .operator), ("|=", .operator),
  ("^=", .operator), ("++", .operator), ("--", .operator), ("#", .lineComment),
  ("(", .leftParen), (")", .rightParen), ("\x7b", .leftBrace), ("\x7d", .rightBrace),
  ("[", .leftBracket), ("]", .rightBracket), (";", .semicolon), (",", .comma), (":", .colon),
  ("=", .equals), ("?", .question), ("|", .pipe), ("&", .ampersand), (".", .operator),
  ("\\", .backslash), ("$", .dollar), ("<", .operator), (">", .operator), ("+", .operator),
  ("-", .operator), ("*", .operator), ("/", .operator), ("%", .operator), ("!", .operator),
  ("~", .operator), ("^", .operator), ("@", .operator)]

/-- What a question mark starts. A closing tag takes one line break with it. -/
def afterQuestion : Text → TokenKind × Nat
  | '-' :: '>' :: _ => (.nullsafeArrow, 3)
  | '>' :: '\r' :: '\n' :: _ => (.closeTag, 4)
  | '>' :: '\n' :: _ => (.closeTag, 3)
  | '>' :: _ => (.closeTag, 2)
  | _ => (.question, 1)

/-- What a dot starts. -/
def afterDot : Text → TokenKind × Nat
  | '.' :: '.' :: _ => (.ellipsis, 3)
  | '=' :: _ => (.operator, 2)
  | c :: t =>
    if c.isDigit then
      let digits := 1 + runLength isDigitOrBar t
      (.number, 1 + digits + exponentLength ((c :: t).drop digits))
    else (.operator, 1)
  | [] => (.operator, 1)

/-- The token that goes on after a symbol. -/
def afterSymbol (symbol : Text) (kind : TokenKind) (t : Text) : TokenKind × Nat :=
  match kind with
  | .heredoc =>
    match heredocLength? t with
    | some length => (.heredoc, symbol.length + length)
    | none => (.error, symbol.length)
  | .lineComment => (.lineComment, symbol.length + lineCommentLength t)
  | .blockComment =>
    let length := symbol.length + blockCommentLength t
    (if isDocComment ((symbol ++ t).take length) then .docComment else .blockComment, length)
  | .question => afterQuestion t
  | .backslash =>
    if t.head?.any isNameStart then (.nameFullyQualified, 1 + nameLength t) else (.backslash, 1)
  | .dollar =>
    if t.head?.any isNameStart then (.variable, 1 + runLength isNameChar t) else (.dollar, 1)
  | kind => if symbol = "." then afterDot t else (kind, symbol.length)

/-- The kind and length of the token at the start of PHP code. `last` is the kind of the last token
that is not trivia. -/
def scanCode (last : Option TokenKind) : Text → TokenKind × Nat
  | [] => (.error, 0)
  | c :: t =>
    if isSpace c then (.whitespace, 1 + runLength isSpace t)
    else if isNameStart c then
      let length := nameLength (c :: t)
      (nameKind last ((c :: t).take length), length)
    else if c.isDigit then (.number, numberLength (c :: t))
    else if c = '\x27' ∨ c = '\x22' ∨ c = '\x60' then
      match quotedLength? c t with
      | some length => (.string, 1 + length)
      | none => (.error, 1 + unclosedLength t)
    else
      match symbols.find? fun (symbol, _) => Text.startsWith (c :: t) symbol with
      | some (symbol, kind) => afterSymbol symbol kind ((c :: t).drop symbol.length)
      | none => (.error, 1)

/-- The length of the opening tag at the start of a text. A tag other than the echo tag takes one
blank with it; only the long tag may end the text without one. -/
def openTagLength? (t : Text) : Option Nat :=
  if Text.startsWith t "<?=" then some 3
  else if !Text.startsWith t "<?" then none
  else
    let long := Text.eqIgnoreCase (t.take 5) "<?php"
    let tag := if long then 5 else 2
    match t.drop tag with
    | '\r' :: '\n' :: _ => some (tag + 2)
    | c :: _ => if isSpace c then some (tag + 1) else none
    | [] => if long then some tag else none

/-- The length of the text before the first opening tag. -/
def htmlLength : Text → Nat
  | [] => 0
  | c :: t => if (openTagLength? (c :: t)).isSome then 0 else 1 + htmlLength t

/-- The kind and length of the token at the start of text outside PHP code. -/
def scanHtml (t : Text) : TokenKind × Nat :=
  match openTagLength? t with
  | some length => (if Text.startsWith t "<?=" then .openTagEcho else .openTag, length)
  | none => (.inlineHtml, htmlLength t)

/-- What the lexer reads: text outside PHP code, code, or the data after a halted compiler. -/
inductive Mode where
  | html
  | code
  | data
deriving DecidableEq

/-- What the lexer remembers between two tokens. -/
structure State where
  mode : Mode
  /-- The kind of the last token that is not trivia. -/
  last : Option TokenKind
  /-- The word that halts the compiler has been read. -/
  halting : Bool
deriving DecidableEq

namespace State

def initial : State := ⟨.html, none, false⟩

def scan (s : State) (t : Text) : TokenKind × Nat :=
  match s.mode with
  | .html => scanHtml t
  | .code => scanCode s.last t
  | .data => (.inlineHtml, t.length)

def nextMode (s : State) (kind : TokenKind) : Mode :=
  match s.mode, kind with
  | .html, .openTag | .html, .openTagEcho => .code
  | .code, .closeTag => if s.halting then .data else .html
  | .code, .semicolon => if s.halting then .data else .code
  | mode, _ => mode

def next (s : State) (kind : TokenKind) : State where
  mode := s.nextMode kind
  last := if kind.isTrivia then s.last else some kind
  halting := s.halting || kind == .kwHaltCompiler

end State

/-- The tokens of a text that begins at `offset`, at most `fuel` of them. -/
def tokensFrom : (fuel : Nat) → State → (offset : Nat) → Text → List Token
  | 0, _, _, _ => []
  | _ + 1, _, _, [] => []
  | fuel + 1, s, offset, c :: t =>
    let (kind, length) := s.scan (c :: t)
    let token : Token := ⟨kind, (c :: t).take length, offset⟩
    token :: tokensFrom fuel (s.next kind) token.stop ((c :: t).drop length)

/-- The tokens of a source text. Each has at least one character, so there are no more of them
than characters. -/
def tokenize (t : Text) : List Token := tokensFrom t.length .initial 0 t

end Lexer
end NamespaceMigration
