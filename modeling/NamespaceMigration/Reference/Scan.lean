import NamespaceMigration.Reference.Basic
import NamespaceMigration.Statement.Source

/-! References in code. The language tells types, functions and constants apart by where a name
stands, so the neighbours of a name and the open brackets decide what it refers to: `new X`, `X::`,
`catch (X` and the type positions of parameters, properties and results are types, `x(` is a
function, and every other bare name is a constant. -/
namespace NamespaceMigration

/-- What an open bracket holds. -/
inductive BracketRole where
  | parameters
  | catches
  | group
  | braces
  /-- The rules after the names of used traits. -/
  | traitRules
  | square
  | attribute
deriving DecidableEq

/-- What the scan remembers between two tokens. -/
structure ScanState where
  /-- The open brackets, innermost first. -/
  stack : List BracketRole
  /-- Inside the names after `extends` or `implements`. -/
  heritage : Bool
  /-- Inside the names of used traits. -/
  traitUse : Bool
  /-- Inside a result type. -/
  resultType : Bool
  /-- At the end of a parameter list, before the colon of a result type. -/
  resultTypeNext : Bool
deriving DecidableEq

/-- The tokens of a range that are not trivia, each with its index in the file. Everything outside
reads as absent. -/
abbrev Window := Array (Nat × Token)

namespace Window

variable (w : Window)

def kind? (p : Nat) : Option TokenKind := w[p]?.map (·.2.kind)

/-- The kind of the token `n` before a position. -/
def back? (p n : Nat) : Option TokenKind := if p < n then none else kind? w (p - n)

def text (p : Nat) : Text := (w[p]?.map (·.2.text)).getD []

def isAt (p : Nat) (kind : TokenKind) : Bool := kind? w p == some kind

def isName (p : Nat) : Bool := (kind? w p).any TokenKind.isName

/-- A word that says who sees a member, or that it is never written again. -/
def isVisibility (p : Nat) : Bool :=
  match kind? w p with
  | some .kwReadonly => true
  | some .keyword =>
    (["public", "protected", "private", "var"] : List Text).contains (text w p).toLowerAscii
  | _ => false

/-- Where the type of a parameter or property may start. Punctuation starts one only in a parameter
list: elsewhere `(FLAG & $x)` is an expression. -/
def isTypeBoundary (inParameters : Bool) (p : Nat) : Bool :=
  match kind? w p with
  | some .leftParen | some .comma | some .rightBracket => inParameters
  | some .kwStatic => true
  | _ => isVisibility w p

/-- Whether a type may go on over the token before a position. -/
def typeReaches (inParameters : Bool) (p : Nat) : Bool :=
  match back? w p 1 with
  | some .pipe | some .ampersand | some .question | some .rightParen => true
  | some .leftParen =>
    2 ≤ p && (back? w p 2 == some .pipe || back? w p 2 == some .ampersand ||
      isTypeBoundary w inParameters (p - 2))
  | some kind => kind.isName
  | none => false

/-- The first position of the type around a position. -/
def typeStart (inParameters : Bool) : (p : Nat) → Nat
  | 0 => 0
  | p + 1 => if typeReaches w inParameters (p + 1) then typeStart inParameters p else p + 1

/-- The number of tokens before the variable or the dots that end a type, if nothing but names,
separators and closed groups comes before. -/
def typeLength? : (depth : Nat) → List TokenKind → Option Nat
  | _, [] => none
  | depth, kind :: kinds =>
    match kind with
    | .variable | .ellipsis => if depth = 0 then some 0 else none
    | .leftParen => (typeLength? (depth + 1) kinds).map (· + 1)
    | .rightParen => if depth = 0 then none else (typeLength? (depth - 1) kinds).map (· + 1)
    | .pipe | .ampersand | .question => (typeLength? depth kinds).map (· + 1)
    | kind => if kind.isName then (typeLength? depth kinds).map (· + 1) else none

def endsType (kind? : Option TokenKind) : Bool :=
  kind?.any fun kind => kind.isName || kind == .rightParen

/-- Whether a name stands in the type of a parameter or property: a run of names, separators and
groups that ends at a variable, perhaps by reference, or at the dots of a variadic one. -/
def inTypeRun (stack : List BracketRole) (p : Nat) : Bool :=
  let inParameters := stack.find? (· ≠ .group) == some .parameters
  let start := typeStart w inParameters p
  if start = 0 ∨ !isTypeBoundary w inParameters (start - 1) then false
  else match typeLength? 0 ((w.toList.drop start).map (·.2.kind)) with
    | none | some 0 => false
    | some length =>
      let stop := start + length
      endsType (back? w stop 1) ||
        (back? w stop 1 == some .ampersand && endsType (back? w stop 2))

/-- Whether the parenthesis at a position opens a parameter list: after `function`, `fn`, a function
name, or the `use` of a closure. -/
def opensParameters (p : Nat) : Bool :=
  match back? w p 1 with
  | some .kwFunction | some .kwFn | some .kwUse => true
  | some .ident =>
    back? w p 2 == some .kwFunction ||
      (back? w p 2 == some .ampersand && back? w p 3 == some .kwFunction)
  | some .ampersand => back? w p 2 == some .kwFunction || back? w p 2 == some .kwFn
  | _ => false

def parenRole (s : ScanState) (p : Nat) : BracketRole :=
  if s.resultType then .group
  else if opensParameters w p then .parameters
  else if back? w p 1 == some .kwCatch then .catches
  else .group

/-- The kinds before a name that declares something, names a member, or is no symbol. -/
def precedesNoReference : TokenKind → Bool
  | .arrow | .nullsafeArrow | .colonColon | .kwFunction | .kwConst | .kwClass | .kwInterface
  | .kwTrait | .kwGoto | .kwNamespace => true
  | _ => false

/-- The kinds before a name that is a type. -/
def precedesType : TokenKind → Bool
  | .kwNew | .kwInstanceof | .kwInsteadof | .kwExtends | .kwImplements | .attributeOpen => true
  | _ => false

/-- Whether the identifier at a position refers to nothing: it belongs to an enumeration, is
assigned to, names an argument, a label or a case, or is a word of the language. -/
def isPlainWord (s : ScanState) (p : Nat) : Bool :=
  let before := back? w p 1
  let after := kind? w (p + 1)
  let isEnum (q : Nat) := Text.eqIgnoreCase (text w q) "enum"
  (isEnum p && after == some .ident) ||
    (before == some .ident && isEnum (p - 1)) ||
    (after == some .equals && !s.resultType) ||
    (after == some .colon &&
      ([none, some .leftParen, some .comma, some .semicolon, some .leftBrace, some .rightBrace,
        some .error] : List (Option TokenKind)).contains before) ||
    (before == some .kwCase && (after == some .semicolon || after == some .equals)) ||
    Word.isBuiltin (text w p) || before == some .kwAs

/-- Whether a name is a type by its neighbours, the brackets or the words before it. -/
def isTypeName (s : ScanState) (p : Nat) : Bool :=
  let before := back? w p 1
  before.any precedesType || s.heritage || s.traitUse || s.resultType ||
    s.stack.head? == some .catches ||
    (before == some .comma && s.stack.head? == some .attribute) ||
    isAt w (p + 1) .colonColon || inTypeRun w s.stack p

/-- The kind of symbol that the name at a position refers to, if it refers to one. -/
def classify? (s : ScanState) (p : Nat) : Option SymbolKind :=
  let before := back? w p 1
  let after := kind? w (p + 1)
  let isIdent := isAt w p .ident
  let memberOfTrait := 0 < p && isVisibility w (p - 1)
  if before.any precedesNoReference then none
  else if before == some .ampersand && back? w p 2 == some .kwFunction then none
  else if isIdent && isPlainWord w s p then none
  else if s.stack.head? == some .traitRules then
    if after == some .kwAs || after == some .kwInsteadof || before == some .kwAs || memberOfTrait
    then none
    else some .type
  else if isTypeName w s p then some .type
  else if isIdent && memberOfTrait then none
  else if after == some .leftParen then some .function
  else some .constant

end Window

namespace ScanState

def initial : ScanState := ⟨[], false, false, false, false⟩

/-- A result type goes on over these kinds, besides names. -/
def continuesResultType : TokenKind → Bool
  | .pipe | .ampersand | .question | .leftParen | .rightParen | .kwStatic => true
  | _ => false

/-- The state after a token that is no name. -/
def next (s : ScanState) (w : Window) (inImport : Bool) (p : Nat) (kind : TokenKind) : ScanState :=
  let s := { s with resultType := s.resultType && continuesResultType kind }
  match kind with
  | .leftParen => { s with stack := w.parenRole s p :: s.stack }
  | .rightParen =>
    let closesParameters := s.stack.head? == some .parameters && w.isAt (p + 1) .colon
    { s with stack := s.stack.tail, resultTypeNext := s.resultTypeNext || closesParameters }
  | .colon => if s.resultTypeNext then { s with resultTypeNext := false, resultType := true } else s
  | .leftBrace =>
    let role := if s.traitUse then .traitRules else .braces
    { s with stack := role :: s.stack, heritage := false, traitUse := false }
  | .leftBracket => { s with stack := .square :: s.stack }
  | .attributeOpen => { s with stack := .attribute :: s.stack }
  | .rightBrace | .rightBracket => { s with stack := s.stack.tail }
  | .kwExtends | .kwImplements => { s with heritage := true }
  | .kwUse => if !inImport && w.isName (p + 1) then { s with traitUse := true } else s
  | .semicolon => { s with traitUse := false, heritage := false }
  | _ => s

end ScanState

namespace SourceFile

/-- The token spans of all `use` statements. -/
def importSpans (f : SourceFile) : List (Nat × Nat) :=
  f.outline.filterMap fun l =>
    l.statement.importItems?.map fun _ => (l.statement.first, l.statement.stop)

/-- The tokens from `first` up to `stop` that are not trivia. -/
def window (f : SourceFile) (first stop : Nat) : Window :=
  let indexed := f.tokens.toList.zipIdx.map fun (token, index) => (index, token)
  let inside := indexed.filter fun (index, token) =>
    first ≤ index && index < stop && !token.kind.isTrivia
  inside.toArray

/-- The references at the positions of a list, in order. -/
def referencesAt (w : Window) (inImport : Nat → Bool) (s : ScanState) :
    (positions : List Nat) → List Reference
  | [] => []
  | p :: positions =>
    match w[p]? with
    | none => []
    | some (index, token) =>
      if token.kind.isName then
        let rest := referencesAt w inImport s positions
        match if inImport index then none else w.classify? s p with
        | some kind => ⟨index, kind, token.text⟩ :: rest
        | none => rest
      else referencesAt w inImport (s.next w (inImport index) p token.kind) positions

/-- The references in the tokens from `first` up to `stop`. Imported names are none. -/
def references (f : SourceFile) (first stop : Nat) : List Reference :=
  let w := f.window first stop
  let spans := f.importSpans
  let inImport (index : Nat) := spans.any fun span => span.1 ≤ index && index < span.2
  referencesAt w inImport .initial (List.range w.size)

end SourceFile
end NamespaceMigration
