import NamespaceMigration.Statement.Basic
import NamespaceMigration.Statement.Error
import NamespaceMigration.Text.Basic
import NamespaceMigration.Token.Code
import NamespaceMigration.Token.Word

/-! The statement parser. It never fails: a statement of no known shape is taken up to its
terminator, brackets and all, and problems are collected beside the statements. Every statement
takes at least one token, so the number of tokens bounds both the loops and the nesting. -/
namespace NamespaceMigration
namespace Parser

/-- What was read, the position after it, and the problems on the way. -/
structure Parsed (α : Type) where
  value : α
  next : Nat
  errors : List SyntaxError

def errorAt (c : Code) (fault : SyntaxFault) (p : Nat) : SyntaxError := ⟨fault, c.range p⟩

/-- Reads items until `stop` holds at a position, at most `fuel` of them. -/
def manyUntil {α : Type} (item : Nat → Parsed α) (stop : Nat → Bool) :
    (fuel p : Nat) → Parsed (List α)
  | 0, p => ⟨[], p, []⟩
  | fuel + 1, p =>
    if stop p then ⟨[], p, []⟩
    else
      let head := item p
      let tail := manyUntil item stop fuel head.next
      ⟨head.value :: tail.value, tail.next, head.errors ++ tail.errors⟩

/-- Follows steps from one position to the next until there is none, at most `fuel` of them. -/
def follow (step : Nat → Option Nat) : (fuel p : Nat) → Nat
  | 0, p => p
  | fuel + 1, p =>
    match step p with
    | some next => follow step fuel next
    | none => p

def isTerminator (c : Code) (p : Nat) : Bool := c.isAtAny [.semicolon, .closeTag] p

/-- The position after a terminator. Where one is missing before the end of the code, that is a
problem. -/
def terminator (c : Code) (p : Nat) : Parsed Unit :=
  if isTerminator c p then ⟨(), p + 1, []⟩
  else ⟨(), p, if c.atEnd p then [] else [errorAt c .missingTerminator p]⟩

/-- Control structures end at their closing brace; `do` goes on to its condition. -/
def endsAtBrace (c : Code) (p : Nat) : Bool :=
  c.isAt .leftBrace p || (c.isAt .keyword p &&
    (["for", "foreach", "while", "switch", "try"] : List Text).contains (c.text p).toLowerAscii)

/-- The position after a statement without a shape, seen from a position inside it: whether the
statement ends there, or goes on. -/
inductive StatementStep where
  | goOn (next : Nat)
  | finish (next : Nat)

def statementStep (c : Code) (start : Nat) (p : Nat) : StatementStep :=
  match c.kind? p with
  | none => .finish p
  | some kind =>
    if kind = .semicolon ∨ kind = .closeTag then .finish (p + 1)
    else if kind.isClosingBracket ∨ (kind = .inlineHtml ∧ start < p) then .finish p
    else if kind.isOpeningBracket then
      let next := c.groupEnd p
      if kind = .leftBrace ∧ endsAtBrace c start ∧ !c.isAtAny [.kwCatch, .kwFinally] next then
        .finish next
      else .goOn next
    else .goOn (p + 1)

def statementEnd (c : Code) (start : Nat) : (fuel p : Nat) → Nat
  | 0, p => p
  | fuel + 1, p =>
    match statementStep c start p with
    | .finish next => next
    | .goOn next => statementEnd c start fuel next

/-- Takes a statement up to its terminator. One that cannot even start is a problem and takes one
token. -/
def skipStatement (c : Code) (p : Nat) : Parsed Unit :=
  let stop := statementEnd c p (c.size + 1) p
  if stop = p then ⟨(), min (p + 1) c.size, [errorAt c .unexpectedToken p]⟩ else ⟨(), stop, []⟩

def shapeless (c : Code) (kind : StatementKind) (p : Nat) : Parsed StatementKind :=
  let rest := skipStatement c p
  ⟨kind, rest.next, rest.errors⟩

def importKind? (c : Code) (p : Nat) : Option SymbolKind :=
  match c.kind? p with
  | some .kwFunction => some .function
  | some .kwConst => some .constant
  | _ => none

def afterImportKind (c : Code) (p : Nat) : Nat := if (importKind? c p).isSome then p + 1 else p

/-- The alias at a position and the position after it. -/
def importAlias (c : Code) (p : Nat) : Option Text × Nat :=
  if c.isAt .kwAs p ∧ c.isAt .ident (p + 1) then (some (c.text (p + 1)), p + 2) else (none, p)

/-- The items of a group up to its closing brace. Nothing, with the position of the trouble, if they
are malformed. -/
def groupItems (c : Code) (kind : SymbolKind) (lead : Text) :
    (fuel p : Nat) → Except Nat (List ImportItem × Nat)
  | 0, p => .error p
  | fuel + 1, p =>
    if c.isAt .rightBrace p then .ok ([], p + 1)
    else
      let name := afterImportKind c p
      if !c.isAtAny [.ident, .nameQualified] name then .error name
      else
        let (alias?, next) := importAlias c (name + 1)
        let item : ImportItem := {
          kind := (importKind? c p).getD kind
          name := lead ++ '\\' :: c.text name
          alias?
          nameToken := c.tokenIndex name
          groupLead? := some lead }
        if c.isAt .comma next then do
          let (items, stop) ← groupItems c kind lead fuel (next + 1)
          .ok (item :: items, stop)
        else if c.isAt .rightBrace next then .ok ([item], next + 1)
        else .error next

/-- The items of a `use` statement after its kind, up to its terminator. -/
def importItems (c : Code) (kind : SymbolKind) : (fuel p : Nat) → Except Nat (List ImportItem × Nat)
  | 0, p => .error p
  | fuel + 1, p =>
    if !c.isAtAny [.ident, .nameQualified, .nameFullyQualified] p then .error p
    else do
      let name := dropBackslashes (c.text p)
      let (items, next) ←
        if c.isAt .backslash (p + 1) ∧ c.isAt .leftBrace (p + 2) then
          groupItems c kind name (c.size + 1) (p + 3)
        else
          let (alias?, next) := importAlias c (p + 1)
          .ok ([⟨kind, name, alias?, c.tokenIndex p, none⟩], next)
      if c.isAt .comma next then
        let (more, stop) ← importItems c kind fuel (next + 1)
        .ok (items ++ more, stop)
      else .ok (items, next)

/-- A malformed `use` statement counts as one without a shape. -/
def malformedUse (c : Code) (found : List SyntaxError) (p : Nat) : Parsed StatementKind :=
  let rest := skipStatement c p
  ⟨.other, rest.next, found ++ errorAt c .malformedUse p :: rest.errors⟩

def useStatement (c : Code) (p : Nat) : Parsed StatementKind :=
  let kind := (importKind? c (p + 1)).getD .type
  match importItems c kind (c.size + 1) (afterImportKind c (p + 1)) with
  | .error trouble => malformedUse c [] trouble
  | .ok (items, next) =>
    let stop := terminator c next
    if isTerminator c next then ⟨.imports items, stop.next, []⟩
    else malformedUse c stop.errors next

/-- Whether a position lies inside a bracket group that opens at or after `start`. -/
def insideGroup (c : Code) (start p : Nat) : Bool :=
  (List.range' start (p - start)).any fun opener =>
    (c.kind? opener).any TokenKind.isOpeningBracket && p < c.groupEnd opener

/-- Whether a constant of a `const` statement is declared at a position. -/
def declaresConstant (c : Code) (start p : Nat) : Bool :=
  c.isAt .ident p && c.isAt .equals (p + 1) && c.isAtAny [.kwConst, .comma] (p - 1) &&
    !insideGroup c start p

def constStatement (c : Code) (p : Nat) : Parsed StatementKind :=
  let rest := skipStatement c p
  let names := (List.range' (p + 1) (rest.next - (p + 1))).filter (declaresConstant c p)
  ⟨.constants (names.map fun q => (c.text q, c.tokenIndex q)), rest.next, rest.errors⟩

/-- The position after attributes and modifiers. -/
def afterModifiers (c : Code) (p : Nat) : Nat :=
  follow (fun q =>
    match c.kind? q with
    | some .attributeOpen => some (c.groupEnd q)
    | some .kwAbstract | some .kwFinal | some .kwReadonly => some (q + 1)
    | _ => none) (c.size + 1) p

/-- The kind of class whose name follows the keyword at a position. -/
def classKeyword? (c : Code) (p : Nat) : Option ClassKind :=
  if !c.isAt .ident (p + 1) then none
  else match c.kind? p with
    | some .kwClass => some .classDecl
    | some .kwInterface => some .interfaceDecl
    | some .kwTrait => some .traitDecl
    | some .ident => if Text.eqIgnoreCase (c.text p) "enum" then some .enumDecl else none
    | _ => none

/-- The position of the name of the function whose keyword stands at a position. -/
def functionName? (c : Code) (p : Nat) : Option Nat :=
  let name := c.skip .ampersand (p + 1)
  if c.isAt .kwFunction p ∧ c.isAt .ident name ∧ c.isAt .leftParen (name + 1) then some name
  else none

/-- One step through the header of a declaration. -/
def headerStep (c : Code) (p : Nat) : Option Nat :=
  match c.kind? p with
  | none | some .leftBrace | some .semicolon | some .rightBrace => none
  | some .leftParen | some .leftBracket | some .attributeOpen => some (c.groupEnd p)
  | some _ => some (p + 1)

/-- The rest of a declaration up to the end of its body. -/
def body (c : Code) (p : Nat) : Parsed Unit :=
  let opener := follow (headerStep c) (c.size + 1) p
  if c.isAt .leftBrace opener then ⟨(), c.groupEnd opener, []⟩
  else ⟨(), opener, [errorAt c .missingBody opener]⟩

/-- A class or function that is declared at a position, or a statement without a shape. -/
def declaration (c : Code) (p : Nat) : Parsed StatementKind :=
  let keyword := afterModifiers c p
  match classKeyword? c keyword with
  | some kind =>
    let name := keyword + 1
    let rest := body c (name + 1)
    ⟨.classLike kind (c.text name) (c.tokenIndex name), rest.next, rest.errors⟩
  | none =>
    match functionName? c keyword with
    | some name =>
      let rest := body c (c.groupEnd (name + 1))
      ⟨.function (c.text name) (c.tokenIndex name), rest.next, rest.errors⟩
    | none => shapeless c .other p

/-- A call of `define` that is a whole statement. -/
def isDefineCall (c : Code) (p : Nat) : Bool :=
  Text.eqIgnoreCase (c.text p) "define" && c.isAt .leftParen (p + 1) &&
    isTerminator c (c.groupEnd (p + 1))

def defineStatement (c : Code) (p : Nat) : Parsed StatementKind :=
  let name? :=
    if c.isAt .string (p + 2) ∧ c.isAt .comma (p + 3) then literalValue? (c.text (p + 2)) else none
  let stop := terminator c (c.groupEnd (p + 1))
  ⟨.define name?, stop.next, stop.errors⟩

/-- How a statement inside another one is read. -/
abbrev Inner := Nat → Parsed Statement

/-- The statements up to a token of one of the kinds. -/
def statementsUntil (c : Code) (inner : Inner) (kinds : List TokenKind) (p : Nat) :
    Parsed (List Statement) :=
  manyUntil inner (fun q => c.atEnd q || c.isAtAny kinds q) (c.size + 1) p

/-- The statements of a block whose opening brace has been read, and the closing brace. -/
def block (c : Code) (inner : Inner) (p : Nat) : Parsed (List Statement) :=
  let rest := statementsUntil c inner [.rightBrace] p
  { rest with next := c.skip .rightBrace rest.next }

/-- The directives between two positions. -/
def directives (c : Code) (close : Nat) : (fuel p : Nat) → List Directive × List SyntaxError
  | 0, _ => ([], [])
  | fuel + 1, p =>
    if close ≤ p then ([], [])
    else if c.isAt .ident p ∧ c.isAt .equals (p + 1) then
      let stop := follow (fun q => if q < close ∧ !c.isAt .comma q then some (q + 1) else none)
        (c.size + 1) (p + 2)
      let value := (List.range' (p + 2) (stop - (p + 2))).flatMap c.text
      let (more, errors) := directives c close fuel (stop + 1)
      (⟨(c.text p).toLowerAscii, value⟩ :: more, errors)
    else ([], [errorAt c .malformedDeclare p])

def declareStatement (c : Code) (inner : Inner) (p : Nat) :
    Parsed (StatementKind × List Statement) :=
  let close := c.groupEnd (p + 1) - 1
  let (found, errors) := directives c close (c.size + 1) (p + 2)
  let next := close + 1
  if c.isAt .leftBrace next then
    let rest := block c inner (next + 1)
    ⟨(.declare found true, rest.value), rest.next, errors ++ rest.errors⟩
  else if c.isAt .colon next then
    let rest := statementsUntil c inner [.kwEnddeclare] (next + 1)
    let stop := terminator c (c.skip .kwEnddeclare rest.next)
    ⟨(.declare found true, rest.value), stop.next, errors ++ rest.errors ++ stop.errors⟩
  else
    let stop := terminator c next
    ⟨(.declare found false, []), stop.next, errors ++ stop.errors⟩

/-- A branch of a condition: a block, or one statement. -/
def branch (c : Code) (inner : Inner) (p : Nat) : Parsed (List Statement) :=
  if c.isAt .leftBrace p then block c inner (p + 1)
  else if c.atEnd p then ⟨[], p, []⟩
  else
    let only := inner p
    ⟨[only.value], only.next, only.errors⟩

/-- The further branches of a condition written with braces. -/
def braceArms (c : Code) (inner : Inner) : (fuel p : Nat) → Parsed (List Statement)
  | 0, p => ⟨[], p, []⟩
  | fuel + 1, p =>
    if c.isAt .kwElseif p then
      let arm := branch c inner (c.groupEnd (p + 1))
      let rest := braceArms c inner fuel arm.next
      ⟨arm.value ++ rest.value, rest.next, arm.errors ++ rest.errors⟩
    else if c.isAt .kwElse p then branch c inner (p + 1)
    else ⟨[], p, []⟩

def armWords : List TokenKind := [.kwElseif, .kwElse, .kwEndif]

/-- The further branches of a condition written with colons, up to its end. -/
def colonArms (c : Code) (inner : Inner) : (fuel p : Nat) → Parsed (List Statement)
  | 0, p => ⟨[], p, []⟩
  | fuel + 1, p =>
    match c.kind? p with
    | some .kwElseif | some .kwElse =>
      let head := if c.isAt .kwElseif p then c.groupEnd (p + 1) else p + 1
      let arm := statementsUntil c inner armWords (c.skip .colon head)
      let rest := colonArms c inner fuel arm.next
      ⟨arm.value ++ rest.value, rest.next, arm.errors ++ rest.errors⟩
    | some .kwEndif =>
      let stop := terminator c (p + 1)
      ⟨[], stop.next, stop.errors⟩
    | _ => ⟨[], p, [errorAt c .missingTerminator p]⟩

/-- The statements of all branches of a condition. -/
def ifStatement (c : Code) (inner : Inner) (p : Nat) : Parsed (StatementKind × List Statement) :=
  let next := c.groupEnd (p + 1)
  let colon := c.isAt .colon next
  let first :=
    if colon then statementsUntil c inner armWords (next + 1) else branch c inner next
  let rest :=
    if colon then colonArms c inner (c.size + 1) first.next
    else braceArms c inner (c.size + 1) first.next
  ⟨(.conditional, first.value ++ rest.value), rest.next, first.errors ++ rest.errors⟩

/-- The statement over the tokens from one position up to another. -/
def node (c : Code) (start : Nat) (found : Parsed (StatementKind × List Statement)) :
    Parsed Statement :=
  let first := c.tokenIndex start
  let stop := if found.next = 0 then 0 else c.tokenIndex (found.next - 1) + 1
  { found with
    value := {
      kind := found.value.1
      first
      stop := max first stop
      doc? := c.leadingDoc? first
      children := found.value.2 } }

def leaf (found : Parsed StatementKind) : Parsed (StatementKind × List Statement) :=
  { found with value := (found.value, []) }

/-- What starts at a position, given how the statements inside it are read. -/
def shape (c : Code) (inner : Inner) (p : Nat) : Parsed (StatementKind × List Statement) :=
  match c.kind? p with
  | some .semicolon | some .closeTag => leaf ⟨.empty, p + 1, []⟩
  | some .inlineHtml => leaf ⟨.html ((c.text p).all isBlank), p + 1, []⟩
  | some .kwUse => leaf (useStatement c p)
  | some .kwConst => leaf (constStatement c p)
  | some .kwDeclare =>
    if c.isAt .leftParen (p + 1) then declareStatement c inner p else leaf (declaration c p)
  | some .kwIf => ifStatement c inner p
  | some .kwReturn => leaf (shapeless c .returns p)
  | some .kwExit => leaf (shapeless c .exits p)
  | some .kwHaltCompiler => leaf ⟨.other, c.size, []⟩
  | some .ident => leaf (if isDefineCall c p then defineStatement c p else declaration c p)
  | _ => leaf (declaration c p)

/-- The statement at a position, nested at most `depth` deep. -/
def statement (c : Code) : (depth p : Nat) → Parsed Statement
  | 0, p => node c p (leaf ⟨.other, p + 1, []⟩)
  | depth + 1, p => node c p (shape c (statement c depth) p)

/-- A namespace header: a namespace statement and not a relative name. -/
def isNamespaceHeader (c : Code) (p : Nat) : Bool :=
  c.isAt .kwNamespace p && c.isAtAny [.ident, .nameQualified, .leftBrace] (p + 1)

/-- A namespace with its statements: those in its braces, or all up to the next namespace. -/
def namespaceStatement (c : Code) (inner : Inner) (p : Nat) :
    Parsed (StatementKind × List Statement) :=
  let named := c.isAtAny [.ident, .nameQualified] (p + 1)
  let name? := if named then some (c.text (p + 1)) else none
  let token? := if named then some (c.tokenIndex (p + 1)) else none
  let next := if named then p + 2 else p + 1
  if c.isAt .leftBrace next then
    let rest := block c inner (next + 1)
    ⟨(.space name? token? true, rest.value), rest.next, rest.errors⟩
  else
    let closed := isTerminator c next
    let rest := manyUntil inner (fun q => c.atEnd q || isNamespaceHeader c q) (c.size + 1)
      (if closed then next + 1 else next)
    ⟨(.space name? token? false, rest.value), rest.next,
      (if closed then [] else [errorAt c .malformedNamespace next]) ++ rest.errors⟩

/-- The statements of a whole file. -/
def topStatements (c : Code) : Parsed (List Statement) :=
  let inner := statement c (c.size + 1)
  let item (p : Nat) :=
    if isNamespaceHeader c p then node c p (namespaceStatement c inner p) else inner p
  manyUntil item c.atEnd (c.size + 1) 0

/-- The problem that a bracket fault is. -/
def bracketError (c : Code) : BracketFault → SyntaxError
  | .invalid p => errorAt c .invalidCharacter p
  | .unclosed p => errorAt c (.unclosedBracket none) p
  | .neverClosed p => errorAt c (.unclosedBracket (some (c.text p))) p
  | .unexpected p => errorAt c .unexpectedCloser p

end Parser
end NamespaceMigration
