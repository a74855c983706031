import NamespaceMigration.Statement.Parser
import NamespaceMigration.Text.Lines
import NamespaceMigration.Token.Lexer

/-! Source files: the text, its tokens, its statements and its problems; and what can be asked of a
statement where it stands: its place in the text, its namespace and the directives in effect. -/
namespace NamespaceMigration

structure SourceFile where
  text : Text
  tokens : Array Token
  root : Statement
  errors : List SyntaxError

/-- One level of the way from the root to a statement: the enclosing statement, its number, and the
statements inside it that come before the way goes on, the nearest first. -/
structure Level where
  number : Nat
  statement : Statement
  earlier : List Statement

/-- A statement where it stands. Numbers count the statements of the file in source order, the root
being number zero. -/
structure Located where
  number : Nat
  statement : Statement
  /-- The enclosing statements, innermost first. -/
  above : List Level

/-- A namespace statement, or the whole file if it has none. -/
structure Scope where
  home : Located
  space? : Option Text
  first : Nat
  stop : Nat

mutual

/-- A statement and all statements inside it, in source order. -/
def outline (above : List Level) (number : Nat) : Statement → List Located
  | ⟨kind, first, stop, doc?, children⟩ =>
    let here : Statement := ⟨kind, first, stop, doc?, children⟩
    ⟨number, here, above⟩ :: outlineAll above number here [] (number + 1) children

/-- The outlines of the statements inside `parent` that come after `earlier`. -/
def outlineAll (above : List Level) (number : Nat) (parent : Statement) (earlier : List Statement)
    (next : Nat) : List Statement → List Located
  | [] => []
  | child :: later =>
    let inside := outline (⟨number, parent, earlier⟩ :: above) next child
    inside ++ outlineAll above number parent (child :: earlier) (next + inside.length) later

end

namespace Located

def parent? (l : Located) : Option Nat := l.above.head?.map (·.number)

/-- The name of the enclosing namespace. -/
def space? (l : Located) : Option Text :=
  (l.above.findSome? fun level =>
    match level.statement.kind with
    | .space name? _ _ => some name?
    | _ => none).join

end Located

namespace Directive

/-- Adds a directive. One with the same key, up to case, gets the new value and keeps its place. -/
def set (found : List Directive) (d : Directive) : List Directive :=
  match found with
  | [] => [d]
  | e :: found => if Text.eqIgnoreCase e.key d.key then ⟨e.key, d.value⟩ :: found else e :: set found d

end Directive

namespace Statement

/-- What a `use` statement imports. -/
def importItems? (s : Statement) : Option (List ImportItem) :=
  match s.kind with
  | .imports items => some items
  | _ => none

/-- The directives that hold inside the statement. -/
def blockDirectives (s : Statement) : List Directive :=
  match s.kind with
  | .declare directives true => directives
  | _ => []

/-- The directives that hold after the statement. -/
def laterDirectives (s : Statement) : List Directive :=
  match s.kind with
  | .declare directives false => directives
  | _ => []

end Statement

/-- The directives in effect at a statement: those of the blocks around it and those set before it
on every level, from the outside in. The last of a key wins. -/
def Located.directives (l : Located) : List Directive :=
  let set := l.above.reverse.flatMap fun level =>
    level.statement.blockDirectives ++ level.earlier.reverse.flatMap Statement.laterDirectives
  set.foldl Directive.set []

namespace SourceFile

def parse (text : Text) : SourceFile :=
  let tokens := Lexer.tokenize text
  let code := Code.ofTokens tokens (Text.byteSize text)
  let found := Parser.topStatements code
  { text
    tokens := tokens.toArray
    root := ⟨.sourceFile, 0, tokens.length, none, found.value⟩
    errors := code.matching.faults.map (Parser.bracketError code) ++ found.errors }

variable (f : SourceFile)

def lines : LineIndex := .ofSource f.text

/-- The texts of all tokens, one after the other. -/
def print : Text := f.tokens.toList.flatMap (·.text)

def kind? (index : Nat) : Option TokenKind := f.tokens[index]?.map (·.kind)

def tokenText (index : Nat) : Text := (f.tokens[index]?.map (·.text)).getD []

/-- The bytes of a token; past the last one, the end of the text. -/
def tokenRange (index : Nat) : TextRange :=
  match f.tokens[index]? with
  | some token => ⟨token.offset, token.stop⟩
  | none => .emptyAt (Text.byteSize f.text)

def isCode (index : Nat) : Bool := (f.kind? index).any (!·.isTrivia)

/-- The nearest token after an index that is not trivia. -/
def next? (index : Nat) : Option Nat :=
  (List.range' (index + 1) (f.tokens.size - (index + 1))).find? f.isCode

def includesFile : Bool := f.tokens.any (·.kind == .kwInclude)

/-- All statements in source order, the root first. -/
def outline : List Located := NamespaceMigration.outline [] 0 f.root

/-- From the first to the last token of a statement. -/
def range (s : Statement) : TextRange :=
  let start := (f.tokenRange s.first).start
  if s.stop ≤ s.first then .emptyAt start else ⟨start, (f.tokenRange (s.stop - 1)).stop⟩

/-- The range of a statement with the comment that documents it. -/
def rangeWithDoc (s : Statement) : TextRange :=
  match s.doc? with
  | some doc => ⟨(f.tokenRange doc).start, (f.range s).stop⟩
  | none => f.range s

def statementText (s : Statement) : Text := (f.range s).of f.text

/-- The first and the last line of a statement, without the comment that documents it. -/
def lineSpan (s : Statement) : Nat × Nat :=
  let range := f.range s
  let last := if range.isEmpty then range.stop else range.stop - 1
  (f.lines.line range.start, f.lines.line last)

/-- The statement, other than the root, that covers exactly the tokens from `first` to `stop`. -/
def findByTokens? (first stop : Nat) : Option Located :=
  f.outline.tail.find? fun l => l.statement.first = first ∧ l.statement.stop = stop

/-- The namespace scopes in source order. -/
def scopes : List Scope :=
  let named := (f.outline.filter (·.parent? == some 0)).filterMap fun l =>
    match l.statement.kind with
    | .space name? _ _ => some ⟨l, name?, l.statement.first, l.statement.stop⟩
    | _ => none
  if named.isEmpty then [⟨⟨0, f.root, []⟩, none, 0, f.tokens.size⟩] else named

/-- The `use` statements directly inside a scope. -/
def scopeUses (s : Scope) : List Located :=
  f.outline.filter fun l => l.parent? == some s.home.number && l.statement.importItems?.isSome

end SourceFile

namespace Scope

def containsToken (s : Scope) (index : Nat) : Bool := s.first ≤ index && index < s.stop

end Scope
end NamespaceMigration
