import NamespaceMigration.Adaptation.Qualified

/-! The third step: names in full become short again through imports. A name reuses an alias that
already means it, or is bare inside its own namespace, or gets a new alias. The imports of a scope are
then the aliases in use: types, then functions, then constants. -/
namespace NamespaceMigration

/-- What names mean in a scope while its imports are chosen, and the keys of the aliases in use. -/
structure ImportChoice where
  context : NameContext
  used : List (SymbolKind × Text)

namespace NameContext

/-- The short name that means a name here without another import. A bare function or constant would
also mean the global one, unless the scope defines it. -/
def existingShort? (c : NameContext) (name : QualifiedName) (kind : SymbolKind) : Option Text :=
  match c.aliasFor? name kind with
  | some short => some short
  | none =>
    let short := name.short
    let free := (c.findAlias? short kind).all fun entry => entry.target.key kind == name.key kind
    let own := kind == .type || c.space?.isNone || c.defines short kind
    if free && sameSpace c.space? name.space? && own then some short else none

end NameContext

namespace ImportChoice

def markUsed (c : ImportChoice) (short : Text) (kind : SymbolKind) : ImportChoice :=
  { c with used := (kind, aliasKey kind short) :: c.used }

def isUsed (c : ImportChoice) (kind : SymbolKind) (entry : AliasEntry) : Bool :=
  c.used.contains (kind, aliasKey kind entry.alias)

/-- Takes note of a name that is not in full: of the alias it goes through, or that it is taken. -/
def note (c : ImportChoice) (r : Reference) : ImportChoice :=
  match Text.splitAtFirst? '\\' r.text with
  | some (first, _) => if Text.eqIgnoreCase first "namespace" then c else c.markUsed first .type
  | none =>
    if c.context.hasAlias r.text r.kind then c.markUsed r.text r.kind
    else { c with context := c.context.addReference r.text r.kind }

def markAlias (c : ImportChoice) (short : Text) (kind : SymbolKind) : ImportChoice :=
  if c.context.hasAlias short kind then c.markUsed short kind else c

/-- The short name for a name in full, with an import if it needs one. Global functions and constants
stay in full inside a namespace. -/
def shorten (c : ImportChoice) (name : QualifiedName) (kind : SymbolKind) :
    Option Text × ImportChoice :=
  match c.context.existingShort? name kind with
  | some short =>
    if c.context.hasAlias short kind then (some short, c.markUsed short kind)
    else (some short, { c with context := c.context.addReference short kind })
  | none =>
    if name.space? = none ∧ kind ≠ .type then (none, c)
    else
      let short := c.context.allocateAlias name kind
      let context := (c.context.addAlias? name short kind).getD c.context
      (some short, ({ c with context }).markUsed short kind)

/-- The short names for references in full, one after the other. -/
def shortenAll (c : ImportChoice) : List Reference → List (Reference × Text) × ImportChoice
  | [] => ([], c)
  | r :: rs =>
    let (short?, c) := c.shorten (.ofText r.text) r.kind
    let (rest, c) := c.shortenAll rs
    match short? with
    | some short => ((r, short) :: rest, c)
    | none => (rest, c)

/-- The short name for a name in full in a comment. Comments get no imports. -/
def docShort? (c : ImportChoice) (name : Text) : Option Text :=
  if isWrittenInFull name then c.context.existingShort? (.ofText name) .type else none

def hasUnused (c : ImportChoice) : Bool :=
  SymbolKind.all.any fun kind => (c.context.aliases.get kind).any fun entry => !c.isUsed kind entry

/-- The import of an alias as it is written. -/
def importLine (kind : SymbolKind) (entry : AliasEntry) : Text :=
  let keyword : Text := match kind.useKeyword? with
    | some word => word ++ [' ']
    | none => []
  let tail : Text := if entry.target.short = entry.alias then [] else " as " ++ entry.alias
  "use " ++ keyword ++ entry.target.text ++ tail ++ [';']

/-- The imports in use of one kind, sorted by what they import. -/
def importLines (c : ImportChoice) (kind : SymbolKind) : List Text :=
  let le (a b : AliasEntry) := Text.le (Text.toLower a.target.text) (Text.toLower b.target.text)
  (((c.context.aliases.get kind).filter (c.isUsed kind)).mergeSort le).map (importLine kind)

def importBlock (c : ImportChoice) : Text :=
  Text.join ['\n'] (SymbolKind.all.flatMap c.importLines)

end ImportChoice

namespace SourceFile

variable (f : SourceFile)

/-- The last of the directives that a file without namespaces starts with. -/
def leadingDirective? : Option Statement :=
  let start := f.root.children.takeWhile fun statement =>
    match statement.kind with
    | .declare _ false | .empty | .html true => true
    | _ => false
  (start.filter fun statement =>
    match statement.kind with
    | .declare .. => true
    | _ => false).getLast?

def findToken? (kinds : List TokenKind) (first stop : Nat) : Option Nat :=
  (List.range' first (stop - first)).find? fun index => (f.kind? index).any kinds.contains

/-- The token after which a scope without imports gets its first ones: the end of the header of the
namespace; else of the directives at the start; else the tag that starts the code. -/
def importAnchor? (s : Scope) : Option Nat :=
  let home := s.home.statement
  match home.kind with
  | .space _ token? _ => f.findToken? [.semicolon, .leftBrace] (token?.getD home.first) home.stop
  | _ =>
    match f.leadingDirective? with
    | some statement => some (statement.stop - 1)
    | none => f.findToken? [.openTag] 0 f.tokens.size

/-- The range of a statement with the blanks after it up to the end of the line. -/
def statementLine (s : Statement) : TextRange :=
  let range := f.range s
  match f.tokens[s.stop]? with
  | some ⟨.whitespace, blanks, _⟩ =>
    match Text.splitAtFirst? '\n' blanks with
    | some (before, _) => ⟨range.start, range.stop + Text.byteSize before + 1⟩
    | none => range
  | _ => range

/-- The blank lines around the first imports of a scope, after its anchor. -/
def firstImports (anchor : Nat) (block : Text) : Text :=
  if f.kind? anchor = some .openTag then
    if Text.endsWith (f.tokenText anchor) ['\n'] then '\n' :: block ++ ['\n', '\n']
    else '\n' :: '\n' :: block ++ ['\n', '\n']
  else '\n' :: '\n' :: block

/-- Puts the imports in the place of the first of those that are there, and takes the others away. -/
def placeImports (s : Scope) (block : Text) : List TextEdit :=
  match (f.scopeUses s).map (·.statement) with
  | first :: others => ⟨f.range first, block⟩ :: others.map fun other => .delete (f.statementLine other)
  | [] =>
    if block.isEmpty then []
    else match f.importAnchor? s with
      | some anchor => [.insert (f.tokenRange anchor).stop (f.firstImports anchor block)]
      | none => []

/-- The edits that shorten the names of a scope and write its imports. -/
def importScope (s : Scope) : List TextEdit :=
  let context := f.context s
  let (inFull, relative) := (f.references s.first s.stop).partition fun r => isWrittenInFull r.text
  let choice := relative.foldl ImportChoice.note ⟨context, []⟩
  let (shortened, choice) := choice.shortenAll inFull
  let inCode := shortened.map fun (r, short) => ⟨f.tokenRange r.token, short⟩
  let comments := (f.docComments s).map fun comment => (comment, comment.docEdits choice.docShort?)
  let inComments := comments.filterMap fun (comment, inner) => comment.docEdit? inner
  let choice := (comments.flatMap (·.2)).foldl (fun c e => c.markAlias e.text .type) choice
  let changed := !(AliasDiff.between context.aliases choice.context.aliases).isEmpty
  let imports :=
    if changed || choice.hasUnused then f.placeImports s choice.importBlock else []
  inCode ++ inComments ++ imports

def importEdits : List TextEdit := f.scopes.flatMap f.importScope

end SourceFile
end NamespaceMigration
