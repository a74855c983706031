import NamespaceMigration.Reference.Basic
import NamespaceMigration.Text.Alphanumeric
import NamespaceMigration.Token.Lexer

/-! References in doc comments. A tag at the start of a line may be followed by a type, by the
signature of a method or by a template with a bound; a tag that looks like a class name is an
annotation. -/
namespace NamespaceMigration
namespace DocComment

/-- Tags with a type after them. -/
def typedTags : List Text := [
  "extends", "implements", "mixin", "param", "property", "property-read", "property-write",
  "return", "see", "throws", "uses", "var"]

def templateTags : List Text := ["template", "template-contravariant", "template-covariant"]

/-- Words that stand for a type in comments only. -/
def pseudoTypes : List Text := [
  "boolean", "callback", "double", "empty", "integer", "is", "list", "number", "numeric",
  "resource", "scalar"]

/-- A line of a comment, without its line break, and its offset in the comment. Places in a line
are counted in characters. -/
structure Line where
  offset : Nat
  text : Text

namespace Line

/-- The offset of a place in the comment. -/
def offsetAt (l : Line) (place : Nat) : Nat := l.offset + Text.byteSize (l.text.take place)

def skipBlanks (l : Line) (place : Nat) : Nat :=
  place + Lexer.runLength isBlank (l.text.drop place)

def skipWord (l : Line) (place : Nat) : Nat :=
  place + Lexer.runLength (!isBlank ·) (l.text.drop place)

/-- The place of the first character of a kind from a place on, or the end of the line. -/
def find (l : Line) (p : Char → Bool) (place : Nat) : Nat :=
  place + Lexer.runLength (!p ·) (l.text.drop place)

end Line

/-- The lines of a comment that begins at `offset`, each with its line feed. -/
def linesFrom (offset : Nat) (current : Text) : Text → List Line
  | [] => if current.isEmpty then [] else [⟨offset, current.reverse⟩]
  | c :: t =>
    if c = '\n' then
      let line := (c :: current).reverse
      ⟨offset, line⟩ :: linesFrom (offset + Text.byteSize line) [] t
    else linesFrom offset (c :: current) t

def lines (comment : Text) : List Line :=
  (linesFrom 0 [] comment).map fun l =>
    { l with text := Text.trimEnd (fun c => c == '\n' || c == '\r') l.text }

/-- The place of the tag that a line starts with, after blanks, slashes and stars. -/
def tagPlace? (l : Line) : Option Nat :=
  let place := Lexer.runLength (fun c => isBlank c || c == '/' || c == '*') l.text
  if l.text[place]? = some '@' then some place else none

/-- The tags of two well-known tools mean what the plain ones mean. -/
def normalizeTag (tag : Text) : Text :=
  match Text.dropLead? "phpstan-" tag with
  | some rest => rest
  | none => (Text.dropLead? "psalm-" tag).getD tag

/-- A tag that is written like a class name. -/
def isAnnotation (tag : Text) : Bool :=
  tag.head?.any (fun c => c.isUpper || c == '\\') && '-' ∉ tag

/-- Whether a name that stands between two characters is a class name. Variables, calls and members
are none, but in `Foo::bar` the class is `Foo`. -/
def isClassName (templates : List Text) (before? : Option Char) (name after : Text) : Bool :=
  let touches :=
    before?.any (['$', '-', '.', ':', '@'].contains ·) ||
      after.head?.any (['-', '(', ':', '.'].contains ·)
  if touches && !Text.startsWith after "::" then false
  else if before?.any Char.isDigit then false
  else if '\\' ∈ name then true
  else !(Word.isBuiltin name || pseudoTypes.contains name.toLowerAscii || templates.contains name)

/-- What the search for names is in the middle of. -/
inductive NameState where
  | outside
  | quoted (quote : Char)
  /-- Inside a name, with the number of its characters that are left. -/
  | name (left : Nat)

/-- The class names in a text that begins at `offset` after the character `before?`. Quoted parts
hold none. -/
def namesFrom (templates : List Text) : NameState → (before? : Option Char) → (offset : Nat) →
    Text → List DocReference
  | _, _, _, [] => []
  | .quoted quote, _, offset, c :: t =>
    let state := if c = quote then .outside else .quoted quote
    namesFrom templates state (some c) (offset + c.utf8Size) t
  | .name (left + 1), _, offset, c :: t =>
    namesFrom templates (.name left) (some c) (offset + c.utf8Size) t
  | _, before?, offset, c :: t =>
    let next := offset + c.utf8Size
    if c = '\x27' ∨ c = '\x22' then namesFrom templates (.quoted c) (some c) next t
    else if Lexer.isNameStart c ∨ (c = '\\' ∧ t.head?.any Lexer.isNameStart) then
      let length := Lexer.nameLength (c :: t)
      let name := (c :: t).take length
      let rest := namesFrom templates (.name (length - 1)) (some c) next t
      if isClassName templates before? name ((c :: t).drop length) then
        ⟨⟨offset, offset + Text.byteSize name⟩, name⟩ :: rest
      else rest
    else namesFrom templates .outside (some c) next t

/-- The class names between two places of a line. What comes after the second is not looked at. -/
def namesBetween (templates : List Text) (l : Line) (start stop : Nat) : List DocReference :=
  namesFrom templates .outside (l.text.take start).getLast? (l.offsetAt start)
    ((l.text.take stop).drop start)

/-- The length of the type at the start of a text, with what comes before it reversed in `before`.
It ends at a blank outside brackets and quotes that does not touch a bar or an ampersand. -/
def typeLength (depth : Int) (quote? : Option Char) (before : Text) : Text → Nat
  | [] => 0
  | c :: t =>
    let goOn (depth : Int) (quote? : Option Char) := 1 + typeLength depth quote? (c :: before) t
    match quote? with
    | some quote => goOn depth (if c = quote then none else quote?)
    | none =>
      let joins (text : Text) := (text.dropWhile isBlank).head?.any fun d => d == '|' || d == '&'
      if c = '\x27' ∨ c = '\x22' then goOn depth (some c)
      else if ['<', '(', '\x7b', '['].contains c then goOn (depth + 1) none
      else if ['>', ')', '\x7d', ']'].contains c then goOn (depth - 1) none
      else if (c = ' ' ∨ c = '\t') ∧ depth ≤ 0 ∧ !joins before ∧ !joins (c :: t) then 0
      else goOn depth none

/-- The place after the type that starts at a place. -/
def typeEnd (l : Line) (start : Nat) : Nat :=
  start + typeLength 0 none (l.text.take start).reverse (l.text.drop start)

/-- The names that the template tags of a comment introduce. -/
def templateNames (comment : Text) : List Text :=
  (lines comment).filterMap fun l => do
    let place ← tagPlace? l
    let stop := l.skipWord (place + 1)
    if templateTags.contains (normalizeTag ((l.text.take stop).drop (place + 1))) then
      let name := (l.text.drop (l.skipBlanks stop)).takeWhile fun c => isAlphanumeric c || c == '_'
      if name.isEmpty then none else some name
    else none

/-- The place of the bound in `T of Bound`. -/
def templateBound? (l : Line) (afterTag : Nat) : Option Nat :=
  let word := l.skipBlanks (l.skipWord (l.skipBlanks afterTag))
  match Text.dropLead? "of" (l.text.drop word) with
  | some rest => if rest.head?.any isBlank then some (l.skipBlanks (word + 2)) else none
  | none => none

/-- The types of parameters from a place on, each up to its variable or default. -/
def parameterNames (templates : List Text) (l : Line) (start : Nat) :
    (parameters : List Text) → List DocReference
  | [] => []
  | parameter :: rest =>
    let type := Lexer.runLength (fun c => c != '$' && c != '=') parameter
    namesBetween templates l start (start + type) ++
      parameterNames templates l (start + parameter.length + 1) rest

/-- The class names in the signature of a method: in the result type, which ends at the last blank
before the parenthesis, and in the parameters. -/
def methodNames (templates : List Text) (l : Line) (afterTag : Nat) : List DocReference :=
  let opener := l.find (· == '(') afterTag
  if l.text.length ≤ opener then []
  else
    let head := Text.trimEnd isBlank ((l.text.take opener).drop afterTag)
    let name := afterTag + (head.reverse.dropWhile (!isBlank ·)).length
    let inside := l.text.drop (opener + 1)
    let inside :=
      match Text.splitAtLast? ')' inside with
      | some (before, _) => before
      | none => inside
    namesBetween templates l afterTag name ++
      parameterNames templates l (opener + 1) (inside.splitOn ',')

/-- The annotations inside the arguments of another one, in a text that begins at `offset`. -/
def nestedAnnotations (offset : Nat) : Text → List DocReference
  | [] => []
  | c :: t =>
    let next := offset + c.utf8Size
    let name := t.take (Lexer.nameLength t)
    let rest := nestedAnnotations next t
    if c = '@' ∧ isAnnotation name then ⟨⟨next, next + Text.byteSize name⟩, name⟩ :: rest else rest

/-- The class names of a line. -/
def lineReferences (templates : List Text) (l : Line) : List DocReference :=
  match tagPlace? l with
  | none => []
  | some place =>
    let isTagChar (c : Char) := isAlphanumeric c || c == '_' || c == '\\' || c == '-'
    let tag := (l.text.drop (place + 1)).takeWhile isTagChar
    let afterTag := place + 1 + tag.length
    let plain := normalizeTag tag
    if isAnnotation tag then
      ⟨⟨l.offsetAt (place + 1), l.offsetAt afterTag⟩, tag⟩ ::
        nestedAnnotations (l.offsetAt afterTag) (l.text.drop afterTag)
    else if plain = "method" then methodNames templates l afterTag
    else if templateTags.contains plain then
      match templateBound? l afterTag with
      | some bound => namesBetween templates l bound (typeEnd l bound)
      | none => []
    else if typedTags.contains plain then
      let start := l.skipBlanks afterTag
      let stop := typeEnd l start
      let mayLink := plain = "see" ∨ plain = "uses"
      if mayLink ∧ Text.contains ((l.text.take stop).drop start) "://" then []
      else namesBetween templates l start stop
    else []

def references (comment : Text) : List DocReference :=
  (lines comment).flatMap (lineReferences (templateNames comment))

end DocComment
end NamespaceMigration
