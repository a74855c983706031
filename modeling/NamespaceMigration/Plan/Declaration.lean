import NamespaceMigration.Plan.Basic
import NamespaceMigration.Statement.Source

/-! The declarations of a source file. A file can be migrated only if every statement outside its
declarations may be left out. -/
namespace NamespaceMigration

/-- A declaration as it stands in the source. -/
structure Declaration where
  place : Located
  kind : DeclarationKind
  names : List (DeclarationKind × QualifiedName)
  /-- Constants that a condition defines at run time. They are never renamed. -/
  runtimeNames : List QualifiedName

namespace Located

def isConditional (l : Located) : Bool :=
  match l.statement.kind with
  | .conditional => true
  | _ => false

/-- Declarations stand in the file itself, in a namespace or in a block of directives. -/
def isTopLevel (l : Located) : Bool :=
  l.above.all fun level =>
    match level.statement.kind with
    | .sourceFile | .space .. | .declare _ true => true
    | _ => false

/-- Whether a statement stands in a branch of a condition, or of a condition inside it. -/
def isBranchOf (l condition : Located) : Bool :=
  let inner := l.above.takeWhile (·.number != condition.number)
  inner.length < l.above.length && inner.all fun level =>
    match level.statement.kind with
    | .conditional => true
    | _ => false

/-- The names that a statement declares, if it is a declaration. -/
def declared? (l : Located) : Option (DeclarationKind × List (DeclarationKind × QualifiedName)) :=
  let qualify (name : Text) := QualifiedName.join l.space? name
  match l.statement.kind with
  | .classLike kind name _ => some (.classLike kind, [(.classLike kind, qualify name)])
  | .function name _ => some (.function, [(.function, qualify name)])
  | .constants names => some (.constant, names.map fun entry => (.constant, qualify entry.1))
  | _ => none

end Located

namespace SourceFile

variable (f : SourceFile)

def sourceSpan (s : Statement) : SourceSpan :=
  let (startLine, endLine) := f.lineSpan s
  let range := f.range s
  ⟨startLine, endLine, keptOffset range.start, keptOffset range.stop⟩

/-- What a statement is called that cannot be left out. -/
def callStatement (s : Statement) : Text :=
  match s.kind with
  | .define _ => "define()"
  | .html _ => "inline HTML"
  | .returns => "return"
  | .exits => "exit"
  | _ => "'" ++ Text.trimBlanks (f.tokenText s.first) ++ "'"

def unexpected (l : Located) : PlanError :=
  .unexpected (f.callStatement l.statement) (f.sourceSpan l.statement)

/-- What a statement in a branch of a condition adds to it. -/
inductive BranchPart where
  | names (names : List (DeclarationKind × QualifiedName))
  | runtime (name : QualifiedName)
  | nothing
  | trouble (error : PlanError)

def branchPart (l : Located) : BranchPart :=
  match l.statement.kind with
  | .conditional | .returns | .exits | .empty | .imports _ | .declare _ false | .html true => .nothing
  | .define (some name) => .runtime (.ofText name)
  | _ =>
    match l.declared? with
    | some (_, names) => .names names
    | none => .trouble (f.unexpected l)

/-- The declaration that a condition is as a whole. -/
def conditionalDeclaration (l : Located) : Except (List PlanError) Declaration :=
  let parts := (f.outline.filter (·.isBranchOf l)).map f.branchPart
  let errors := parts.filterMap fun part =>
    match part with
    | .trouble error => some error
    | _ => none
  if errors.isEmpty then
    .ok {
      place := l
      kind := .conditional
      names := parts.flatMap fun part =>
        match part with
        | .names names => names
        | _ => []
      runtimeNames := parts.filterMap fun part =>
        match part with
        | .runtime name => some name
        | _ => none }
  else .error errors

/-- What a top-level statement declares. Nothing comes from statements that may be left out. -/
def declarationAt (l : Located) : Except (List PlanError) (Option Declaration) :=
  match l.statement.kind with
  | .space .. | .declare .. | .imports _ | .empty | .html true => .ok none
  | .conditional => (f.conditionalDeclaration l).map some
  | _ =>
    match l.declared? with
    | some (kind, names) => .ok (some ⟨l, kind, names, []⟩)
    | none => .error [f.unexpected l]

/-- All declarations in source order, or all statements that stand in the way. -/
def declarations : Except (List PlanError) (List Declaration) :=
  let found := (f.outline.tail.filter Located.isTopLevel).map f.declarationAt
  let errors := found.flatMap fun result =>
    match result with
    | .error errors => errors
    | .ok _ => []
  if errors.isEmpty then
    .ok (found.filterMap fun result => result.toOption.join)
  else .error errors

end SourceFile
end NamespaceMigration
