import NamespaceMigration.Name.Scope
import NamespaceMigration.Text.Basic

/-! Fragments: the code of one namespace taken apart into directives, imports and statements. Those
for one file are merged and written together. -/
namespace NamespaceMigration

/-- Why code cannot go into one file. -/
inductive MergeFault where
  | severalSpaces
  /-- A directive with two values. -/
  | directive (key old new : Text)
  | spaces (mine theirs : Option Text)
deriving DecidableEq

namespace MergeFault

def spaceName (space? : Option Text) : Text := space?.getD "(global)"

def message : MergeFault → Text
  | severalSpaces => "file declares several namespaces"
  | directive key old new =>
    "declare(" ++ key ++ ") is " ++ old ++ " in one part and " ++ new ++ " in another"
  | spaces mine theirs =>
    "namespace " ++ spaceName theirs ++ " does not match " ++ spaceName mine

end MergeFault

structure Fragment where
  directives : List Directive
  space? : Option Text
  /-- The imports, those of groups one by one. -/
  imports : List ImportItem
  /-- The statements with the comments that document them. -/
  body : List Text
deriving DecidableEq

namespace Directive

/-- Adds directives up to the first that contradicts one, and says which that is. -/
def addAll (found : List Directive) : List Directive → List Directive × Option MergeFault
  | [] => (found, none)
  | d :: ds =>
    match found.find? fun e => Text.eqIgnoreCase e.key d.key with
    | none => addAll (found ++ [d]) ds
    | some e =>
      if Text.eqIgnoreCase e.value d.value then addAll found ds
      else (found, some (.directive d.key e.value d.value))

end Directive

namespace ImportItem

/-- Whether two imports bind the same alias or import the same symbol. -/
def clashes (a b : ImportItem) : Bool :=
  a.kind == b.kind &&
    (aliasKey a.kind a.shortName == aliasKey b.kind b.shortName ||
      lookupKey a.kind a.name == lookupKey b.kind b.name)

/-- The import as a statement. -/
def render (item : ImportItem) : Text :=
  let keyword : Text := match item.kind.useKeyword? with
    | some word => word ++ [' ']
    | none => []
  let tail : Text := match item.alias? with
    | some short => if short = lastSegment item.name then [] else " as " ++ short
    | none => []
  "use " ++ keyword ++ item.name ++ tail ++ [';']

end ImportItem

namespace Fragment

/-- Adds an import. Since all code is written in full, one that clashes is left out. -/
def addImport (imports : List ImportItem) (item : ImportItem) : List ImportItem :=
  if imports.any item.clashes then imports else imports ++ [item]

/-- Takes a file with one namespace apart. -/
def ofFile (f : SourceFile) : Except MergeFault Fragment :=
  match f.scopes with
  | [s] =>
    let written := f.root.children.flatMap fun statement =>
      match statement.kind with
      | .declare directives false => directives
      | _ => []
    match Directive.addAll [] written with
    | (_, some fault) => .error fault
    | (directives, none) =>
      .ok {
        directives
        space? := s.space?
        imports := (f.scopeImports s).map fun item => { item with groupLead? := none }
        body := s.bodyStatements.map fun statement => (f.rangeWithDoc statement).of f.text }
  | _ => .error .severalSpaces

def ofText (t : Text) : Except MergeFault Fragment := ofFile (.parse t)

/-- The first fragment with as much of the second as can be added, and what stood in the way. -/
def absorb (a b : Fragment) : Fragment × Option MergeFault :=
  if !sameSpace a.space? b.space? then (a, some (.spaces a.space? b.space?))
  else match Directive.addAll a.directives b.directives with
    | (directives, some fault) => ({ a with directives }, some fault)
    | (directives, none) =>
      ({ a with
          directives
          imports := b.imports.foldl addImport a.imports
          body := a.body ++ b.body }, none)

/-- Both fragments as one. -/
def merge (a b : Fragment) : Except MergeFault Fragment :=
  match a.absorb b with
  | (merged, none) => .ok merged
  | (_, some fault) => .error fault

/-- The statement that sets directives. -/
def renderDirectives (directives : List Directive) : Text :=
  if directives.isEmpty then []
  else
    let pairs := directives.map fun d => d.key ++ '=' :: d.value
    "\ndeclare(" ++ Text.join ", " pairs ++ ");\n"

/-- The statement that starts a namespace. -/
def renderSpace (space? : Option Text) : Text :=
  match space? with
  | some space => "\nnamespace " ++ space ++ ";\n"
  | none => []

/-- The fragment as a file. -/
def render (f : Fragment) : Text :=
  let imports := f.imports.flatMap fun item => item.render ++ ['\n']
  let body := f.body.flatMap fun t => '\n' :: Text.trimEnd isBlank t ++ ['\n']
  "<?php\n" ++ renderDirectives f.directives ++ renderSpace f.space? ++
    (if f.imports.isEmpty then [] else '\n' :: imports) ++ body

end Fragment

namespace Directive

variable {found ds out : List Directive}

theorem addAll_mem (h : addAll found ds = (out, none)) : ∀ d ∈ out, d ∈ found ∨ d ∈ ds := by
  induction ds generalizing found with
  | nil =>
    cases h
    exact fun d hd => Or.inl hd
  | cons e ds ih =>
    rw [addAll] at h
    intro d hd
    split at h
    · rcases ih h d hd with hmem | hmem
      · rcases List.mem_append.mp hmem with hmem | hmem
        · exact Or.inl hmem
        · exact Or.inr (List.mem_cons.mpr (Or.inl (List.mem_singleton.mp hmem)))
      · exact Or.inr (List.mem_cons_of_mem _ hmem)
    · split at h
      · exact (ih h d hd).imp_right (List.mem_cons_of_mem _)
      · cases h

/-- What is added has a key of its own. -/
theorem addAll_once (hfound : found.Pairwise fun d e => Text.eqIgnoreCase d.key e.key = false)
    (h : addAll found ds = (out, none)) :
    out.Pairwise fun d e => Text.eqIgnoreCase d.key e.key = false := by
  induction ds generalizing found with
  | nil =>
    cases h
    exact hfound
  | cons e ds ih =>
    rw [addAll] at h
    split at h
    · rename_i hnew
      refine ih (List.pairwise_append.mpr ⟨hfound, List.pairwise_singleton _ _, ?_⟩) h
      intro d hd e' he'
      rw [List.mem_singleton.mp he']
      exact Bool.eq_false_iff.mpr (List.find?_eq_none.mp hnew d hd)
    · split at h
      · exact ih hfound h
      · cases h

end Directive

namespace Fragment

theorem mem_foldl_addImport {imports new : List ImportItem} :
    ∀ item ∈ new.foldl addImport imports, item ∈ imports ∨ item ∈ new := by
  induction new generalizing imports with
  | nil => exact fun item hitem => Or.inl hitem
  | cons other new ih =>
    intro item hitem
    rcases ih item hitem with hmem | hmem
    · rw [addImport] at hmem
      split at hmem
      · exact Or.inl hmem
      · rcases List.mem_append.mp hmem with hmem | hmem
        · exact Or.inl hmem
        · exact Or.inr (List.mem_cons.mpr (Or.inl (List.mem_singleton.mp hmem)))
    · exact Or.inr (List.mem_cons_of_mem _ hmem)

/-- What a successful merge consists of. -/
theorem merge_eq_ok {a b f : Fragment} (h : a.merge b = .ok f) : sameSpace a.space? b.space? ∧
    ∃ directives, Directive.addAll a.directives b.directives = (directives, none) ∧
      f = ⟨directives, a.space?, b.imports.foldl addImport a.imports, a.body ++ b.body⟩ := by
  rw [merge, absorb] at h
  cases hsame : sameSpace a.space? b.space? with
  | false =>
    rw [hsame] at h
    cases h
  | true =>
    rw [hsame] at h
    generalize hadd : Directive.addAll a.directives b.directives = added at h
    obtain ⟨directives, _ | fault⟩ := added
    · cases h
      exact ⟨rfl, directives, rfl, rfl⟩
    · cases h

end Fragment

end NamespaceMigration
