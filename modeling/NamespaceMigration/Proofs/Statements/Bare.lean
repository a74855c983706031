import NamespaceMigration.Proofs.Statements.Outline
import NamespaceMigration.Reference.Scan

/-! What names depend on. Comments, calls of `define` and directives bind no name, so files whose
statements differ only there have the same scopes with the same contexts. -/
namespace NamespaceMigration

/-- Calls of `define` and directives are like all that has no shape. -/
def StatementKind.bare : StatementKind → StatementKind
  | .define _ | .declare .. => .other
  | kind => kind

/-- A statement without what no name depends on. -/
def Statement.bare : Statement → Statement
  | ⟨kind, first, stop, _, children⟩ => ⟨kind.bare, first, stop, none, children.map bare⟩

def Level.bare (level : Level) : Level :=
  ⟨level.number, level.statement.bare, level.earlier.map Statement.bare⟩

def Located.bare (l : Located) : Located := ⟨l.number, l.statement.bare, l.above.map Level.bare⟩

def Scope.bare (s : Scope) : Scope := { s with home := s.home.bare }

namespace StatementKind

@[simp] theorem declaredNames_bare (kind : StatementKind) :
    kind.bare.declaredNames = kind.declaredNames := by
  cases kind <;> rfl

end StatementKind

namespace Statement

@[simp] theorem bare_kind (s : Statement) : s.bare.kind = s.kind.bare := by
  cases s
  rw [bare]

@[simp] theorem bare_first (s : Statement) : s.bare.first = s.first := by
  cases s
  rw [bare]

@[simp] theorem bare_stop (s : Statement) : s.bare.stop = s.stop := by
  cases s
  rw [bare]

@[simp] theorem importItems?_bare (s : Statement) : s.bare.importItems? = s.importItems? := by
  rw [importItems?, importItems?, bare_kind]
  cases s.kind <;> rfl

end Statement

namespace Located

@[simp] theorem parent?_bare (l : Located) : l.bare.parent? = l.parent? := by
  rw [parent?, parent?, bare]
  cases l.above <;> rfl

@[simp] theorem isInside_bare (l : Located) (number : Nat) :
    l.bare.isInside number = l.isInside number := by
  rw [isInside, isInside, bare, List.any_map]
  rfl

theorem scope?_bare (l : Located) : l.bare.scope? = l.scope?.map Scope.bare := by
  have hstatement : l.bare.statement = l.statement.bare := rfl
  rw [scope?, scope?, hstatement, Statement.bare_kind]
  cases l.statement.kind <;> simp [StatementKind.bare, Scope.bare]

end Located

mutual

theorem outline_bare (above : List Level) (number : Nat) (s : Statement) :
    (outline above number s).map Located.bare = outline (above.map Level.bare) number s.bare := by
  match s with
  | ⟨kind, first, stop, doc?, children⟩ =>
    rw [outline, List.map_cons, outlineAll_bare, Located.bare, Statement.bare, outline]
    rfl

theorem outlineAll_bare (above : List Level) (number : Nat) (parent : Statement)
    (earlier : List Statement) (next : Nat) (later : List Statement) :
    (outlineAll above number parent earlier next later).map Located.bare =
      outlineAll (above.map Level.bare) number parent.bare (earlier.map Statement.bare) next
        (later.map Statement.bare) := by
  match later with
  | [] => rfl
  | s :: later =>
    have hinside := outline_bare (⟨number, parent, earlier⟩ :: above) next s
    have hlength := congrArg List.length hinside
    rw [List.length_map] at hlength
    rw [outlineAll, List.map_append, outlineAll_bare, hinside, hlength]
    conv_rhs => rw [List.map_cons, outlineAll]
    rfl

end

namespace SourceFile

variable {f g : SourceFile}

/-- Files with the same tokens in number whose statements bind the same names. -/
structure Alike (f g : SourceFile) : Prop where
  root : f.root.bare = g.root.bare
  size : f.tokens.size = g.tokens.size

namespace Alike

theorem outline (h : f.Alike g) : f.outline.map Located.bare = g.outline.map Located.bare := by
  rw [SourceFile.outline, SourceFile.outline, outline_bare, outline_bare, h.root]

theorem filterMap_outline {α : Type} (h : f.Alike g) {found : Located → Option α}
    (hfound : ∀ l, found l.bare = found l) : f.outline.filterMap found = g.outline.filterMap found := by
  have hbare (file : SourceFile) :
      file.outline.filterMap found = (file.outline.map Located.bare).filterMap found := by
    rw [List.filterMap_map]
    exact List.filterMap_congr fun l _ => (hfound l).symm
  rw [hbare f, hbare g, h.outline]

theorem filter_outline (h : f.Alike g) {keep : Located → Bool} (hkeep : ∀ l, keep l.bare = keep l) :
    (f.outline.filter keep).map Located.bare = (g.outline.filter keep).map Located.bare := by
  have hbare (file : SourceFile) :
      (file.outline.filter keep).map Located.bare = (file.outline.map Located.bare).filter keep := by
    rw [List.filter_map]
    congr 2
    exact funext fun l => (hkeep l).symm
  rw [hbare f, hbare g, h.outline]

theorem importSpans (h : f.Alike g) : f.importSpans = g.importSpans := by
  refine h.filterMap_outline fun l => ?_
  have hstatement : l.bare.statement = l.statement.bare := rfl
  rw [hstatement, Statement.importItems?_bare, Statement.bare_first, Statement.bare_stop]

theorem namedScopes (h : f.Alike g) :
    f.namedScopes.map Scope.bare = g.namedScopes.map Scope.bare := by
  have hbare (file : SourceFile) : file.namedScopes.map Scope.bare =
      ((file.outline.filter (·.parent? == some 0)).map Located.bare).filterMap Located.scope? := by
    rw [SourceFile.namedScopes, List.map_filterMap, List.filterMap_map]
    exact List.filterMap_congr fun l _ => (Located.scope?_bare l).symm
  rw [hbare f, hbare g, h.filter_outline]
  simp

theorem scopes (h : f.Alike g) : f.scopes.map Scope.bare = g.scopes.map Scope.bare := by
  have hnamed := h.namedScopes
  have hempty : f.namedScopes.isEmpty = g.namedScopes.isEmpty := by
    have hlength := congrArg List.length hnamed
    rw [List.length_map, List.length_map] at hlength
    rw [Bool.eq_iff_iff, List.isEmpty_iff_length_eq_zero, List.isEmpty_iff_length_eq_zero, hlength]
  rw [scopes_eq, scopes_eq, hempty]
  split
  · rw [List.map_singleton, List.map_singleton, Scope.bare, Scope.bare, Located.bare, Located.bare,
      h.root, h.size]
  · exact hnamed

theorem symm (h : f.Alike g) : g.Alike f := ⟨h.root.symm, h.size.symm⟩

theorem exists_scope (h : f.Alike g) {s : Scope} (hs : s ∈ f.scopes) :
    ∃ s' ∈ g.scopes, s.bare = s'.bare := by
  have hmem : s.bare ∈ g.scopes.map Scope.bare := h.scopes ▸ List.mem_map_of_mem hs
  obtain ⟨s', hs', hbare⟩ := List.mem_map.mp hmem
  exact ⟨s', hs', hbare.symm⟩

variable {s s' : Scope}

theorem scopeImports (h : f.Alike g) (hs : s.bare = s'.bare) :
    f.scopeImports s = g.scopeImports s' := by
  have hnumber : s.home.number = s'.home.number := congrArg (·.home.number) hs
  have hbare (file : SourceFile) (s : Scope) : file.scopeImports s =
      ((file.scopeUses s).map Located.bare).flatMap fun l => l.statement.importItems?.getD [] := by
    rw [SourceFile.scopeImports, List.flatMap_map]
    congr 1
    funext l
    exact congrArg (·.getD []) (Statement.importItems?_bare l.statement).symm
  rw [hbare f, hbare g, scopeUses, scopeUses, hnumber, h.filter_outline]
  intro l
  have hstatement : l.bare.statement = l.statement.bare := rfl
  rw [Located.parent?_bare, hstatement, Statement.importItems?_bare]

theorem scopeNames (h : f.Alike g) (hs : s.bare = s'.bare) : f.scopeNames s = g.scopeNames s' := by
  have hnumber : s.home.number = s'.home.number := congrArg (·.home.number) hs
  have hcontains : s.containsToken = s'.containsToken := by
    funext index
    exact congrArg (·.containsToken index) hs
  have hbare (file : SourceFile) (s : Scope) : file.scopeNames s =
      ((file.outline.filter fun l =>
        l.isInside s.home.number && s.containsToken l.statement.first).map Located.bare).flatMap
          fun l => l.statement.kind.declaredNames := by
    rw [SourceFile.scopeNames, List.flatMap_map]
    congr 1
    funext l
    have hstatement : l.bare.statement = l.statement.bare := rfl
    rw [hstatement, Statement.bare_kind, StatementKind.declaredNames_bare]
  rw [hbare f, hbare g, hnumber, hcontains, h.filter_outline]
  intro l
  have hstatement : l.bare.statement = l.statement.bare := rfl
  rw [Located.isInside_bare, hstatement, Statement.bare_first]

theorem context (h : f.Alike g) (hs : s.bare = s'.bare) : f.context s = g.context s' := by
  have hspace : s.space? = s'.space? := congrArg (·.space?) hs
  rw [SourceFile.context, SourceFile.context, h.scopeImports hs, h.scopeNames hs, hspace]

end Alike
end SourceFile
end NamespaceMigration
