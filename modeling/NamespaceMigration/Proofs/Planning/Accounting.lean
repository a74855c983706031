import Mathlib.Data.List.Nodup
import Mathlib.Data.List.Perm.Basic
import Mathlib.Data.List.TakeWhile
import NamespaceMigration.Plan.Project
import NamespaceMigration.Proofs.Planning.Coverage
import NamespaceMigration.Proofs.Statements.Tree

/-! A plan accounts for all code of its file. What the statements of the file declare, at any depth, is what
its decisions are about, name by name, and what is outside of them may be left out. -/
namespace NamespaceMigration

/-- The names that a statement gives: those it declares, in the namespace around it, and the one that a
call of `define` is known to give a constant. -/
def Located.givenNames (l : Located) : List (DeclarationKind × QualifiedName) :=
  match l.statement.kind with
  | .classLike kind name _ => [(.classLike kind, .join l.space? name)]
  | .function name _ => [(.function, .join l.space? name)]
  | .constants names => names.map fun entry => (.constant, .join l.space? entry.1)
  | .define (some name) => [(.constant, .ofText name)]
  | _ => []

/-- What a file may hold outside its declarations. -/
def StatementKind.MayBeLeftOut : StatementKind → Prop
  | .space .. | .declare .. | .imports _ | .empty | .html true => True
  | _ => False

/-- All names of a declaration, with the constants that it defines at run time. -/
def Declaration.allNames (d : Declaration) : List (DeclarationKind × QualifiedName) :=
  d.names ++ d.runtimeNames.map fun name => (.constant, name)

theorem PlanConfig.components_allNames (c : PlanConfig) (d : Declaration) :
    (c.components d).map (fun k => (k.kind, k.old)) = d.allNames := by
  rw [components, Declaration.allNames, List.map_append, List.map_map, List.map_map]
  congr 1
  exact (List.map_congr_left fun _ _ => rfl).trans (List.map_id _)

namespace Located

variable {l : Located} {kind : DeclarationKind} {names : List (DeclarationKind × QualifiedName)}

theorem givenNames_of_declared (h : l.declared? = some (kind, names)) : l.givenNames = names := by
  rw [declared?] at h
  rw [givenNames]
  split at h <;> rename_i hkind
  · rw [hkind]
    cases h
    rfl
  · rw [hkind]
    cases h
    rfl
  · rw [hkind]
    cases h
    rfl
  · cases h

end Located

namespace SourceFile

variable {f : SourceFile} {l : Located}

namespace BranchPart

def named : BranchPart → List (DeclarationKind × QualifiedName)
  | .names found => found
  | _ => []

def defined : BranchPart → List (DeclarationKind × QualifiedName)
  | .runtime name => [(.constant, name)]
  | _ => []

end BranchPart

theorem givenNames_of_branchPart (h : ∀ e, f.branchPart l ≠ .trouble e) :
    (f.branchPart l).named ++ (f.branchPart l).defined = l.givenNames := by
  cases hdeclared : l.declared? with
  | some found =>
    obtain ⟨kind, names⟩ := found
    rw [branchPart_of_declared hdeclared, Located.givenNames_of_declared hdeclared]
    exact List.append_nil names
  | none =>
    have hnone : l.declared? = none := hdeclared
    rw [branchPart, hdeclared] at h ⊢
    rw [Located.declared?] at hnone
    rw [Located.givenNames]
    revert h hnone
    cases l.statement.kind with
    | classLike | function | constants =>
      intro _ hnone
      cases hnone
    | define name? =>
      cases name? with
      | some name => exact fun _ _ => rfl
      | none => exact fun h _ => absurd rfl (h _)
    | declare directives block =>
      cases block with
      | true => exact fun h _ => absurd rfl (h _)
      | false => exact fun _ _ => rfl
    | html blank =>
      cases blank with
      | true => exact fun _ _ => rfl
      | false => exact fun h _ => absurd rfl (h _)
    | sourceFile | space | other => exact fun h _ => absurd rfl (h _)
    | _ => exact fun _ _ => rfl

/-- A condition is about what the statements in its branches give. -/
theorem allNames_of_condition {condition : Located} {d : Declaration}
    (h : f.conditionalDeclaration condition = .ok d) :
    d.allNames.Perm ((f.outline.filter (·.isBranchOf condition)).flatMap Located.givenNames) := by
  have hgiven : (f.outline.filter (·.isBranchOf condition)).flatMap Located.givenNames =
      (f.outline.filter (·.isBranchOf condition)).flatMap fun l =>
        (f.branchPart l).named ++ (f.branchPart l).defined := by
    refine List.flatMap_congr fun l hl => ?_
    obtain ⟨hmem, hbranch⟩ := List.mem_filter.mp hl
    exact (givenNames_of_branchPart (conditionalDeclaration_eq_ok h hmem hbranch).1).symm
  rw [hgiven]
  refine List.Perm.trans (.of_eq ?_) (List.flatMap_append_perm _ _ _)
  rw [conditionalDeclaration] at h
  split at h
  · cases h
    rw [Declaration.allNames, List.flatMap_map, List.filterMap_map, List.map_filterMap]
    congr 1
    refine (List.filterMap_eq_flatMap_toList _ _).trans (List.flatMap_congr fun l _ => ?_)
    rw [Function.comp_apply]
    cases f.branchPart l <;> rfl
  · cases h

/-- The statements that a declaration at a statement is about: that one, and those in the branches of a
condition. -/
def belonging (f : SourceFile) (l : Located) : List Located :=
  l :: if l.isConditional then f.outline.filter (·.isBranchOf l) else []

theorem mem_belonging {l m : Located} :
    m ∈ f.belonging l ↔ m = l ∨ l.isConditional ∧ m ∈ f.outline ∧ m.isBranchOf l := by
  rw [belonging, List.mem_cons]
  split
  · rename_i hcondition
    simp [hcondition]
  · rename_i hplain
    simp [hplain]

theorem exists_level_of_branch {condition m : Located} (hm : m ∈ f.outline)
    (hcondition : condition ∈ f.outline) (h : m.isBranchOf condition) :
    ∃ inner level outer, m.above = inner ++ level :: outer ∧ level.located outer = condition := by
  rw [Located.isBranchOf, Bool.and_eq_true, decide_eq_true_eq] at h
  obtain ⟨level, hlevel, hnumber⟩ : ∃ level ∈ m.above, level.number = condition.number := by
    by_contra! hnone
    rw [List.takeWhile_eq_self_iff.mpr fun level hlevel => bne_iff_ne.mpr (hnone level hlevel)] at h
    exact Nat.lt_irrefl _ h.1
  obtain ⟨inner, outer, habove⟩ := List.append_of_mem hlevel
  exact ⟨inner, level, outer, habove,
    eq_of_number (rooted hm level outer ⟨inner, habove.symm⟩).1 hcondition hnumber⟩

/-- There is one outermost level that is not open. -/
theorem outermost_unique {inner inner' outer outer' : List Level} {level level' : Level}
    (heq : inner ++ level :: outer = inner' ++ level' :: outer') (hlevel : level.isOpen = false)
    (hlevel' : level'.isOpen = false) (houter : outer.all Level.isOpen)
    (houter' : outer'.all Level.isOpen) : level = level' ∧ outer = outer' := by
  have hopen {between rest : List Level} {next : Level} (hnext : next.isOpen = false) :
      (between ++ next :: rest).all Level.isOpen = false := by
    simp [hnext]
  rcases List.append_eq_append_iff.mp heq with ⟨between, -, hrest⟩ | ⟨between, -, hrest⟩
  · cases between with
    | nil => exact List.cons.inj hrest
    | cons _ between =>
      obtain ⟨-, rfl⟩ := List.cons.inj hrest
      exact nomatch houter.symm.trans (hopen hlevel')
  · cases between with
    | nil =>
      obtain ⟨hlevels, houters⟩ := List.cons.inj hrest
      exact ⟨hlevels.symm, houters.symm⟩
    | cons _ between =>
      obtain ⟨-, rfl⟩ := List.cons.inj hrest
      exact nomatch houter'.symm.trans (hopen hlevel)

theorem isOpen_of_isConditional {level : Level} (h : level.isConditional) : level.isOpen = false := by
  rw [Level.isConditional] at h
  rw [Level.isOpen]
  split at h
  · rename_i hkind
    rw [hkind]
  · cases h

theorem exists_level_of_belonging {l m : Located} (hl : l ∈ f.outline) (htop : l.isTopLevel)
    (hm : m ∈ f.belonging l) : m = l ∨ ∃ inner level outer, m.above = inner ++ level :: outer ∧
      level.located outer = l ∧ level.isOpen = false ∧ outer.all Level.isOpen := by
  rcases mem_belonging.mp hm with rfl | ⟨hcondition, hmem, hbranch⟩
  · exact Or.inl rfl
  · obtain ⟨inner, level, outer, habove, rfl⟩ := exists_level_of_branch hmem hl hbranch
    exact Or.inr ⟨inner, level, outer, habove, rfl, isOpen_of_isConditional hcondition, htop⟩

theorem eq_of_belonging {l l' m : Located} (hl : l ∈ f.outline) (hl' : l' ∈ f.outline)
    (htop : l.isTopLevel) (htop' : l'.isTopLevel) (hm : m ∈ f.belonging l) (hm' : m ∈ f.belonging l') :
    l = l' := by
  have hclosed {inner outer : List Level} {level : Level} (habove : m.above = inner ++ level :: outer)
      (hlevel : level.isOpen = false) : m.isTopLevel = false := by
    rw [Located.isTopLevel_eq, habove]
    simp [hlevel]
  rcases exists_level_of_belonging hl htop hm with rfl | ⟨_, _, _, habove, rfl, hlevel, houter⟩
  · rcases exists_level_of_belonging hl' htop' hm' with rfl | ⟨_, _, _, habove', -, hlevel', -⟩
    · rfl
    · exact nomatch htop.symm.trans (hclosed habove' hlevel')
  · rcases exists_level_of_belonging hl' htop' hm' with rfl | ⟨_, _, _, habove', rfl, hlevel', houter'⟩
    · exact nomatch htop'.symm.trans (hclosed habove hlevel)
    · obtain ⟨rfl, rfl⟩ := outermost_unique (habove.symm.trans habove') hlevel hlevel' houter houter'
      rfl

theorem nodup_belonging {l : Located} (hl : l ∈ f.outline) : (f.belonging l).Nodup := by
  rw [belonging, List.nodup_cons]
  split
  · refine ⟨fun hself => ?_, f.nodup_outline.filter _⟩
    obtain ⟨hmem, hbranch⟩ := List.mem_filter.mp hself
    obtain ⟨inner, level, outer, habove, hlevel⟩ := exists_level_of_branch hmem hl hbranch
    -- It would be the statement of a level above itself, and have a smaller number than itself.
    have hdescending := (List.pairwise_cons.mp (descending hl)).1
    have hlt := hdescending level.number (List.mem_map_of_mem (habove ▸ by simp))
    rw [← hlevel] at hlt
    exact Nat.lt_irrefl _ hlt
  · exact ⟨List.not_mem_nil, List.nodup_nil⟩

variable {t : Text} {declarations : List Declaration}

/-- If a file has declarations, each of its statements belongs to one statement of the file itself. -/
theorem belonging_perm (h : (parse t).declarations = .ok declarations) :
    (((parse t).outline.tail.filter Located.isTopLevel).flatMap (parse t).belonging).Perm
      (parse t).outline.tail := by
  have hfiltered {l : Located} (hl : l ∈ (parse t).outline.tail.filter Located.isTopLevel) :
      l ∈ (parse t).outline ∧ l.isTopLevel :=
    ⟨List.mem_of_mem_tail (List.mem_filter.mp hl).1, (List.mem_filter.mp hl).2⟩
  have htail : (parse t).outline.tail.Nodup := (nodup_outline _).sublist (List.tail_sublist _)
  have hnodup : (((parse t).outline.tail.filter Located.isTopLevel).flatMap
      (parse t).belonging).Nodup := by
    refine List.nodup_flatMap.mpr ⟨fun l hl => nodup_belonging (hfiltered hl).1,
      (htail.filter _).pairwise_of_forall_ne fun l hl l' hl' hne m hm hm' => hne ?_⟩
    exact eq_of_belonging (hfiltered hl).1 (hfiltered hl').1 (hfiltered hl).2 (hfiltered hl').2 hm hm'
  refine (List.perm_ext_iff_of_nodup hnodup htail).mpr fun m => ⟨fun hm => ?_, fun hm => ?_⟩
  · obtain ⟨l, hl, hbelongs⟩ := List.mem_flatMap.mp hm
    rcases mem_belonging.mp hbelongs with rfl | ⟨-, hmem, hbranch⟩
    · exact (List.mem_filter.mp hl).1
    · rcases mem_outline_cases hmem with rfl | hmem
      · exact nomatch hbranch
      · exact hmem
  · cases htop : m.isTopLevel with
    | true =>
      exact List.mem_flatMap.mpr ⟨m, List.mem_filter.mpr ⟨hm, htop⟩, mem_belonging.mpr (Or.inl rfl)⟩
    | false =>
      have hmem := List.mem_of_mem_tail hm
      obtain ⟨_, level, outer, -, hbranch, hcondition, houter, hkind, -⟩ := exists_condition h hmem htop
      refine List.mem_flatMap.mpr ⟨_, List.mem_filter.mpr ⟨hcondition, houter⟩,
        mem_belonging.mpr (Or.inr ⟨?_, hmem, hbranch⟩)⟩
      rw [Located.isConditional, show (level.located outer).statement.kind = .conditional from hkind]

/-- What may stand at a statement of the file itself: nothing, if it may be left out, a condition, or what
the statement declares. -/
theorem declarationAt_eq_ok {l : Located} {found? : Option Declaration}
    (h : f.declarationAt l = .ok found?) :
    (found? = none ∧ l.statement.kind.MayBeLeftOut) ∨
      (∃ d, found? = some d ∧ l.statement.kind = .conditional ∧ f.conditionalDeclaration l = .ok d) ∨
        ∃ kind names, found? = some ⟨l, kind, names, []⟩ ∧ l.declared? = some (kind, names) := by
  rw [declarationAt] at h
  split at h
  case h_6 hkind =>
    obtain ⟨d, hd, heq⟩ := map_eq_ok h
    exact Or.inr (Or.inl ⟨d, heq.symm, hkind, hd⟩)
  case h_7 =>
    split at h
    · rename_i kind names hdeclared
      exact Or.inr (Or.inr ⟨kind, names, (Except.ok.inj h).symm, hdeclared⟩)
    · cases h
  all_goals
    rename_i hkind
    rw [hkind]
    exact Or.inl ⟨(Except.ok.inj h).symm, trivial⟩

theorem isConditional_iff {l : Located} : l.isConditional ↔ l.statement.kind = .conditional := by
  rw [Located.isConditional]
  cases l.statement.kind <;> simp

theorem givenNames_of_mayBeLeftOut {l : Located} (h : l.statement.kind.MayBeLeftOut) :
    l.givenNames = [] := by
  revert h
  rw [Located.givenNames]
  cases l.statement.kind with
  | space | declare | imports | empty | html => exact fun _ => rfl
  | _ => exact fun h => False.elim h

/-- A declaration at a statement is about what the statements belonging to it give. -/
theorem allNames_of_declarationAt {l : Located} {found? : Option Declaration}
    (h : f.declarationAt l = .ok found?) :
    (found?.toList.flatMap Declaration.allNames).Perm ((f.belonging l).flatMap Located.givenNames) := by
  rcases declarationAt_eq_ok h with ⟨rfl, hout⟩ | ⟨d, rfl, hkind, hd⟩ | ⟨kind, names, rfl, hdeclared⟩
  · have hplain : ¬ l.isConditional := fun hcondition => by
      rw [isConditional_iff.mp hcondition] at hout
      exact hout
    rw [belonging, if_neg hplain, List.flatMap_singleton, givenNames_of_mayBeLeftOut hout]
    exact List.Perm.refl _
  · have hgiven : l.givenNames = [] := by rw [Located.givenNames, hkind]
    rw [belonging, if_pos (isConditional_iff.mpr hkind), List.flatMap_cons, hgiven]
    simpa using allNames_of_condition hd
  · have hplain : ¬ l.isConditional := fun hcondition => by
      rw [Located.declared?, isConditional_iff.mp hcondition] at hdeclared
      cases hdeclared
    rw [belonging, if_neg hplain, List.flatMap_singleton, Located.givenNames_of_declared hdeclared]
    simp [Declaration.allNames]

theorem isOpen_of_declarationAt {l : Located} {d : Declaration}
    (h : f.declarationAt l = .ok (some d)) {level : Level} (hlevel : level.statement = l.statement) :
    level.isOpen = false := by
  rw [Level.isOpen, hlevel]
  rcases declarationAt_eq_ok h with ⟨hnone, -⟩ | ⟨_, -, hkind, -⟩ | ⟨_, _, -, hdeclared⟩
  · cases hnone
  · rw [hkind]
  · rcases Located.kind_of_declared hdeclared with ⟨_, _, _, hkind⟩ | ⟨_, _, hkind⟩ | ⟨_, hkind⟩ <;>
      rw [hkind]

/-- Decisions that leave no code of a file out. -/
structure IsAccountedBy (f : SourceFile) (decisions : List Decision) : Prop where
  /-- The decisions are about the names that the statements of the file give, at any depth, each as often
  as it is given. -/
  names : ((decisions.flatMap (·.components)).map fun k => (k.kind, k.old)).Perm
    (f.outline.flatMap Located.givenNames)
  nonempty : ∀ d ∈ decisions, d.tokens.first < d.tokens.stop
  apart : decisions.Pairwise fun d e => d.tokens.stop ≤ e.tokens.first
  /-- A statement is inside one of them, or it may be left out. -/
  outside : ∀ l ∈ f.outline.tail, (∃ d ∈ decisions, d.tokens.first ≤ l.statement.first ∧
    l.statement.stop ≤ d.tokens.stop) ∨ l.statement.kind.MayBeLeftOut

theorem allNames_perm (h : (parse t).declarations = .ok declarations) :
    (declarations.flatMap Declaration.allNames).Perm
      ((parse t).outline.flatMap Located.givenNames) := by
  have hroot : (parse t).outline.flatMap Located.givenNames =
      (parse t).outline.tail.flatMap Located.givenNames := rfl
  have hfound {l : Located} (hl : l ∈ (parse t).outline.tail.filter Located.isTopLevel) :
      ∃ found?, (parse t).declarationAt l = .ok found? := by
    obtain ⟨hmem, htop⟩ := List.mem_filter.mp hl
    obtain ⟨found?, hat, -⟩ := declarationAt_of_declarations h hmem htop
    exact ⟨found?, hat⟩
  rw [hroot]
  refine List.Perm.trans ?_ ((belonging_perm h).flatMap_right Located.givenNames)
  rw [List.flatMap_assoc]
  rw [SourceFile.declarations] at h
  split at h
  · cases h
    rw [List.filterMap_map, List.filterMap_eq_flatMap_toList, List.flatMap_assoc]
    refine List.Perm.flatMap_left _ fun l hl => ?_
    obtain ⟨found?, hat⟩ := hfound hl
    rw [Function.comp_apply, hat]
    exact allNames_of_declarationAt hat
  · cases h

theorem eq_ok_of_join {α ε : Type} {result : Except ε (Option α)} {a : α}
    (h : result.toOption.join = some a) : result = .ok (some a) := by
  cases result with
  | error => cases h
  | ok found? => exact congrArg Except.ok h

/-- Declarations of a file stand one after the other. -/
theorem declarations_apart (h : (parse t).declarations = .ok declarations) :
    declarations.Pairwise fun d e => d.place.statement.stop ≤ e.place.statement.first := by
  have hapart : ((parse t).outline.tail.filter Located.isTopLevel).Pairwise
      Located.IsBeforeOrAround := (apart_parse t).filter _
  rw [SourceFile.declarations] at h
  split at h
  · cases h
    rw [List.filterMap_map]
    refine List.pairwise_filterMap.mpr (hapart.imp_of_mem fun {l l'} _ hl' hbefore d hd d' hd' => ?_)
    rw [place_of_declarationAt (eq_ok_of_join hd), place_of_declarationAt (eq_ok_of_join hd')]
    rcases hbefore with hbefore | ⟨level, hlevel, heq⟩
    · exact hbefore
    · have hopen := List.all_eq_true.mp (List.mem_filter.mp hl').2 level hlevel
      have hclosed := isOpen_of_declarationAt (eq_ok_of_join hd) heq
      exact absurd (hclosed.symm.trans (show level.isOpen = true from hopen)) Bool.false_ne_true
  · cases h

/-- A file with declarations is accounted for by the decisions made for them. -/
theorem isAccountedBy (c : PlanConfig) (h : (parse t).declarations = .ok declarations) :
    (parse t).IsAccountedBy (declarations.map ((parse t).decide c)) where
  names := by
    have hcomponents : ((declarations.map ((parse t).decide c)).flatMap (·.components)).map
        (fun k => (k.kind, k.old)) = declarations.flatMap Declaration.allNames := by
      rw [List.flatMap_map, List.map_flatMap]
      exact List.flatMap_congr fun d _ => c.components_allNames d
    rw [hcomponents]
    exact allNames_perm h
  nonempty := by
    intro d hd
    obtain ⟨declaration, hmem, rfl⟩ := List.mem_map.mp hd
    obtain ⟨l, hl, hat⟩ := mem_declarations h hmem
    have htail : l ∈ (parse t).outline.tail := mem_tail_of_ne hl fun hkind => by
      have hclosed := isOpen_of_declarationAt hat
        (show (Level.mk 0 l.statement []).statement = l.statement from rfl)
      rw [Level.isOpen, hkind] at hclosed
      cases hclosed
    obtain ⟨_, _, hplaced⟩ := exists_placed htail
    rw [← place_of_declarationAt hat] at hplaced
    exact hplaced.covers.first_lt_stop (Code.ordered_ofTokens _ _)
  apart := List.pairwise_map.mpr (declarations_apart h)
  outside := by
    intro l hl
    cases htop : l.isTopLevel with
    | true =>
      obtain ⟨found?, hat, hmem⟩ := declarationAt_of_declarations h hl htop
      cases found? with
      | none =>
        rcases declarationAt_eq_ok hat with ⟨-, hout⟩ | ⟨_, hsome, -⟩ | ⟨_, _, hsome, -⟩
        · exact Or.inr hout
        · cases hsome
        · cases hsome
      | some d =>
        have hplace := place_of_declarationAt hat
        refine Or.inl ⟨_, List.mem_map_of_mem (hmem d rfl), ?_⟩
        rw [← hplace]
        exact ⟨Nat.le_refl _, Nat.le_refl _⟩
    | false =>
      obtain ⟨_, level, outer, habove, -, -, -, -, d, hd, hcondition⟩ :=
        exists_condition h (List.mem_of_mem_tail hl) htop
      refine Or.inl ⟨_, List.mem_map_of_mem hd, ?_⟩
      have hinside := inside_above (List.mem_of_mem_tail hl) level (habove ▸ by simp)
      rw [show level.statement = (level.located outer).statement from rfl,
        ← place_of_condition hcondition] at hinside
      exact hinside

end SourceFile

namespace FilePlan

/-- A plan has errors and decides nothing, or it has none and accounts for all code of its file. -/
theorem ofText_accounts (c : PlanConfig) (path t : Text) :
    ((ofText c path t).errors ≠ [] ∧ (ofText c path t).decisions = []) ∨
      ((ofText c path t).errors = [] ∧
        (SourceFile.parse t).IsAccountedBy (ofText c path t).decisions) := by
  rw [ofText]
  dsimp only
  split
  · rename_i hsome
    refine Or.inl ⟨fun hnil => ?_, rfl⟩
    rw [List.map_eq_nil_iff.mp hnil] at hsome
    cases hsome
  · cases hdeclarations : (SourceFile.parse t).declarations with
    | ok declarations => exact Or.inr ⟨rfl, SourceFile.isAccountedBy c hdeclarations⟩
    | error errors => exact Or.inl ⟨SourceFile.declarations_error_ne_nil hdeclarations, rfl⟩

end FilePlan
end NamespaceMigration
