import NamespaceMigration.Proofs.Planning.Decisions
import NamespaceMigration.Proofs.Statements.Everywhere

/-! Nothing is forgotten: if a file has declarations to migrate and nothing that stands in the way, then
whatever any of its statements declares, at any depth, belongs to one of them. -/
namespace NamespaceMigration

theorem exists_last_of_not_all {α : Type} {p : α → Bool} {l : List α} (h : l.all p = false) :
    ∃ before a after, l = before ++ a :: after ∧ p a = false ∧ after.all p := by
  induction l with
  | nil => cases h
  | cons a l ih =>
    by_cases hl : l.all p
    · rw [List.all_cons, hl, Bool.and_true] at h
      exact ⟨[], a, l, rfl, h, hl⟩
    · obtain ⟨before, b, after, rfl, hb, hafter⟩ := ih (Bool.not_eq_true _ ▸ hl)
      exact ⟨a :: before, b, after, rfl, hb, hafter⟩

namespace Level

/-- Declarations right inside are declarations of the file. -/
def isOpen (level : Level) : Bool :=
  match level.statement.kind with
  | .sourceFile | .space .. | .declare _ true => true
  | _ => false

def isConditional (level : Level) : Bool :=
  match level.statement.kind with
  | .conditional => true
  | _ => false

/-- The statement of a level, given the levels above it. -/
def located (level : Level) (outer : List Level) : Located :=
  ⟨level.number, level.statement, outer⟩

theorem isConditional_of_holds {level : Level} (h : level.statement.kind.Holds)
    (hopen : level.isOpen = false) : level.isConditional := by
  revert h hopen
  rw [isOpen, isConditional]
  cases level.statement.kind with
  | conditional => exact fun _ _ => rfl
  | declare directives block =>
    cases block with
    | true => exact fun _ h => nomatch h
    | false => exact fun h => False.elim h
  | sourceFile | space => exact fun _ h => nomatch h
  | _ => exact fun h => False.elim h

end Level

namespace Located

theorem isTopLevel_eq (l : Located) : l.isTopLevel = l.above.all Level.isOpen := rfl

theorem takeWhile_above {l : Located} (h : l.Descending) {inner outer : List Level} {level : Level}
    (habove : l.above = inner ++ level :: outer) :
    l.above.takeWhile (·.number != level.number) = inner := by
  have hdescending := (List.pairwise_cons.mp h).2
  rw [habove, List.map_append, List.pairwise_append] at hdescending
  have hnumbers : ∀ next ∈ inner, (next.number != level.number) = true := fun next hnext => by
    have hlt := hdescending.2.2 next.number (List.mem_map_of_mem hnext) level.number
      (List.mem_cons_self)
    exact bne_iff_ne.mpr (Nat.ne_of_gt hlt)
  rw [habove, List.takeWhile_append_of_pos hnumbers, List.takeWhile_cons_of_neg (by simp),
    List.append_nil]

theorem isBranchOf_of_above {l : Located} (h : l.Descending) {inner outer : List Level} {level : Level}
    (habove : l.above = inner ++ level :: outer) (hinner : inner.all Level.isConditional) :
    l.isBranchOf (level.located outer) := by
  have hshort : inner.length < l.above.length := by
    rw [habove, List.length_append, List.length_cons]
    omega
  change (decide ((l.above.takeWhile (·.number != level.number)).length < l.above.length) &&
    (l.above.takeWhile (·.number != level.number)).all Level.isConditional) = true
  rw [takeWhile_above h habove, hinner, Bool.and_true, decide_eq_true_eq]
  exact hshort

variable {l : Located} {kind : DeclarationKind} {names : List (DeclarationKind × QualifiedName)}

theorem kind_of_declared (h : l.declared? = some (kind, names)) :
    (∃ k name token, l.statement.kind = .classLike k name token) ∨
      (∃ name token, l.statement.kind = .function name token) ∨
        ∃ names, l.statement.kind = .constants names := by
  rw [declared?] at h
  split at h
  · rename_i hkind
    exact Or.inl ⟨_, _, _, hkind⟩
  · rename_i hkind
    exact Or.inr (Or.inl ⟨_, _, hkind⟩)
  · rename_i hkind
    exact Or.inr (Or.inr ⟨_, hkind⟩)
  · cases h

end Located

namespace SourceFile

variable {f : SourceFile} {l : Located} {kind : DeclarationKind}
  {names : List (DeclarationKind × QualifiedName)}

theorem declarationAt_of_declared (h : l.declared? = some (kind, names)) :
    f.declarationAt l = .ok (some ⟨l, kind, names, []⟩) := by
  rw [declarationAt, h]
  rcases Located.kind_of_declared h with ⟨_, _, _, hkind⟩ | ⟨_, _, hkind⟩ | ⟨_, hkind⟩ <;> rw [hkind]

theorem branchPart_of_declared (h : l.declared? = some (kind, names)) :
    f.branchPart l = .names names := by
  rw [branchPart, h]
  rcases Located.kind_of_declared h with ⟨_, _, _, hkind⟩ | ⟨_, _, hkind⟩ | ⟨_, hkind⟩ <;> rw [hkind]

theorem branchPart_of_holds (h : l.statement.kind.Holds) (hcondition : l.statement.kind ≠ .conditional) :
    f.branchPart l = .trouble (f.unexpected l) := by
  revert h hcondition
  rw [branchPart, Located.declared?]
  cases l.statement.kind with
  | conditional => exact fun _ hcondition => absurd rfl hcondition
  | declare directives block =>
    cases block with
    | true => exact fun _ _ => rfl
    | false => exact fun h => False.elim h
  | sourceFile | space => exact fun _ _ => rfl
  | _ => exact fun h => False.elim h

theorem conditionalDeclaration_eq_ok {condition : Located} {d : Declaration}
    (h : f.conditionalDeclaration condition = .ok d) (hl : l ∈ f.outline)
    (hbranch : l.isBranchOf condition) :
    (∀ e, f.branchPart l ≠ .trouble e) ∧
      ∀ names, f.branchPart l = .names names → names ⊆ d.names := by
  have hpart : f.branchPart l ∈ (f.outline.filter (·.isBranchOf condition)).map f.branchPart :=
    List.mem_map_of_mem (List.mem_filter.mpr ⟨hl, hbranch⟩)
  rw [conditionalDeclaration] at h
  split at h
  · rename_i hfine
    cases h
    constructor
    · intro e htrouble
      rw [List.isEmpty_iff, List.filterMap_eq_nil_iff] at hfine
      have hnone := hfine _ hpart
      rw [htrouble] at hnone
      cases hnone
    · intro names hnames entry hentry
      refine List.mem_flatMap.mpr ⟨_, hpart, ?_⟩
      rw [hnames]
      exact hentry
  · cases h

theorem declarationAt_error_ne_nil {errors : List PlanError} (h : f.declarationAt l = .error errors) :
    errors ≠ [] := by
  rw [declarationAt] at h
  split at h
  any_goals cases h
  · have hcondition := map_eq_error h
    rw [conditionalDeclaration] at hcondition
    split at hcondition
    · cases hcondition
    · rename_i hsome
      cases hcondition
      exact fun hnil => hsome (List.isEmpty_iff.mpr hnil)
  · split at h
    · cases h
    · cases h
      exact List.cons_ne_nil _ _

theorem declarations_error_ne_nil {errors : List PlanError} (h : f.declarations = .error errors) :
    errors ≠ [] := by
  rw [SourceFile.declarations] at h
  split at h
  · cases h
  · rename_i hsome
    cases h
    exact fun hnil => hsome (List.isEmpty_iff.mpr hnil)

variable {declarations : List Declaration}

/-- Every statement of the file itself is fine, and what it declares is one of the declarations. -/
theorem declarationAt_of_declarations (h : f.declarations = .ok declarations) (hl : l ∈ f.outline.tail)
    (htop : l.isTopLevel) :
    ∃ found?, f.declarationAt l = .ok found? ∧ ∀ d ∈ found?, d ∈ declarations := by
  have hfound : f.declarationAt l ∈ (f.outline.tail.filter Located.isTopLevel).map f.declarationAt :=
    List.mem_map_of_mem (List.mem_filter.mpr ⟨hl, htop⟩)
  rw [SourceFile.declarations] at h
  split at h
  · rename_i hfine
    cases h
    rw [List.isEmpty_iff, List.flatMap_eq_nil_iff] at hfine
    cases hat : f.declarationAt l with
    | error errors =>
      have hnil := hfine _ hfound
      rw [hat] at hnil
      exact absurd hnil (declarationAt_error_ne_nil hat)
    | ok found? =>
      refine ⟨found?, rfl, fun d hd => List.mem_filterMap.mpr ⟨_, hfound, ?_⟩⟩
      rw [hat]
      exact hd
  · cases h

theorem mem_tail_of_ne {t : Text} {l : Located} (hl : l ∈ (parse t).outline)
    (hkind : l.statement.kind ≠ .sourceFile) : l ∈ (parse t).outline.tail := by
  have hroot : (parse t).outline =
      ⟨0, (parse t).root, []⟩ :: (parse t).outline.tail := rfl
  rw [hroot] at hl
  rcases List.mem_cons.mp hl with rfl | hl
  · exact absurd rfl hkind
  · exact hl

/-- A statement that is not one of the file itself stands in a branch of a condition that is one, and
that condition is one of the declarations. -/
theorem exists_condition {t : Text} (h : (parse t).declarations = .ok declarations)
    (hl : l ∈ (parse t).outline) (htop : l.isTopLevel = false) : ∃ inner level outer,
      l.above = inner ++ level :: outer ∧ l.isBranchOf (level.located outer) ∧
        level.located outer ∈ (parse t).outline.tail ∧ (level.located outer).isTopLevel ∧
          level.statement.kind = .conditional ∧
            ∃ d ∈ declarations, (parse t).conditionalDeclaration (level.located outer) = .ok d := by
  -- It is the outermost statement around it that is not open.
  rw [Located.isTopLevel_eq] at htop
  obtain ⟨inner, level, outer, habove, hlevel, houter⟩ := exists_last_of_not_all htop
  obtain ⟨hmem, hchildren⟩ := rooted hl level outer ⟨inner, habove.symm⟩
  have hcondition := Level.isConditional_of_holds (outline_holds hmem hchildren) hlevel
  have hkind : level.statement.kind = .conditional := by
    rw [Level.isConditional] at hcondition
    split at hcondition
    · assumption
    · cases hcondition
  have htail := mem_tail_of_ne (l := level.located outer) hmem (by simp [Level.located, hkind])
  obtain ⟨found?, hat, hfound⟩ := declarationAt_of_declarations h htail houter
  rw [declarationAt, show (level.located outer).statement.kind = .conditional from hkind] at hat
  obtain ⟨d, hd, rfl⟩ := map_eq_ok hat
  -- Between the two there are conditions only: nothing else with statements inside may stand there.
  have hinner : inner.all Level.isConditional := by
    by_contra hnot
    rw [Bool.not_eq_true] at hnot
    obtain ⟨before, next, after, rfl, hnext, hafter⟩ := exists_last_of_not_all hnot
    have hsuffix : (next :: (after ++ level :: outer)) <:+ l.above :=
      ⟨before, by rw [habove, List.append_assoc, List.cons_append]⟩
    obtain ⟨hmemNext, hchildrenNext⟩ := rooted hl next _ hsuffix
    have hholds := outline_holds hmemNext hchildrenNext
    have hbranch : (next.located (after ++ level :: outer)).isBranchOf (level.located outer) :=
      Located.isBranchOf_of_above (descending hmemNext) rfl hafter
    refine (conditionalDeclaration_eq_ok hd hmemNext hbranch).1 _
      (branchPart_of_holds hholds fun hconditional => ?_)
    rw [Level.isConditional, hconditional] at hnext
    cases hnext
  exact ⟨inner, level, outer, habove, Located.isBranchOf_of_above (descending hl) habove hinner, htail,
    houter, hkind, d, hfound d rfl, hd⟩

/-- Every declared name of a file belongs to one of its declarations. -/
theorem mem_names_of_declared {t : Text} (h : (parse t).declarations = .ok declarations)
    (hl : l ∈ (parse t).outline) (hdeclared : l.declared? = some (kind, names)) :
    ∃ d ∈ declarations, names ⊆ d.names := by
  cases htop : l.isTopLevel with
  | true =>
    have hkind : l.statement.kind ≠ .sourceFile := by
      rcases Located.kind_of_declared hdeclared with ⟨_, _, _, hkind⟩ | ⟨_, _, hkind⟩ | ⟨_, hkind⟩ <;>
        simp [hkind]
    obtain ⟨found?, hat, hmem⟩ := declarationAt_of_declarations h (mem_tail_of_ne hl hkind) htop
    rw [declarationAt_of_declared hdeclared] at hat
    cases hat
    exact ⟨_, hmem _ rfl, fun _ hentry => hentry⟩
  | false =>
    obtain ⟨_, _, _, -, hbranch, -, -, -, d, hd, hcondition⟩ := exists_condition h hl htop
    exact ⟨d, hd, (conditionalDeclaration_eq_ok hcondition hl hbranch).2 names
      (branchPart_of_declared hdeclared)⟩

end SourceFile
end NamespaceMigration
