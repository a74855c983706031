import NamespaceMigration.Name.Scope
import NamespaceMigration.Proofs.Relocation.Shapeless
import NamespaceMigration.Proofs.Statements.Tree

/-! The names that a statement declares with everything inside it. Those of a scope are the names of the
statements directly inside it. -/
namespace NamespaceMigration

mutual

/-- What a statement declares, and the statements inside it. -/
def Statement.names : Statement → List (SymbolKind × Text)
  | ⟨kind, _, _, _, children⟩ => kind.declaredNames ++ Statement.namesAll children

def Statement.namesAll : List Statement → List (SymbolKind × Text)
  | [] => []
  | s :: ss => s.names ++ Statement.namesAll ss

end

theorem Statement.namesAll_eq (ss : List Statement) : namesAll ss = ss.flatMap names := by
  induction ss with
  | nil => rfl
  | cons s ss ih => rw [namesAll, ih, List.flatMap_cons]

theorem StatementKind.declaredNames_move (shift : Nat) (kind : StatementKind) :
    (kind.move shift).declaredNames = kind.declaredNames := by
  cases kind with
  | constants names =>
    change (names.map fun entry => (entry.1, shift + entry.2)).map (fun entry => (_, entry.1)) =
      names.map fun entry => (SymbolKind.constant, entry.1)
    rw [List.map_map]
    rfl
  | _ => rfl

mutual

theorem Statement.names_move (shift : Nat) (s : Statement) : (s.move shift).names = s.names := by
  match s with
  | ⟨kind, first, stop, doc?, children⟩ =>
    rw [move, names, names, StatementKind.declaredNames_move, Statement.namesAll_move]

theorem Statement.namesAll_move (shift : Nat) (ss : List Statement) :
    Statement.namesAll (ss.map (Statement.move shift)) = Statement.namesAll ss := by
  match ss with
  | [] => rfl
  | s :: ss =>
    rw [List.map_cons, namesAll, namesAll, Statement.names_move shift s, Statement.namesAll_move]

end

/-- The names that the statements of an outline declare. -/
def declaredNames (ls : List Located) : List (SymbolKind × Text) :=
  ls.flatMap fun l => l.statement.kind.declaredNames

mutual

theorem declaredNames_outline (above : List Level) (number : Nat) (s : Statement) :
    declaredNames (outline above number s) = s.names := by
  match s with
  | ⟨kind, first, stop, doc?, children⟩ =>
    rw [outline, declaredNames, List.flatMap_cons, Statement.names]
    exact congrArg _ (declaredNames_outlineAll above number _ [] (number + 1) children)

theorem declaredNames_outlineAll (above : List Level) (number : Nat) (parent : Statement)
    (earlier : List Statement) (next : Nat) (later : List Statement) :
    declaredNames (outlineAll above number parent earlier next later) = Statement.namesAll later := by
  match later with
  | [] => rfl
  | s :: later =>
    rw [outlineAll, declaredNames, List.flatMap_append, Statement.namesAll]
    exact congrArg₂ _ (declaredNames_outline _ next s) (declaredNames_outlineAll _ _ _ _ _ later)

end

mutual

theorem outline_levels (above : List Level) (number : Nat) (s : Statement) :
    ∀ l ∈ outline above number s, ∀ level ∈ l.above, level ∈ above ∨
      number ≤ level.number ∧ level.number < number + (outline above number s).length := by
  match s with
  | ⟨kind, first, stop, doc?, children⟩ =>
    intro l hl level hlevel
    rw [outline, List.mem_cons] at hl
    rw [outline, List.length_cons]
    rcases hl with rfl | hl
    · exact Or.inl hlevel
    · rcases outlineAll_levels above number _ [] (number + 1) children l hl level hlevel with
        habove | hnumber | ⟨hle, hlt⟩
      · exact Or.inl habove
      · exact Or.inr (by omega)
      · exact Or.inr (by omega)

theorem outlineAll_levels (above : List Level) (number : Nat) (parent : Statement)
    (earlier : List Statement) (next : Nat) (later : List Statement) :
    ∀ l ∈ outlineAll above number parent earlier next later, ∀ level ∈ l.above, level ∈ above ∨
      level.number = number ∨ next ≤ level.number ∧
        level.number < next + (outlineAll above number parent earlier next later).length := by
  match later with
  | [] => simp [outlineAll]
  | s :: later =>
    intro l hl level hlevel
    rw [outlineAll, List.mem_append] at hl
    rw [outlineAll, List.length_append]
    rcases hl with hl | hl
    · rcases outline_levels _ next s l hl level hlevel with habove | ⟨hle, hlt⟩
      · rcases List.mem_cons.mp habove with rfl | habove
        · exact Or.inr (Or.inl rfl)
        · exact Or.inl habove
      · exact Or.inr (Or.inr (by omega))
    · rcases outlineAll_levels above number parent _ _ later l hl level hlevel with
        habove | hnumber | ⟨hle, hlt⟩
      · exact Or.inl habove
      · exact Or.inr (Or.inl hnumber)
      · exact Or.inr (Or.inr (by omega))

end

theorem filter_isInside_eq_nil {ls : List Located} {n : Nat}
    (h : ∀ l ∈ ls, ∀ level ∈ l.above, level.number ≠ n) : ls.filter (·.isInside n) = [] := by
  rw [List.filter_eq_nil_iff]
  intro l hl hinside
  obtain ⟨level, hlevel, hnumber⟩ := List.any_eq_true.mp hinside
  exact h l hl level hlevel (beq_iff_eq.mp hnumber)

mutual

/-- The names of the statements of an outline that are inside one of its statements. -/
theorem declaredNames_inside (above : List Level) (number : Nat) (s : Statement)
    (habove : ∀ level ∈ above, level.number < number) :
    ∀ l ∈ outline above number s,
      declaredNames ((outline above number s).filter (·.isInside l.number)) =
        Statement.namesAll l.statement.children := by
  match s with
  | ⟨kind, first, stop, doc?, children⟩ =>
    intro l hl
    have hhere : ∀ n, number ≤ n →
        ¬(⟨number, ⟨kind, first, stop, doc?, children⟩, above⟩ : Located).isInside n := by
      intro n hn hinside
      obtain ⟨level, hlevel, hnumber⟩ := List.any_eq_true.mp hinside
      have := habove level hlevel
      rw [beq_iff_eq.mp hnumber] at this
      omega
    rw [outline, List.mem_cons] at hl
    rw [outline, List.filter_cons, if_neg (hhere l.number ?_)]
    · rcases hl with rfl | hl
      · rw [List.filter_eq_self.mpr, declaredNames_outlineAll]
        intro l' hl'
        obtain ⟨inner, earlier, hextends⟩ := outlineAll_extends above number _ [] (number + 1) children l' hl'
        rw [Located.isInside, hextends]
        simp
      · exact declaredNames_insideAll above number _ [] (number + 1) children habove
          (Nat.lt_succ_self _) l hl
    · rcases hl with rfl | hl
      · exact Nat.le_refl _
      · exact Nat.le_of_succ_le (outlineAll_numbered above number _ [] (number + 1) children l hl).1.1

theorem declaredNames_insideAll (above : List Level) (number : Nat) (parent : Statement)
    (earlier : List Statement) (next : Nat) (later : List Statement)
    (habove : ∀ level ∈ above, level.number < number) (h : number < next) :
    ∀ l ∈ outlineAll above number parent earlier next later,
      declaredNames ((outlineAll above number parent earlier next later).filter
        (·.isInside l.number)) = Statement.namesAll l.statement.children := by
  match later with
  | [] => simp [outlineAll]
  | child :: later =>
    intro l hl
    rw [outlineAll, List.mem_append] at hl
    rw [outlineAll, List.filter_append, declaredNames, List.flatMap_append]
    have habove' : ∀ level ∈ (⟨number, parent, earlier⟩ : Level) :: above, level.number < next :=
      List.forall_mem_cons.mpr ⟨h, fun level hlevel => (habove level hlevel).trans h⟩
    have hinside := outline_levels (⟨number, parent, earlier⟩ :: above) next child
    have hlater := outlineAll_levels above number parent (child :: earlier)
      (next + (outline (⟨number, parent, earlier⟩ :: above) next child).length) later
    rcases hl with hl | hl
    · -- What comes later stands in `parent` or in something that comes later.
      obtain ⟨hle, hlt⟩ := (outline_numbered _ next child l hl).1
      have hnone : (outlineAll above number parent (child :: earlier)
          (next + (outline (⟨number, parent, earlier⟩ :: above) next child).length) later).filter
            (·.isInside l.number) = [] := by
        refine filter_isInside_eq_nil fun l' hl' level hlevel hnumber => ?_
        rcases hlater l' hl' level hlevel with hmem | hparent | hbelow
        · have := habove level hmem
          omega
        · omega
        · omega
      rw [hnone, List.flatMap_nil, List.append_nil]
      exact declaredNames_inside _ next child habove' l hl
    · obtain ⟨hle, hlt⟩ := (outlineAll_numbered above number parent _ _ later l hl).1
      have hnone : (outline (⟨number, parent, earlier⟩ :: above) next child).filter
          (·.isInside l.number) = [] := by
        refine filter_isInside_eq_nil fun l' hl' level hlevel hnumber => ?_
        rcases hinside l' hl' level hlevel with hmem | hbelow
        · have := habove' level hmem
          omega
        · omega
      rw [hnone, List.flatMap_nil, List.nil_append]
      exact declaredNames_insideAll above number parent _ _ later habove (by omega) l hl

end

namespace SourceFile

variable {t : Text}

theorem first_of_isInside {l l' : Located} (hl : l ∈ (parse t).outline) (hl' : l' ∈ (parse t).outline)
    (h : l'.isInside l.number) : l.statement.first ≤ l'.statement.first ∧
      l'.statement.first < l.statement.stop := by
  obtain ⟨level, hlevel, hnumber⟩ := List.any_eq_true.mp h
  obtain ⟨init, outer, hsplit⟩ := List.append_of_mem hlevel
  have hmem := (rooted hl' level outer ⟨init, hsplit.symm⟩).1
  obtain rfl := eq_of_number hmem hl (beq_iff_eq.mp hnumber)
  obtain ⟨hfirst, hstop⟩ := inside_above hl' level hlevel
  rcases mem_outline_cases hl' with rfl | htail
  · cases hlevel
  · obtain ⟨_, _, hplaced⟩ := exists_placed htail
    have hlt := hplaced.covers.first_lt_stop (Code.ordered_ofTokens _ _)
    exact ⟨hfirst, Nat.lt_of_lt_of_le hlt hstop⟩

/-- The names of a scope that covers its statement. -/
theorem scopeNames_eq {s : Scope} (hhome : s.home ∈ (parse t).outline)
    (hfirst : s.first = s.home.statement.first) (hstop : s.stop = s.home.statement.stop) :
    (parse t).scopeNames s = s.home.statement.children.flatMap Statement.names := by
  have hfilter : ((parse t).outline.filter fun l =>
      l.isInside s.home.number && s.containsToken l.statement.first) =
        (parse t).outline.filter (·.isInside s.home.number) := by
    refine List.filter_congr fun l hl => ?_
    cases hinside : l.isInside s.home.number with
    | false => rfl
    | true =>
      obtain ⟨hle, hlt⟩ := first_of_isInside hhome hl hinside
      rw [Bool.true_and, Scope.containsToken, hfirst, hstop, decide_eq_true hle, decide_eq_true hlt,
        Bool.and_self]
  rw [← Statement.namesAll_eq, ← declaredNames_inside [] 0 (parse t).root (List.forall_mem_nil _) s.home
    hhome]
  exact congrArg declaredNames hfilter

end SourceFile
end NamespaceMigration
