import NamespaceMigration.Proofs.Statements.Spans

/-! The outline of a file. Below the root it lists the statements of the file, each followed by what
is inside it; the scopes of a file are among the former. -/
namespace NamespaceMigration

mutual

theorem outline_parent (level : Level) (above : List Level) (number : Nat) (s : Statement)
    (h : level.number ≤ number) :
    ∀ l ∈ outline (level :: above) number s, ∃ m, l.parent? = some m ∧ level.number ≤ m := by
  match s with
  | ⟨kind, first, stop, doc?, children⟩ =>
    intro l hl
    rw [outline, List.mem_cons] at hl
    rcases hl with rfl | hl
    · exact ⟨level.number, rfl, Nat.le_refl _⟩
    · obtain ⟨m, hm, hle⟩ :=
        outlineAll_parent (level :: above) number _ [] (number + 1) children (Nat.le_succ _) l hl
      exact ⟨m, hm, Nat.le_trans h hle⟩

theorem outlineAll_parent (above : List Level) (number : Nat) (parent : Statement)
    (earlier : List Statement) (next : Nat) (later : List Statement) (h : number ≤ next) :
    ∀ l ∈ outlineAll above number parent earlier next later,
      ∃ m, l.parent? = some m ∧ number ≤ m := by
  match later with
  | [] => simp [outlineAll]
  | s :: later =>
    intro l hl
    rw [outlineAll, List.mem_append] at hl
    rcases hl with hl | hl
    · exact outline_parent ⟨number, parent, earlier⟩ above next s h l hl
    · exact outlineAll_parent above number parent _ _ later (Nat.le_trans h (Nat.le_add_right _ _)) l hl

end

theorem filter_outline_parent (level : Level) (above : List Level) {number : Nat} (s : Statement)
    (h : level.number < number) :
    ((outline (level :: above) number s).filter (·.parent? == some level.number)).map (·.statement) =
      [s] := by
  obtain ⟨kind, first, stop, doc?, children⟩ := s
  have hinside : ∀ l ∈ outlineAll (level :: above) number ⟨kind, first, stop, doc?, children⟩ []
      (number + 1) children, ¬(l.parent? == some level.number) := by
    intro l hl hparent
    obtain ⟨m, hm, hle⟩ := outlineAll_parent _ _ _ _ _ _ (Nat.le_succ _) l hl
    rw [beq_iff_eq, hm, Option.some.injEq] at hparent
    omega
  rw [outline, List.filter_cons_of_pos (by simp [Located.parent?]), List.filter_eq_nil_iff.mpr hinside]
  rfl

theorem filter_outlineAll_parent (above : List Level) (number : Nat) (parent : Statement)
    (later : List Statement) {earlier : List Statement} {next : Nat} (h : number < next) :
    ((outlineAll above number parent earlier next later).filter (·.parent? == some number)).map
      (·.statement) = later := by
  induction later generalizing earlier next with
  | nil => rfl
  | cons s later ih =>
    rw [outlineAll, List.filter_append, List.map_append,
      ih (Nat.lt_of_lt_of_le h (Nat.le_add_right _ _)),
      filter_outline_parent ⟨number, parent, earlier⟩ above s h]
    rfl

/-- The numbers from `first` on that `n` statements have. -/
def Located.InRange (first n : Nat) (l : Located) : Prop := first ≤ l.number ∧ l.number < first + n

/-- What stands above a statement is `parent`, or has one of the numbers. -/
def Located.Below (parent first n : Nat) (l : Located) : Prop :=
  ∃ m, l.parent? = some m ∧ (m = parent ∨ first ≤ m ∧ m < first + n)

mutual

theorem outline_numbered (above : List Level) (number : Nat) (s : Statement) :
    ∀ l ∈ outline above number s, l.InRange number (outline above number s).length ∧
      ∀ level outer, above = level :: outer →
        l.Below level.number number (outline above number s).length := by
  match s with
  | ⟨kind, first, stop, doc?, children⟩ =>
    intro l hl
    rw [outline, List.mem_cons] at hl
    rw [outline, List.length_cons]
    rcases hl with rfl | hl
    · exact ⟨⟨Nat.le_refl _, Nat.lt_add_of_pos_right (Nat.succ_pos _)⟩, fun level outer h => ⟨level.number, by rw [h]; rfl, .inl rfl⟩⟩
    · obtain ⟨⟨hle, hlt⟩, m, hm, hbelow⟩ := outlineAll_numbered above number _ [] (number + 1) children l hl
      exact ⟨⟨by omega, by omega⟩, fun level outer h => ⟨m, hm, .inr (by omega)⟩⟩

theorem outlineAll_numbered (above : List Level) (number : Nat) (parent : Statement)
    (earlier : List Statement) (next : Nat) (later : List Statement) :
    ∀ l ∈ outlineAll above number parent earlier next later,
      l.InRange next (outlineAll above number parent earlier next later).length ∧
        l.Below number next (outlineAll above number parent earlier next later).length := by
  match later with
  | [] => simp [outlineAll]
  | child :: later =>
    intro l hl
    rw [outlineAll, List.mem_append] at hl
    rw [outlineAll, List.length_append]
    rcases hl with hl | hl
    · obtain ⟨⟨hle, hlt⟩, hparent⟩ := outline_numbered (⟨number, parent, earlier⟩ :: above) next child l hl
      obtain ⟨m, hm, hbelow⟩ := hparent _ _ rfl
      dsimp only at hbelow
      exact ⟨⟨by omega, by omega⟩, m, hm, by omega⟩
    · obtain ⟨⟨hle, hlt⟩, m, hm, hbelow⟩ := outlineAll_numbered above number parent _ _ later l hl
      exact ⟨⟨by omega, by omega⟩, m, hm, by omega⟩

end

theorem filter_parent_eq_nil {ls : List Located} {n : Nat}
    (h : ∀ l ∈ ls, ∃ m, l.parent? = some m ∧ m ≠ n) : ls.filter (·.parent? == some n) = [] := by
  rw [List.filter_eq_nil_iff]
  intro l hl
  obtain ⟨m, hm, hne⟩ := h l hl
  simp [hm, hne]

mutual

/-- The statements of an outline that stand directly inside one of its statements. -/
theorem filter_outline_inside (above : List Level) (number : Nat) (s : Statement)
    (habove : ∀ level outer, above = level :: outer → level.number < number) :
    ∀ l ∈ outline above number s,
      ((outline above number s).filter (·.parent? == some l.number)).map (·.statement) =
        l.statement.children := by
  match s with
  | ⟨kind, first, stop, doc?, children⟩ =>
    intro l hl
    have hhere : ∀ n, number ≤ n →
        ¬(⟨number, ⟨kind, first, stop, doc?, children⟩, above⟩ : Located).parent? == some n := by
      intro n hn
      cases above with
      | nil => simp [Located.parent?]
      | cons level outer =>
        have := habove level outer rfl
        simp only [Located.parent?, List.head?_cons, Option.map_some, beq_iff_eq, Option.some.injEq]
        omega
    rw [outline, List.mem_cons] at hl
    rw [outline, List.filter_cons, if_neg (hhere l.number ?_)]
    · rcases hl with rfl | hl
      · exact filter_outlineAll_parent above number _ children (Nat.lt_succ_self _)
      · exact filter_outlineAll_inside above number _ [] (number + 1) children (Nat.lt_succ_self _) l hl
    · rcases hl with rfl | hl
      · exact Nat.le_refl _
      · exact Nat.le_of_succ_le (outlineAll_numbered above number _ [] (number + 1) children l hl).1.1

theorem filter_outlineAll_inside (above : List Level) (number : Nat) (parent : Statement)
    (earlier : List Statement) (next : Nat) (later : List Statement) (h : number < next) :
    ∀ l ∈ outlineAll above number parent earlier next later,
      ((outlineAll above number parent earlier next later).filter (·.parent? == some l.number)).map
        (·.statement) = l.statement.children := by
  match later with
  | [] => simp [outlineAll]
  | child :: later =>
    intro l hl
    rw [outlineAll, List.mem_append] at hl
    rw [outlineAll, List.filter_append, List.map_append]
    have hinside := outline_numbered (⟨number, parent, earlier⟩ :: above) next child
    have hlater := outlineAll_numbered above number parent (child :: earlier)
      (next + (outline (⟨number, parent, earlier⟩ :: above) next child).length) later
    rcases hl with hl | hl
    · -- What comes later stands in `parent` or in something that comes later.
      obtain ⟨hle, hlt⟩ := (hinside l hl).1
      rw [filter_outline_inside _ next child (fun level outer habove => by cases habove; exact h) l hl,
        filter_parent_eq_nil (fun l' hl' => ?_), List.map_nil, List.append_nil]
      obtain ⟨m, hm, hbelow⟩ := (hlater l' hl').2
      exact ⟨m, hm, by omega⟩
    · obtain ⟨hle, hlt⟩ := (hlater l hl).1
      rw [filter_outlineAll_inside above number parent _ _ later (by omega) l hl,
        filter_parent_eq_nil (fun l' hl' => ?_), List.map_nil, List.nil_append]
      obtain ⟨m, hm, hbelow⟩ := (hinside l' hl').2 _ _ rfl
      dsimp only at hbelow
      exact ⟨m, hm, by omega⟩

end

namespace SourceFile

theorem outline_inside (f : SourceFile) : ∀ l ∈ f.outline,
    (f.outline.filter (·.parent? == some l.number)).map (·.statement) = l.statement.children :=
  filter_outline_inside [] 0 f.root fun _ _ h => nomatch h

theorem outline_top (f : SourceFile) :
    (f.outline.filter (·.parent? == some 0)).map (·.statement) = f.root.children := by
  rw [SourceFile.outline]
  obtain ⟨kind, first, stop, doc?, children⟩ := f.root
  rw [NamespaceMigration.outline, List.filter_cons_of_neg (by simp [Located.parent?])]
  exact filter_outlineAll_parent [] 0 _ children (Nat.lt_succ_self 0)

end SourceFile

/-- A scope covers the positions from `p` up to `n`. -/
structure Scope.Covers (s : Scope) (c : Code) (p n : Nat) : Prop where
  le : p ≤ n
  bound : n ≤ c.size
  mem : ∀ q, q < c.size → (s.containsToken (c.tokenIndex q) ↔ p ≤ q ∧ q < n)
  start : p = 0 ∨ c.kind? p = some .kwNamespace
  edge : n = c.size ∨ c.kind? n = some .kwNamespace ∨ c.kind? (n - 1) = some .rightBrace

/-- The scope that a namespace statement is. -/
def Located.scope? (l : Located) : Option Scope :=
  match l.statement.kind with
  | .space name? _ _ => some ⟨l, name?, l.statement.first, l.statement.stop⟩
  | _ => none

theorem Located.scope?_eq_some {l : Located} {s : Scope} (h : l.scope? = some s) :
    s.first = l.statement.first ∧ s.stop = l.statement.stop ∧
      ∃ name? token? braced, l.statement.kind = .space name? token? braced := by
  rw [scope?] at h
  split at h
  · rename_i name? token? braced hkind
    cases h
    exact ⟨rfl, rfl, name?, token?, braced, hkind⟩
  · cases h

namespace SourceFile

variable {t : Text}

/-- The scopes of the namespace statements of a file. -/
def namedScopes (f : SourceFile) : List Scope :=
  (f.outline.filter (·.parent? == some 0)).filterMap Located.scope?

theorem scopes_eq (f : SourceFile) : f.scopes =
    if f.namedScopes.isEmpty then [⟨⟨0, f.root, []⟩, none, 0, f.tokens.size⟩] else f.namedScopes := rfl

theorem mem_scopes {f : SourceFile} {s : Scope} (hs : s ∈ f.scopes) :
    (s.first = 0 ∧ s.stop = f.tokens.size) ∨
      ∃ statement ∈ f.root.children, s.first = statement.first ∧ s.stop = statement.stop ∧
        ∃ name? token? braced, statement.kind = .space name? token? braced := by
  rw [scopes_eq] at hs
  split at hs
  · rw [List.mem_singleton] at hs
    subst hs
    exact Or.inl ⟨rfl, rfl⟩
  · obtain ⟨l, hl, hsome⟩ := List.mem_filterMap.mp hs
    refine Or.inr ⟨l.statement, ?_, Located.scope?_eq_some hsome⟩
    rw [← outline_top]
    exact List.mem_map_of_mem hl

theorem home_span {f : SourceFile} {s : Scope} (hs : s ∈ f.scopes)
    (hroot : f.root.first = 0 ∧ f.root.stop = f.tokens.size) :
    s.home.statement.first = s.first ∧ s.home.statement.stop = s.stop := by
  rw [scopes_eq] at hs
  split at hs
  · obtain rfl := List.mem_singleton.mp hs
    exact hroot
  · obtain ⟨l, -, hl⟩ := List.mem_filterMap.mp hs
    rw [Located.scope?] at hl
    split at hl
    · cases hl
      exact ⟨rfl, rfl⟩
    · cases hl

theorem children_parse (t : Text) : (parse t).root.children = (Parser.topStatements (.ofText t)).value := rfl

theorem errors_eq_nil_iff : (parse t).errors = [] ↔
    (Code.ofText t).matching.faults = [] ∧ (Parser.topStatements (.ofText t)).errors = [] :=
  List.append_eq_nil_iff.trans (and_congr_left' List.map_eq_nil_iff)

theorem topErrors (h : (parse t).errors = []) : (Parser.topStatements (.ofText t)).errors = [] :=
  (errors_eq_nil_iff.mp h).2

theorem faults_of_errors (h : (parse t).errors = []) : (Code.ofText t).matching.faults = [] :=
  (errors_eq_nil_iff.mp h).1

theorem scopes_pairwise (t : Text) : (parse t).scopes.Pairwise fun s s' => s.stop ≤ s'.first := by
  have htop : ((parse t).outline.filter (·.parent? == some 0)).Pairwise fun l l' =>
      l.statement.stop ≤ l'.statement.first := by
    have h : (parse t).root.children.Pairwise fun s s' => s.stop ≤ s'.first :=
      Parser.topStatements_pairwise (Code.ordered_ofTokens _ _)
    rw [← outline_top] at h
    exact List.pairwise_map.mp h
  rw [scopes_eq]
  split
  · exact List.pairwise_singleton _ _
  · refine List.Pairwise.filterMap _ (fun l l' hle s hs s' hs' => ?_) htop
    rwa [(Located.scope?_eq_some hs).2.1, (Located.scope?_eq_some hs').1]

theorem scopes_cover {s : Scope} (hs : s ∈ (parse t).scopes) :
    ∃ p n, s.Covers (.ofText t) p n := by
  have ho : (Code.ofText t).Ordered := Code.ordered_ofTokens _ _
  rcases mem_scopes hs with ⟨hfirst, hstop⟩ | ⟨statement, hmem, hfirst, hstop, _, _, _, hkind⟩
  · refine ⟨0, (Code.ofText t).size, Nat.zero_le _, Nat.le_refl _, fun q hq => ?_, Or.inl rfl,
      Or.inl rfl⟩
    have hbound := ho.bound q hq
    rw [Scope.containsToken, hfirst, hstop, Bool.and_eq_true, decide_eq_true_eq, decide_eq_true_eq]
    exact ⟨fun _ => ⟨Nat.zero_le q, hq⟩, fun _ => ⟨Nat.zero_le _, hbound⟩⟩
  · obtain ⟨p, hp, rfl⟩ := Parser.mem_topStatements ho hmem
    have hcovers := Parser.topItem_covers ho hp
    obtain ⟨hstart, hedge⟩ := Parser.topItem_space ho hkind
    refine ⟨p, _, Nat.le_of_lt hcovers.lt, hcovers.le, fun q hq => ?_, Or.inr hstart, hedge⟩
    rw [Scope.containsToken, hfirst, hstop, Bool.and_eq_true, decide_eq_true_eq, decide_eq_true_eq]
    exact hcovers.mem_iff ho hq

end SourceFile
end NamespaceMigration
