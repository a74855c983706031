import NamespaceMigration.Proofs.Statements.Spans

/-! Where statements stand in each other. A statement covers a run of positions, and the statements inside
it come one after the other behind its first position and before its end. -/
namespace NamespaceMigration

mutual

/-- A statement over the positions from `p` up to `n`, with the comment that documents its first token.
The statements inside it come after that token. -/
inductive Statement.Placed (c : Code) : Nat → Nat → Statement → Prop
  | intro {p n : Nat} {s : Statement} : s.Covers c p n → s.doc? = c.leadingDoc? s.first →
      Statement.InRow c (p + 1) n s.children → Statement.Placed c p n s

/-- Statements one after the other, from position `p` on and up to `n`. -/
inductive Statement.InRow (c : Code) : Nat → Nat → List Statement → Prop
  | nil {p n : Nat} : p ≤ n → Statement.InRow c p n []
  | cons {p q m n : Nat} {s : Statement} {ss : List Statement} : p ≤ q → Statement.Placed c q m s →
      Statement.InRow c m n ss → Statement.InRow c p n (s :: ss)

end

namespace Statement

variable {c : Code} {p q m n : Nat} {s : Statement} {ss ts : List Statement}

theorem Placed.covers (h : s.Placed c p n) : s.Covers c p n := by
  cases h
  assumption

theorem Placed.doc (h : s.Placed c p n) : s.doc? = c.leadingDoc? s.first := by
  cases h
  assumption

theorem Placed.children (h : s.Placed c p n) : InRow c (p + 1) n s.children := by
  cases h
  assumption

theorem Placed.reaches (h : s.Placed c p n) : c.Reaches (p + 1) n := ⟨h.covers.lt, h.covers.le⟩

namespace InRow

theorem le (h : InRow c p n ss) : p ≤ n := by
  induction ss generalizing p with
  | nil =>
    cases h
    assumption
  | cons s ss ih =>
    cases h with
    | cons hpq hs hss =>
      have := hs.covers.lt
      have := ih hss
      omega

theorem of_le (hqp : q ≤ p) (h : InRow c p n ss) : InRow c q n ss := by
  cases h with
  | nil hle => exact .nil (Nat.le_trans hqp hle)
  | cons hle hs hss => exact .cons (Nat.le_trans hqp hle) hs hss

theorem append (hss : InRow c p m ss) (hts : InRow c m n ts) : InRow c p n (ss ++ ts) := by
  induction ss generalizing p with
  | nil => exact hts.of_le hss.le
  | cons s ss ih =>
    cases hss with
    | cons hle hs hss => exact .cons hle hs (ih hss)

theorem mono (h : InRow c p m ss) (hmn : m ≤ n) : InRow c p n ss := by
  have happend := h.append (.nil (c := c) hmn)
  rwa [List.append_nil] at happend

theorem singleton (h : s.Placed c p n) : InRow c p n [s] := .cons (Nat.le_refl p) h (.nil (Nat.le_refl n))

theorem exists_placed (h : InRow c p n ss) (hs : s ∈ ss) : ∃ q m, p ≤ q ∧ m ≤ n ∧ s.Placed c q m := by
  induction ss generalizing p with
  | nil => cases hs
  | cons first ss ih =>
    cases h with
    | @cons _ q m _ _ _ hpq hfirst hss =>
      rcases List.mem_cons.mp hs with rfl | hs
      · exact ⟨q, m, hpq, hss.le, hfirst⟩
      · obtain ⟨q', m', hq', hm', hplaced⟩ := ih hss hs
        have := hfirst.covers.lt
        exact ⟨q', m', by omega, hm', hplaced⟩

end InRow
end Statement

namespace Parser

open Statement (Placed InRow)
open Code (lt_size_of_isAt lt_size_of_isAtAny)

variable {c : Code}

section Loop

variable {item : Nat → Parsed Statement} {stop : Nat → Bool}
  (h : ∀ q, stop q = false → (item q).value.Placed c q (item q).next)
include h

theorem manyUntil_inRow (fuel p : Nat) :
    InRow c p (manyUntil item stop fuel p).next (manyUntil item stop fuel p).value := by
  induction fuel generalizing p with
  | zero => exact .nil (Nat.le_refl p)
  | succ fuel ih =>
    rw [manyUntil]
    split
    · exact .nil (Nat.le_refl p)
    · rename_i hstop
      exact .cons (Nat.le_refl p) (h p (by simpa using hstop)) (ih _)

omit h in
theorem exists_item_manyUntil (fuel : Nat) {p q : Nat} (hpq : p ≤ q)
    (hq : q < (manyUntil item stop fuel p).next) : ∃ r, r ≤ q ∧ q < (item r).next ∧ stop r = false ∧
      (item r).value ∈ (manyUntil item stop fuel p).value := by
  induction fuel generalizing p with
  | zero => exact absurd hq (Nat.not_lt.mpr hpq)
  | succ fuel ih =>
    rw [manyUntil] at hq ⊢
    split at hq
    · exact absurd hq (Nat.not_lt.mpr hpq)
    · rename_i hstop
      rw [if_neg hstop]
      rcases Nat.lt_or_ge q (item p).next with hlt | hge
      · exact ⟨p, hpq, hlt, by simpa using hstop, List.mem_cons_self⟩
      · obtain ⟨r, hr, hqr, hstop', hmem⟩ := ih hge hq
        exact ⟨r, hr, hqr, hstop', List.mem_cons_of_mem _ hmem⟩

end Loop

section Inside

variable (ho : c.Ordered) {inner : Inner}
  (hinner : ∀ p, p < c.size → (inner p).value.Placed c p (inner p).next)
include hinner

theorem inner_reaches {p : Nat} (hp : p < c.size) : c.Reaches (p + 1) (inner p).next :=
  (hinner p hp).reaches

theorem inner_placed {stop : Nat → Bool} (hstop : ∀ q, c.atEnd q → stop q) (q : Nat)
    (hq : stop q = false) : (inner q).value.Placed c q (inner q).next := by
  refine hinner q (lt_size_of_atEnd ?_)
  by_contra hend
  rw [hstop q (by simpa using hend)] at hq
  cases hq

theorem statementsUntil_inRow (kinds : List TokenKind) (p : Nat) :
    InRow c p (statementsUntil c inner kinds p).next (statementsUntil c inner kinds p).value :=
  manyUntil_inRow (inner_placed hinner fun q hq => by simp [hq]) _ p

theorem block_inRow {p : Nat} (hp : p ≤ c.size) :
    InRow c p (block c inner p).next (block c inner p).value := by
  have hreach := statementsUntil_reaches (fun _ => inner_reaches hinner) [.rightBrace] hp
  exact (statementsUntil_inRow hinner [.rightBrace] p).mono (Code.skip_reaches .rightBrace hreach.2).1

theorem branch_inRow (p : Nat) :
    InRow c p (branch c inner p).next (branch c inner p).value := by
  rw [branch]
  split
  · rename_i hbrace
    exact (block_inRow hinner (lt_size_of_isAt hbrace)).of_le (Nat.le_succ p)
  · split
    · exact .nil (Nat.le_refl p)
    · rename_i hend
      exact .singleton (hinner p (lt_size_of_atEnd (by simpa using hend)))

theorem namespaceStatement_inRow (p : Nat) :
    InRow c (p + 1) (namespaceStatement c inner p).next (namespaceStatement c inner p).value.2 := by
  rw [namespaceStatement]
  dsimp only
  have hnext : p + 1 ≤ if c.isAtAny [.ident, .nameQualified] (p + 1) then p + 2 else p + 1 := by
    split <;> omega
  generalize (if c.isAtAny [.ident, .nameQualified] (p + 1) then p + 2 else p + 1) = next at hnext ⊢
  split
  · rename_i hbrace
    exact (block_inRow hinner (lt_size_of_isAt hbrace)).of_le (Nat.le_succ_of_le hnext)
  · refine (manyUntil_inRow (inner_placed hinner fun q hq => by simp [hq]) _ _).of_le
      (Nat.le_trans hnext ?_)
    split <;> omega

include ho

theorem braceArms_inRow (fuel : Nat) {p : Nat} (hp : p ≤ c.size) :
    InRow c p (braceArms c inner fuel p).next (braceArms c inner fuel p).value := by
  induction fuel generalizing p with
  | zero => exact .nil (Nat.le_refl p)
  | succ fuel ih =>
    rw [braceArms]
    split
    · rename_i helseif
      have hgroup : c.Reaches (p + 1) (c.groupEnd (p + 1)) :=
        ho.groupEnd_reaches (lt_size_of_isAt helseif)
      have hreach := branch_reaches (fun _ => inner_reaches hinner) hgroup.2
      have harm := (branch_inRow hinner (c.groupEnd (p + 1))).append (ih hreach.2)
      exact harm.of_le (Nat.le_of_succ_le hgroup.1)
    · split
      · exact (branch_inRow hinner (p + 1)).of_le (Nat.le_succ p)
      · exact .nil (Nat.le_refl p)

theorem colonArms_inRow (fuel : Nat) {p : Nat} (hp : p ≤ c.size) :
    InRow c p (colonArms c inner fuel p).next (colonArms c inner fuel p).value := by
  induction fuel generalizing p with
  | zero => exact .nil (Nat.le_refl p)
  | succ fuel ih =>
    have harms (hlt : p < c.size) : InRow c p
        (let head := if c.isAt .kwElseif p then c.groupEnd (p + 1) else p + 1
          let arm := statementsUntil c inner armWords (c.skip .colon head)
          (colonArms c inner fuel arm.next).next)
        (let head := if c.isAt .kwElseif p then c.groupEnd (p + 1) else p + 1
          let arm := statementsUntil c inner armWords (c.skip .colon head)
          arm.value ++ (colonArms c inner fuel arm.next).value) := by
      have hhead : c.Reaches (p + 1) (if c.isAt .kwElseif p then c.groupEnd (p + 1) else p + 1) := by
        split
        · exact ho.groupEnd_reaches hlt
        · exact ⟨Nat.le_refl _, hlt⟩
      have hskip := Code.skip_reaches .colon hhead.2
      have hreach := statementsUntil_reaches (fun _ => inner_reaches hinner) armWords hskip.2
      have harm := (statementsUntil_inRow hinner armWords _).append (ih hreach.2)
      exact harm.of_le (hhead.weaken.trans hskip).1
    rw [colonArms]
    split
    · rename_i hkind
      exact harms (Code.lt_size_of_kind? hkind)
    · rename_i hkind
      exact harms (Code.lt_size_of_kind? hkind)
    · rename_i hkind
      have hnext : p + 1 ≤ c.size := Code.lt_size_of_kind? hkind
      exact .nil (Code.Reaches.weaken (terminator_reaches hnext)).1
    · exact .nil (Nat.le_refl p)

theorem ifStatement_inRow {p : Nat} (hp : p < c.size) :
    InRow c (p + 1) (ifStatement c inner p).next (ifStatement c inner p).value.2 := by
  have hgroup : c.Reaches (p + 1) (c.groupEnd (p + 1)) := ho.groupEnd_reaches hp
  rw [ifStatement]
  dsimp only
  by_cases hcolon : c.isAt .colon (c.groupEnd (p + 1))
  · rw [if_pos hcolon, if_pos hcolon]
    have hreach := statementsUntil_reaches (fun _ => inner_reaches hinner) armWords
      (lt_size_of_isAt hcolon)
    have hrow := (statementsUntil_inRow hinner armWords (c.groupEnd (p + 1) + 1)).append
      (colonArms_inRow ho hinner (c.size + 1) hreach.2)
    exact hrow.of_le (Nat.le_succ_of_le hgroup.1)
  · rw [if_neg hcolon, if_neg hcolon]
    have hreach := branch_reaches (fun _ => inner_reaches hinner) hgroup.2
    have hrow := (branch_inRow hinner (c.groupEnd (p + 1))).append
      (braceArms_inRow ho hinner (c.size + 1) hreach.2)
    exact hrow.of_le hgroup.1

theorem declareStatement_inRow {p : Nat} (hopen : c.isAt .leftParen (p + 1)) :
    InRow c (c.groupEnd (p + 1)) (declareStatement c inner p).next (declareStatement c inner p).value.2 := by
  have hgroup := ho.groupEnd_reaches_succ (lt_size_of_isAt hopen)
  have hclose : c.groupEnd (p + 1) - 1 + 1 = c.groupEnd (p + 1) := by
    have := hgroup.1
    omega
  simp only [declareStatement, hclose]
  split_ifs with hbrace hcolon
  · exact (block_inRow hinner (lt_size_of_isAt hbrace)).of_le (Nat.le_succ _)
  · have hrest := statementsUntil_reaches (fun _ => inner_reaches hinner) [.kwEnddeclare]
      (lt_size_of_isAt hcolon)
    have hskip := Code.skip_reaches .kwEnddeclare hrest.2
    have hrow := statementsUntil_inRow hinner [.kwEnddeclare] (c.groupEnd (p + 1) + 1)
    exact (hrow.of_le (Nat.le_succ _)).mono (hskip.trans (terminator_reaches hskip.2)).1
  · exact .nil (terminator_reaches hgroup.2).1

theorem shape_inRow {p : Nat} (hp : p < c.size) :
    InRow c (p + 1) (shape c inner p).next (shape c inner p).value.2 := by
  have hreach := shape_reaches ho (fun _ => inner_reaches hinner) hp
  rw [shape] at hreach ⊢
  split at hreach
  case h_6 =>
    split at hreach
    · rename_i hopen
      rw [if_pos hopen]
      have hgroup := ho.groupEnd_reaches_succ (lt_size_of_isAt hopen)
      exact (declareStatement_inRow ho hinner hopen).of_le (Nat.le_of_succ_le hgroup.1)
    · rename_i hopen
      rw [if_neg hopen]
      exact .nil hreach.1
  case h_7 => exact ifStatement_inRow ho hinner hp
  all_goals exact .nil hreach.1

end Inside

section Ordered

variable (ho : c.Ordered)
include ho

theorem node_placed {p : Nat} {found : Parsed (StatementKind × List Statement)}
    (hreach : c.Reaches (p + 1) found.next) (hrow : InRow c (p + 1) found.next found.value.2) :
    (node c p found).value.Placed c p found.next :=
  .intro (node_covers ho hreach) rfl hrow

theorem statement_placed {depth p : Nat} (hp : p < c.size) :
    (statement c depth p).value.Placed c p (statement c depth p).next := by
  induction depth generalizing p with
  | zero => exact node_placed ho ⟨Nat.le_refl _, hp⟩ (.nil (Nat.le_refl _))
  | succ depth ih =>
    exact node_placed ho (shape_reaches ho (fun q hq => (ih hq).reaches) hp)
      (shape_inRow ho (fun q hq => ih hq) hp)

theorem topItem_placed {p : Nat} (hp : p < c.size) :
    (topItem c p).value.Placed c p (topItem c p).next := by
  rw [topItem]
  split
  · rename_i hheader
    exact node_placed ho (namespaceStatement_reaches (fun q hq => statement_reaches ho hq) hheader).1
      (namespaceStatement_inRow (fun q hq => statement_placed ho hq) p)
  · exact statement_placed ho hp

theorem topStatements_inRow : InRow c 0 c.size (topStatements c).value := by
  rw [topStatements_eq]
  refine (manyUntil_inRow (fun q hq => topItem_placed ho (lt_size_of_atEnd hq)) _ 0).mono ?_
  exact (manyUntil_reaches (fun q hq => topItem_reaches ho (lt_size_of_atEnd hq)) _
    (Nat.zero_le c.size)).2

theorem exists_topStatement {q : Nat} (hq : q < c.size) :
    ∃ s ∈ (topStatements c).value, ∃ p n, s.Covers c p n ∧ p ≤ q ∧ q < n := by
  have hend := manyUntil_stop (fun q hq => topItem_reaches ho (lt_size_of_atEnd hq))
    (show c.size < 0 + (c.size + 1) by omega) (Nat.zero_le c.size)
  rw [Code.atEnd, decide_eq_true_eq] at hend
  obtain ⟨r, hrq, hqr, hr, hmem⟩ := exists_item_manyUntil (c.size + 1) (Nat.zero_le q)
    (Nat.lt_of_lt_of_le hq hend)
  exact ⟨_, hmem, r, _, topItem_covers ho (lt_size_of_atEnd hr), hrq, hqr⟩

end Ordered

end Parser
end NamespaceMigration
