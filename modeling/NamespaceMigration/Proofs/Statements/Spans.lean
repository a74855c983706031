import NamespaceMigration.Proofs.Statements.Progress

/-! The places of statements. A scope is a run of positions from a `namespace` to the next one, to a
closing brace or to the end, and the scopes of a file lie one after the other. -/
namespace NamespaceMigration

namespace Code

variable {c : Code}

theorem Ordered.tokenIndex_lt (ho : c.Ordered) {p q : Nat} (hpq : p < q) (hp : p < c.size) :
    c.tokenIndex p < c.tokenIndex q := by
  by_cases hq : q < c.size
  · exact ho.index p q hpq hq
  · have hnone : c.items[q]? = none := by simpa [size] using hq
    have : c.tokenIndex q = c.tokens.size := by rw [tokenIndex, hnone]; rfl
    rw [this]
    exact ho.bound p hp

theorem Ordered.tokenIndex_lt_iff (ho : c.Ordered) {p q : Nat} (hp : p < c.size) (hq : q < c.size) :
    c.tokenIndex p < c.tokenIndex q ↔ p < q := by
  refine ⟨fun h => ?_, fun h => ho.index p q h hq⟩
  rcases Nat.lt_trichotomy p q with hlt | rfl | hgt
  · exact hlt
  · exact absurd h (Nat.lt_irrefl _)
  · exact absurd h (Nat.lt_asymm (ho.index q p hgt hp))

theorem Ordered.eq_of_tokenIndex (ho : c.Ordered) {p q : Nat} (hp : p < c.size) (hq : q < c.size)
    (h : c.tokenIndex p = c.tokenIndex q) : p = q := by
  rcases Nat.lt_trichotomy p q with hlt | rfl | hgt
  · exact absurd h (Nat.ne_of_lt (ho.index p q hlt hq))
  · rfl
  · exact absurd h (Nat.ne_of_gt (ho.index q p hgt hp))

theorem Ordered.tokenIndex_le_iff (ho : c.Ordered) {p q : Nat} (hp : p < c.size) (hq : q < c.size) :
    c.tokenIndex p ≤ c.tokenIndex q ↔ p ≤ q := by
  rw [← Nat.not_lt, ho.tokenIndex_lt_iff hq hp, Nat.not_lt]

end Code

/-- A statement covers the positions from `p` up to `n`. -/
structure Statement.Covers (s : Statement) (c : Code) (p n : Nat) : Prop where
  lt : p < n
  le : n ≤ c.size
  first : s.first = c.tokenIndex p
  stop : s.stop = c.tokenIndex (n - 1) + 1

namespace Statement.Covers

variable {s : Statement} {c : Code} {p n : Nat}

theorem mem_iff (h : s.Covers c p n) (ho : c.Ordered) {q : Nat} (hq : q < c.size) :
    s.first ≤ c.tokenIndex q ∧ c.tokenIndex q < s.stop ↔ p ≤ q ∧ q < n := by
  have hlt := h.lt
  have hle := h.le
  rw [h.first, h.stop, Nat.lt_succ_iff, ho.tokenIndex_le_iff (by omega) hq,
    ho.tokenIndex_le_iff hq (by omega)]
  omega

end Statement.Covers

namespace Parser

open Code (lt_size_of_isAt lt_size_of_isAtAny)

variable {c : Code}

theorem node_covers (ho : c.Ordered) {p : Nat} {found : Parsed (StatementKind × List Statement)}
    (h : c.Reaches (p + 1) found.next) : (node c p found).value.Covers c p found.next := by
  have hlt := h.1
  have hle := h.2
  refine ⟨h.1, h.2, rfl, ?_⟩
  change max (c.tokenIndex p) (if found.next = 0 then 0 else c.tokenIndex (found.next - 1) + 1) = _
  rw [if_neg (by omega), Nat.max_eq_right]
  exact Nat.le_succ_of_le ((ho.tokenIndex_le_iff (by omega) (by omega)).mpr (by omega))

theorem declaration_not_imports {p : Nat} {items : List ImportItem} :
    (declaration c p).value ≠ .imports items := by
  rw [declaration]
  split
  · rintro ⟨⟩
  · split <;> rintro ⟨⟩

theorem shape_imports {inner : Inner} {p : Nat} {items : List ImportItem}
    (h : (shape c inner p).value.1 = .imports items) :
    c.kind? p = some .kwUse ∧ shape c inner p = leaf (useStatement c p) := by
  rw [shape] at h ⊢
  split at h
  case h_4 hkind => exact ⟨hkind, rfl⟩
  case h_6 =>
    split at h
    · simp only [declareStatement] at h
      split_ifs at h
    · exact absurd h declaration_not_imports
  case h_11 =>
    split at h
    · cases h
    · exact absurd h declaration_not_imports
  case h_12 => exact absurd h declaration_not_imports
  all_goals cases h

/-- Imported names stand inside their `use` statements. -/
def ImportsInside (c : Code) (s : Statement) : Prop :=
  ∀ items, s.kind = .imports items → ∃ p n, s.Covers c p n ∧
    ∀ item ∈ items, ∃ q, p < q ∧ q < n ∧ item.nameToken = c.tokenIndex q

theorem node_importsInside (ho : c.Ordered) (inner : Inner) (p : Nat) :
    ImportsInside c (node c p (shape c inner p)).value := by
  intro items h
  obtain ⟨hkind, hshape⟩ := shape_imports h
  rw [hshape] at h ⊢
  obtain ⟨hreach, hitems⟩ := useStatement_found ho (Code.lt_size_of_kind? hkind)
  exact ⟨p, _, node_covers ho hreach, hitems items h⟩

theorem topStatements_importsInside (ho : c.Ordered) :
    ∀ s ∈ (topStatements c).value, s.Everywhere (ImportsInside c) :=
  topStatements_everywhere (fun _ _ h => nomatch h) (node_importsInside ho) fun inner p _ items h => by
    change (namespaceStatement c inner p).value.1 = _ at h
    rw [namespaceStatement] at h
    dsimp only at h
    split_ifs at h

section Loop

variable {α : Type} {item : Nat → Parsed α} {stop : Nat → Bool}
  (h : ∀ q, stop q = false → c.Reaches (q + 1) (item q).next)
include h

theorem mem_manyUntil {fuel p : Nat} {a : α} (ha : a ∈ (manyUntil item stop fuel p).value) :
    ∃ q, p ≤ q ∧ stop q = false ∧ a = (item q).value := by
  induction fuel generalizing p with
  | zero => cases ha
  | succ fuel ih =>
    rw [manyUntil] at ha
    split at ha
    · cases ha
    · rename_i hstop
      have hstop : stop p = false := by simpa using hstop
      rcases List.mem_cons.mp ha with rfl | ha
      · exact ⟨p, Nat.le_refl p, hstop, rfl⟩
      · obtain ⟨q, hq, hq'⟩ := ih ha
        exact ⟨q, Nat.le_trans (h p hstop).weaken.1 hq, hq'⟩

theorem manyUntil_pairwise {R : α → α → Prop}
    (hR : ∀ q q', stop q = false → stop q' = false → (item q).next ≤ q' →
      R (item q).value (item q').value) (fuel p : Nat) :
    (manyUntil item stop fuel p).value.Pairwise R := by
  induction fuel generalizing p with
  | zero => exact .nil
  | succ fuel ih =>
    rw [manyUntil]
    split
    · exact .nil
    · rename_i hstop
      have hstop : stop p = false := by simpa using hstop
      refine List.pairwise_cons.mpr ⟨fun a ha => ?_, ih _⟩
      obtain ⟨q, hq, hstop', rfl⟩ := mem_manyUntil h ha
      exact hR p q hstop hstop' hq

end Loop

/-- A namespace goes up to its closing brace, to the next namespace or to the end. -/
theorem namespaceStatement_reaches {inner : Inner} (hinner : ∀ q, q < c.size → c.Reaches (q + 1) (inner q).next)
    {p : Nat} (hp : isNamespaceHeader c p) :
    c.Reaches (p + 1) (namespaceStatement c inner p).next ∧
      ((namespaceStatement c inner p).next = c.size ∨
        c.kind? (namespaceStatement c inner p).next = some .kwNamespace ∨
        c.kind? ((namespaceStatement c inner p).next - 1) = some .rightBrace) := by
  rw [isNamespaceHeader, Bool.and_eq_true] at hp
  have hone : p + 1 < c.size := lt_size_of_isAtAny hp.2
  rw [namespaceStatement]
  dsimp only
  have hnext : c.Reaches (p + 1)
      (if c.isAtAny [.ident, .nameQualified] (p + 1) then p + 2 else p + 1) := by
    split
    · exact ⟨Nat.le_succ _, hone⟩
    · exact ⟨Nat.le_refl _, Nat.le_of_lt hone⟩
  generalize (if c.isAtAny [.ident, .nameQualified] (p + 1) then p + 2 else p + 1) = next at hnext ⊢
  have hend (stop : Nat → Bool) (hstop : ∀ q, c.atEnd q → stop q) (q : Nat) (hq : stop q = false) :
      c.Reaches (q + 1) (inner q).next := by
    refine hinner q (Nat.lt_of_not_le fun hle => ?_)
    rw [hstop q (by simpa [Code.atEnd] using hle)] at hq
    cases hq
  split
  · rename_i hbrace
    have hopen : next + 1 ≤ c.size := lt_size_of_isAt hbrace
    have hblock := block_reaches hinner hopen
    refine ⟨hnext.trans (Code.Reaches.weaken hblock), ?_⟩
    have hlast : c.atEnd (statementsUntil c inner [.rightBrace] (next + 1)).next ||
        c.isAtAny [.rightBrace] (statementsUntil c inner [.rightBrace] (next + 1)).next :=
      manyUntil_stop (hend (fun q => c.atEnd q || c.isAtAny [.rightBrace] q) fun q hq => by simp [hq])
        (Nat.lt_of_lt_of_le (Nat.lt_succ_self _) (Nat.le_add_left _ _)) hopen
    have hrest := (statementsUntil_reaches hinner [.rightBrace] hopen).2
    change _ ∨ c.kind? (c.skip .rightBrace _) = _ ∨ c.kind? (c.skip .rightBrace _ - 1) = _
    rw [block]
    generalize (statementsUntil c inner [.rightBrace] (next + 1)).next = last at hlast hrest
    dsimp only
    rw [Code.skip]
    split
    · rename_i hclose
      exact Or.inr (Or.inr (Code.isAt_iff.mp hclose))
    · rename_i hclose
      left
      rw [Bool.or_eq_true] at hlast
      rcases hlast with hlast | hlast
      · have : c.size ≤ last := by simpa [Code.atEnd] using hlast
        omega
      · obtain ⟨kind, hmem, hkind⟩ := Code.exists_kind_of_isAtAny hlast
        rw [List.mem_singleton] at hmem
        subst hmem
        exact absurd (Code.isAt_iff.mpr hkind) hclose
  · have hfrom : c.Reaches next (if isTerminator c next then next + 1 else next) := by
      split
      · rename_i hclosed
        exact ⟨Nat.le_succ _, lt_size_of_isAtAny hclosed⟩
      · exact ⟨Nat.le_refl _, hnext.2⟩
    have hstep : ∀ q, (c.atEnd q || isNamespaceHeader c q) = false → c.Reaches (q + 1) (inner q).next :=
      hend _ fun q hq => by simp [hq]
    have hrest := manyUntil_reaches hstep (c.size + 1) hfrom.2
    refine ⟨hnext.trans (hfrom.trans hrest), ?_⟩
    have hlast := manyUntil_stop hstep (Nat.lt_of_lt_of_le (Nat.lt_succ_self _) (Nat.le_add_left _ _))
      hfrom.2
    rw [Bool.or_eq_true] at hlast
    rcases hlast with hlast | hlast
    · rw [Code.atEnd, decide_eq_true_eq] at hlast
      exact Or.inl (Nat.le_antisymm hrest.2 hlast)
    · rw [isNamespaceHeader, Bool.and_eq_true] at hlast
      exact Or.inr (Or.inl (Code.isAt_iff.mp hlast.1))

theorem shape_not_space {inner : Inner} {p : Nat} {name? : Option Text} {token? : Option Nat}
    {braced : Bool} : (shape c inner p).value.1 ≠ .space name? token? braced := by
  have hdeclaration : (declaration c p).value ≠ .space name? token? braced := by
    rw [declaration]
    split
    · rintro ⟨⟩
    · split <;> rintro ⟨⟩
  have huse : (useStatement c p).value ≠ .space name? token? braced := by
    rw [useStatement]
    split
    · rintro ⟨⟩
    · dsimp only
      split <;> rintro ⟨⟩
  intro h
  rw [shape] at h
  split at h
  case h_4 => exact huse h
  case h_6 =>
    split at h
    · simp only [declareStatement] at h
      split_ifs at h
    · exact hdeclaration h
  case h_11 =>
    split at h
    · cases h
    · exact hdeclaration h
  case h_12 => exact hdeclaration h
  all_goals cases h

/-- What starts at a position outside all statements. -/
def topItem (c : Code) (p : Nat) : Parsed Statement :=
  if isNamespaceHeader c p then node c p (namespaceStatement c (statement c (c.size + 1)) p)
  else statement c (c.size + 1) p

theorem topItem_of_plain {c : Code} {p : Nat} (h : isNamespaceHeader c p = false) :
    topItem c p = statement c (c.size + 1) p := by
  rw [topItem, h, if_neg Bool.false_ne_true]

theorem topStatements_eq (c : Code) :
    topStatements c = manyUntil (topItem c) c.atEnd (c.size + 1) 0 := rfl

theorem lt_size_of_atEnd {q : Nat} (hq : c.atEnd q = false) : q < c.size := by
  simpa [Code.atEnd] using hq

section Top

variable (ho : c.Ordered)
include ho

theorem topItem_reaches {p : Nat} (hp : p < c.size) : c.Reaches (p + 1) (topItem c p).next := by
  rw [topItem]
  split
  · rename_i hheader
    exact (namespaceStatement_reaches (fun q hq => statement_reaches ho hq) hheader).1
  · exact statement_reaches ho hp

theorem topItem_covers {p : Nat} (hp : p < c.size) :
    (topItem c p).value.Covers c p (topItem c p).next := by
  have hreach := topItem_reaches ho hp
  rw [topItem] at hreach ⊢
  split
  · rename_i hheader
    rw [if_pos hheader] at hreach
    exact node_covers ho hreach
  · rename_i hheader
    rw [if_neg hheader] at hreach
    exact node_covers ho hreach

theorem topItem_space {p : Nat} {name? : Option Text} {token? : Option Nat} {braced : Bool}
    (h : (topItem c p).value.kind = .space name? token? braced) :
    c.kind? p = some .kwNamespace ∧ ((topItem c p).next = c.size ∨
      c.kind? (topItem c p).next = some .kwNamespace ∨
      c.kind? ((topItem c p).next - 1) = some .rightBrace) := by
  rw [topItem] at h ⊢
  split
  · rename_i hheader
    have hinner (q : Nat) (hq : q < c.size) : c.Reaches (q + 1) (statement c (c.size + 1) q).next :=
      statement_reaches ho hq
    have hend := (namespaceStatement_reaches hinner hheader).2
    rw [isNamespaceHeader, Bool.and_eq_true] at hheader
    exact ⟨Code.isAt_iff.mp hheader.1, hend⟩
  · rename_i hheader
    rw [if_neg hheader] at h
    exact absurd h shape_not_space

theorem mem_topStatements {s : Statement} (hs : s ∈ (topStatements c).value) :
    ∃ p, p < c.size ∧ s = (topItem c p).value := by
  obtain ⟨p, -, hp, rfl⟩ := mem_manyUntil
    (fun q hq => topItem_reaches ho (lt_size_of_atEnd hq)) hs
  exact ⟨p, lt_size_of_atEnd hp, rfl⟩

theorem topStatements_pairwise :
    (topStatements c).value.Pairwise fun s s' => s.stop ≤ s'.first := by
  refine manyUntil_pairwise (fun q hq => topItem_reaches ho (lt_size_of_atEnd hq)) ?_ _ _
  intro q q' hq hq' hnext
  have hcovers := topItem_covers ho (lt_size_of_atEnd hq)
  have hlt := hcovers.lt
  have hle := hcovers.le
  rw [hcovers.stop, (topItem_covers ho (lt_size_of_atEnd hq')).first]
  exact ho.tokenIndex_lt (by omega) (by omega)

end Top

end Parser
end NamespaceMigration
