import NamespaceMigration.Proofs.Statements.Tree

/-! What stands in front of the statements of a scope, in a file without problems: the header of a namespace
up to its brace or terminator, and the directives that a file starts with. -/
namespace NamespaceMigration
namespace Parser

variable {c : Code}

/-- What a loop reads without a problem, it reads piece by piece without one. -/
theorem manyUntil_faultless {α : Type} {item : Nat → Parsed α} {stop : Nat → Bool}
    (h : ∀ q, stop q = false → c.Reaches (q + 1) (item q).next) {fuel p : Nat}
    (herrors : (manyUntil item stop fuel p).errors = []) {a : α} (ha : a ∈ (manyUntil item stop fuel p).value) :
    ∃ q, p ≤ q ∧ stop q = false ∧ a = (item q).value ∧ (item q).errors = [] := by
  induction fuel generalizing p with
  | zero => cases ha
  | succ fuel ih =>
    rw [manyUntil] at ha herrors
    split at ha
    · cases ha
    · rename_i hstop
      rw [if_neg hstop] at herrors
      have hstop : stop p = false := by simpa using hstop
      obtain ⟨hhere, hlater⟩ := List.append_eq_nil_iff.mp herrors
      rcases List.mem_cons.mp ha with rfl | ha
      · exact ⟨p, Nat.le_refl p, hstop, rfl, hhere⟩
      · obtain ⟨q, hq, hq'⟩ := ih hlater ha
        exact ⟨q, Nat.le_trans (h p hstop).weaken.1 hq, hq'⟩

theorem topStatements_faultless (ho : c.Ordered) (herrors : (topStatements c).errors = []) {s : Statement}
    (hs : s ∈ (topStatements c).value) :
    ∃ p, p < c.size ∧ s = (topItem c p).value ∧ (topItem c p).errors = [] := by
  obtain ⟨p, -, hp, rfl, hnone⟩ :=
    manyUntil_faultless (fun q hq => topItem_reaches ho (lt_size_of_atEnd hq)) herrors hs
  exact ⟨p, lt_size_of_atEnd hp, rfl, hnone⟩

/-- The header of a namespace: its keyword, perhaps a name, and the brace or the terminator at `q + 1` that
ends it. The statements of the namespace come after that. -/
structure HasHeader (c : Code) (s : Statement) (p q : Nat) : Prop where
  first : s.first = c.tokenIndex p
  keyword : c.kind? p = some .kwNamespace
  /-- The token in front of the end is the keyword, or the name behind it. -/
  name : q = p ∨ q = p + 1 ∧ c.isAtAny [.ident, .nameQualified] q
  stop : c.isAt .leftBrace (q + 1) ∨ isTerminator c (q + 1)
  inside : c.tokenIndex (q + 1) < s.stop
  children : ∀ child ∈ s.children, c.tokenIndex (q + 1) < child.first

namespace HasHeader

variable {s : Statement} {p q : Nat}

theorem end_cases (h : HasHeader c s p q) :
    c.isAtAny [.semicolon, .leftBrace] (q + 1) ∨ c.kind? (q + 1) = some .closeTag := by
  rw [Code.isAtAny]
  rcases h.stop with h | h
  · rw [Code.isAt_iff.mp h]
    exact .inl rfl
  · obtain ⟨kind, hmem, hkind⟩ := Code.exists_kind_of_isAtAny h
    rw [hkind]
    rcases List.mem_cons.mp hmem with rfl | hmem
    · exact .inl rfl
    · exact .inr (congrArg some (List.mem_singleton.mp hmem))

theorem kind_of_le (h : HasHeader c s p q) {j : Nat} (hj : p ≤ j) (hjq : j ≤ q) : ∃ kind, c.kind? j = some kind ∧
    (kind = .kwNamespace ∨ kind = .ident ∨ kind = .nameQualified) := by
  rcases h.name with rfl | ⟨rfl, hname⟩
  · obtain rfl : j = q := by omega
    exact ⟨_, h.keyword, .inl rfl⟩
  · by_cases hfirst : j = p
    · subst hfirst
      exact ⟨_, h.keyword, .inl rfl⟩
    · obtain rfl : j = p + 1 := by omega
      obtain ⟨kind, hmem, hkind⟩ := Code.exists_kind_of_isAtAny hname
      refine ⟨kind, hkind, .inr ?_⟩
      simpa using hmem

theorem size (h : HasHeader c s p q) : q + 1 < c.size := by
  rcases h.stop with h | h
  · exact Code.lt_size_of_isAt h
  · exact Code.lt_size_of_isAtAny h

theorem le (h : HasHeader c s p q) : p ≤ q := by
  rcases h.name with h | h <;> omega

theorem lt_of_full (h : HasHeader c s p q) {j : Nat} (hj : p ≤ j) (hfull : c.kind? j = some .nameFullyQualified) :
    q + 1 < j := by
  by_contra hle
  by_cases hend : j = q + 1
  · subst hend
    rcases h.end_cases with h | h
    · rw [Code.isAtAny, hfull] at h
      cases h
    · rw [hfull] at h
      cases h
  · obtain ⟨kind, hkind, hcases⟩ := h.kind_of_le hj (by omega)
    obtain rfl := Option.some.inj (hfull.symm.trans hkind)
    rcases hcases with h | h | h <;> cases h

end HasHeader

theorem statement_first (depth p : Nat) : (statement c depth p).value.first = c.tokenIndex p := by
  cases depth <;> rfl

/-- The position of the token in front of the end of a header. -/
def headerName (c : Code) (p : Nat) : Nat := if c.isAtAny [.ident, .nameQualified] (p + 1) then p + 1 else p

theorem namespaceStatement_kind (inner : Inner) (p : Nat) : ∃ name? token? braced,
    (namespaceStatement c inner p).value.1 = .space name? token? braced ∧
      token?.getD (c.tokenIndex p) = c.tokenIndex (headerName c p) := by
  rw [namespaceStatement, headerName]
  dsimp only
  split <;> split <;> exact ⟨_, _, _, rfl, rfl⟩

/-- A namespace without problems has an end of its header, and its statements behind that. -/
theorem namespaceStatement_faultless (ho : c.Ordered) {depth p : Nat}
    (herrors : (namespaceStatement c (statement c depth) p).errors = []) :
    (c.isAt .leftBrace (headerName c p + 1) ∨ isTerminator c (headerName c p + 1)) ∧
      headerName c p + 1 < (namespaceStatement c (statement c depth) p).next ∧
      ∀ child ∈ (namespaceStatement c (statement c depth) p).value.2, ∃ r, headerName c p + 1 < r ∧
        r < c.size ∧ child.first = c.tokenIndex r := by
  have hnext : (if c.isAtAny [.ident, .nameQualified] (p + 1) then p + 2 else p + 1) = headerName c p + 1 := by
    rw [headerName]
    split <;> rfl
  have hstep (stop : Nat → Bool) (hstop : ∀ q, c.atEnd q → stop q) (q : Nat) (hq : stop q = false) :
      q < c.size ∧ c.Reaches (q + 1) (statement c depth q).next := by
    have hlt : q < c.size := by
      refine Nat.lt_of_not_le fun hle => ?_
      rw [hstop q (by simpa [Code.atEnd] using hle)] at hq
      cases hq
    exact ⟨hlt, statement_reaches ho hlt⟩
  rw [namespaceStatement] at herrors ⊢
  dsimp only at herrors ⊢
  rw [hnext] at herrors ⊢
  generalize headerName c p = q at herrors ⊢
  split
  · rename_i hbrace
    have hopen := Code.lt_size_of_isAt hbrace
    have hitem := hstep (fun q => c.atEnd q || c.isAtAny [.rightBrace] q) fun q hq => by simp [hq]
    refine ⟨.inl hbrace, (block_reaches (fun r hr => statement_reaches ho hr) hopen).1, fun child hchild => ?_⟩
    obtain ⟨r, hqr, hr, rfl⟩ := mem_manyUntil (fun q hq => (hitem q hq).2) hchild
    exact ⟨r, hqr, (hitem r hr).1, statement_first depth r⟩
  · rename_i hbrace
    rw [if_neg hbrace] at herrors
    dsimp only at herrors
    obtain ⟨hclosed, -⟩ := List.append_eq_nil_iff.mp herrors
    have hend : isTerminator c (q + 1) := by
      by_contra hno
      rw [if_neg hno] at hclosed
      cases hclosed
    have hopen := Code.lt_size_of_isAtAny hend
    have hitem := hstep (fun q => c.atEnd q || isNamespaceHeader c q) fun q hq => by simp [hq]
    rw [if_pos hend]
    refine ⟨.inr hend, (manyUntil_reaches (fun q hq => (hitem q hq).2) _ hopen).1, fun child hchild => ?_⟩
    obtain ⟨r, hqr, hr, rfl⟩ := mem_manyUntil (fun q hq => (hitem q hq).2) hchild
    exact ⟨r, hqr, (hitem r hr).1, statement_first depth r⟩

theorem topItem_header (ho : c.Ordered) {p : Nat} (hp : p < c.size) {name? : Option Text} {token? : Option Nat}
    {braced : Bool} (hkind : (topItem c p).value.kind = .space name? token? braced)
    (herrors : (topItem c p).errors = []) :
    ∃ q, HasHeader c (topItem c p).value p q ∧ token?.getD (topItem c p).value.first = c.tokenIndex q := by
  have hcovers := topItem_covers ho hp
  have hheader : isNamespaceHeader c p := by
    by_contra hno
    rw [topItem, if_neg hno] at hkind
    exact shape_not_space hkind
  have hkeyword : c.kind? p = some .kwNamespace := by
    rw [isNamespaceHeader, Bool.and_eq_true] at hheader
    exact Code.isAt_iff.mp hheader.1
  rw [topItem, if_pos hheader] at hkind herrors hcovers ⊢
  obtain ⟨hstop, hnext, hchildren⟩ := namespaceStatement_faultless ho herrors
  refine ⟨headerName c p, ⟨rfl, hkeyword, ?_, hstop, ?_, fun child hchild => ?_⟩, ?_⟩
  · rw [headerName]
    split
    · rename_i hname
      exact .inr ⟨rfl, hname⟩
    · exact .inl rfl
  · have hle : (namespaceStatement c (statement c (c.size + 1)) p).next ≤ c.size := hcovers.le
    rw [hcovers.stop, Nat.lt_succ_iff]
    change c.tokenIndex _ ≤ c.tokenIndex ((namespaceStatement c (statement c (c.size + 1)) p).next - 1)
    exact (ho.tokenIndex_le_iff (by omega) (by omega)).mpr (by omega)
  · obtain ⟨r, hr, hsize, hfirst⟩ := hchildren child hchild
    rw [hfirst]
    exact ho.index _ _ hr hsize
  · obtain ⟨name?', token?', braced', hkind', htoken⟩ := namespaceStatement_kind (c := c) (statement c (c.size + 1)) p
    change (namespaceStatement c (statement c (c.size + 1)) p).value.1 = _ at hkind
    rw [hkind'] at hkind
    cases hkind
    exact htoken

theorem shape_directive {inner : Inner} {p : Nat} {ds : List Directive} {block : Bool}
    (h : (shape c inner p).value.1 = .declare ds block) :
    c.isAt .leftParen (p + 1) ∧ shape c inner p = declareStatement c inner p := by
  have hdeclaration : (declaration c p).value ≠ .declare ds block := by
    rw [declaration]
    split
    · rintro ⟨⟩
    · split <;> rintro ⟨⟩
  have huse : (useStatement c p).value ≠ .declare ds block := by
    rw [useStatement]
    split
    · rintro ⟨⟩
    · dsimp only
      split <;> rintro ⟨⟩
  rw [shape] at h ⊢
  split at h
  case h_4 => exact absurd h huse
  case h_6 =>
    split at h
    · rename_i hparen
      rw [if_pos hparen]
      exact ⟨hparen, rfl⟩
    · exact absurd h hdeclaration
  case h_11 =>
    split at h
    · cases h
    · exact absurd h hdeclaration
  case h_12 => exact absurd h hdeclaration
  all_goals cases h

/-- A directive without a block and without problems goes up to a terminator or to the end of the code. -/
theorem topItem_directive {p : Nat} {ds : List Directive} (hkind : (topItem c p).value.kind = .declare ds false)
    (herrors : (topItem c p).errors = []) :
    (∃ q, (topItem c p).next = q + 1 ∧ isTerminator c q) ∨ c.size ≤ (topItem c p).next := by
  have hheader : ¬isNamespaceHeader c p := by
    intro hheader
    rw [topItem, if_pos hheader] at hkind
    obtain ⟨_, _, _, hspace, -⟩ := namespaceStatement_kind (c := c) (statement c (c.size + 1)) p
    cases hspace.symm.trans hkind
  rw [topItem, if_neg hheader, statement] at hkind herrors ⊢
  change (shape c _ p).errors = [] at herrors
  change (∃ q, (shape c _ p).next = q + 1 ∧ _) ∨ c.size ≤ (shape c _ p).next
  have hshape := (shape_directive hkind).2
  change (shape c _ p).value.1 = _ at hkind
  rw [hshape] at hkind herrors ⊢
  simp only [declareStatement] at hkind herrors ⊢
  split_ifs at hkind herrors ⊢ with hbrace hcolon
  · cases hkind
  · cases hkind
  · generalize c.groupEnd (p + 1) - 1 + 1 = q at herrors ⊢
    rw [terminator] at herrors ⊢
    split
    · rename_i hstop
      exact .inl ⟨q, rfl, hstop⟩
    · rename_i hstop
      rw [if_neg hstop] at herrors
      obtain ⟨-, hend⟩ := List.append_eq_nil_iff.mp herrors
      refine .inr (Nat.le_of_not_lt fun hlt => ?_)
      have hmore : ¬c.atEnd q := by simpa [Code.atEnd] using hlt
      rw [if_neg hmore] at hend
      cases hend

theorem topItem_inlineHtml {p : Nat} (h : c.kind? p = some .inlineHtml) : (topItem c p).next = p + 1 := by
  have hheader : ¬isNamespaceHeader c p := by
    intro hheader
    rw [isNamespaceHeader, Bool.and_eq_true, Code.isAt_iff, h] at hheader
    cases hheader.1
  rw [topItem, if_neg hheader, statement]
  change (shape c _ p).next = _
  rw [shape, h]
  rfl

end Parser
end NamespaceMigration
