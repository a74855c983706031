import NamespaceMigration.Proofs.Relocation.Blocks
import NamespaceMigration.Proofs.Statements.Preservation

/-! Respelled code that was read without a problem is read without one. -/
namespace NamespaceMigration
namespace Parser

/-- The second of two readings has no problem if the first has none. -/
def Parsed.Clears {α β : Type} (r : Parsed α) (r' : Parsed β) : Prop := r.errors = [] → r'.errors = []

variable {c c' : Code} {changed : Nat → Prop}

section Leaves

variable (h : c.Respelled c' changed)
include h

theorem terminator_clears (p : Nat) : (terminator c p).Clears (terminator c' p) := by
  rw [terminator, terminator, isTerminator_respelled h, h.atEnd_eq]
  intro herrors
  split
  · rfl
  · rename_i hopen
    rw [if_neg hopen] at herrors
    dsimp only at herrors ⊢
    split
    · rfl
    · rename_i hend
      rw [if_neg hend] at herrors
      cases herrors

theorem skipStatement_clears (p : Nat) : (skipStatement c p).Clears (skipStatement c' p) := by
  rw [skipStatement, skipStatement, statementEnd_respelled h, h.size]
  intro herrors
  split
  · rename_i hstop
    rw [if_pos hstop] at herrors
    cases herrors
  · rfl

theorem body_clears (p : Nat) : (body c p).Clears (body c' p) := by
  have hstep : headerStep c' = headerStep c := funext (headerStep_respelled h)
  rw [body, body, hstep, h.size, h.isAt_eq rfl]
  intro herrors
  split
  · rfl
  · rename_i hopen
    rw [if_neg hopen] at herrors
    cases herrors

theorem declaration_clears (p : Nat) : (declaration c p).Clears (declaration c' p) := by
  rw [declaration, declaration, afterModifiers_respelled h, classKeyword?_respelled h,
    functionName?_respelled h]
  generalize afterModifiers c p = keyword
  dsimp only
  cases classKeyword? c keyword with
  | some kind => exact body_clears h _
  | none =>
    dsimp only
    cases functionName? c keyword with
    | some name =>
      dsimp only
      rw [h.groupEnd]
      exact body_clears h _
    | none => exact skipStatement_clears h p

theorem defineStatement_clears (p : Nat) : (defineStatement c p).Clears (defineStatement c' p) := by
  rw [defineStatement, defineStatement, h.groupEnd]
  exact terminator_clears h _

omit h in
theorem skipStatement_errors {p : Nat} (hnext : p + 1 < (skipStatement c p).next) :
    (skipStatement c p).errors = [] := by
  rw [skipStatement] at hnext ⊢
  split at hnext
  · dsimp only at hnext
    omega
  · rename_i hstop
    rw [if_neg hstop]

omit h in
theorem declaration_errors_of_isDefineCall (ho : c.Ordered) {p : Nat} (hkind : c.kind? p = some .ident)
    (hdefine : isDefineCall c p) : (declaration c p).errors = [] := by
  obtain ⟨-, hnext⟩ := declaration_of_isDefineCall ho hkind hdefine
  simp only [isDefineCall, Bool.and_eq_true] at hdefine
  obtain ⟨⟨-, hopen⟩, hend⟩ := hdefine
  rw [declaration_of_call hkind (Code.isAt_iff.mp hopen)] at hnext ⊢
  have hlater := (ho.groupEnd_reaches_succ (Code.lt_size_of_kind? (Code.isAt_iff.mp hopen))).1
  refine skipStatement_errors ?_
  change p + 1 < (shapeless c .other p).next
  rw [hnext, defineStatement, terminator, if_pos hend]
  dsimp only
  omega

omit h in
theorem useStatement_errors {p : Nat} {items : List ImportItem}
    (h : (useStatement c p).value = .imports items) : (useStatement c p).errors = [] := by
  rw [useStatement] at h ⊢
  split at h
  · cases h
  · dsimp only at h ⊢
    split at h
    · rename_i hend
      rw [if_pos hend]
    · cases h

/-- Where the key of a directive may stand: at the head of a `declare`, or after a comma. -/
def AtKey (c : Code) (p : Nat) : Prop :=
  (∃ q, p = q + 2 ∧ c.kind? q = some .kwDeclare ∧ c.kind? (q + 1) = some .leftParen) ∨
    ∃ q, p = q + 1 ∧ c.kind? q = some .comma

omit h in
/-- The value of a directive ends at a comma or with the directives. -/
theorem valueEnd_cases (close p : Nat) :
    let stop := follow (fun q => if q < close ∧ !c.isAt .comma q then some (q + 1) else none)
      (c.size + 1) p
    close ≤ stop ∨ c.kind? stop = some .comma ∨ c.size < stop := by
  intro stop
  have hforward : ∀ q next, (if q < close ∧ !c.isAt .comma q then some (q + 1) else none) =
      some next → q < next := by
    intro q next hnext
    split at hnext
    · cases hnext
      omega
    · cases hnext
  rcases follow_stop hforward (c.size + 1) p with hnone | hle
  · by_cases hclose : close ≤ stop
    · exact .inl hclose
    · refine .inr (.inl (Code.isAt_iff.mp ?_))
      by_contra hcomma
      rw [if_pos ⟨Nat.lt_of_not_le hclose, by rw [Bool.eq_false_iff.mpr hcomma]; rfl⟩] at hnone
      cases hnone
  · exact .inr (.inr (Nat.lt_of_lt_of_le (Nat.lt_of_lt_of_le (Nat.lt_succ_self _)
      (Nat.le_add_left _ p)) hle))

theorem directives_clears {close fuel p : Nat} (hp : close ≤ p ∨ c.size ≤ p ∨ AtKey c p)
    (herrors : (directives c close fuel p).2 = []) : (directives c' close fuel p).2 = [] := by
  induction fuel generalizing p with
  | zero => rfl
  | succ fuel ih =>
    rw [directives] at herrors ⊢
    split at herrors
    · rename_i hclose
      rw [if_pos hclose]
    · rename_i hclose
      rw [if_neg hclose]
      split at herrors
      · rename_i hkey
        obtain ⟨hident, hequals⟩ := hkey.imp Code.isAt_iff.mp Code.isAt_iff.mp
        have hsize := Code.lt_size_of_kind? hident
        -- A key is no reference.
        have hfree : ¬changed p := by
          intro hchanged
          rcases hp with hle | hle | ⟨q, hq, hdeclare, hparen⟩ | ⟨q, hq, hcomma⟩
          · exact hclose hle
          · omega
          · exact (h.free p hchanged).directive q hq hdeclare hparen hident hequals
          · exact (h.free p hchanged).constant q hq hcomma hident hequals
        have hstep : (fun q => if q < close ∧ !c'.isAt .comma q then some (q + 1) else none) =
            fun q => if q < close ∧ !c.isAt .comma q then some (q + 1) else none := by
          funext q
          rw [h.isAt_eq rfl]
        rw [h.isAt_ident_eq hfree, h.isAt_eq rfl, if_pos hkey, h.size]
        dsimp only at herrors ⊢
        rw [hstep]
        refine ih ?_ herrors
        rcases valueEnd_cases (c := c) close (p + 2) with hle | hcomma | hlt
        · exact .inl (by omega)
        · exact .inr (.inr (.inr ⟨_, rfl, hcomma⟩))
        · exact .inr (.inl (Nat.le_of_lt (Nat.lt_succ_of_lt hlt)))
      · cases herrors

end Leaves

theorem Fine.andThen_clears {r r' : Parsed (List Statement)} {more more' : Nat → Parsed (List Statement)}
    (hfine : Fine c changed (r.andThen more))
    (hr : Fine c changed r → r.Like (List.map Statement.bare) r' ∧ r.Clears r')
    (hmore : ∀ p, Fine c changed (more p) → (more p).Clears (more' p)) :
    (r.andThen more).Clears (r'.andThen more') := by
  intro herrors
  obtain ⟨hfirst, hsecond⟩ := List.append_eq_nil_iff.mp herrors
  obtain ⟨hlike, hclears⟩ := hr (hfine.first)
  rw [Parsed.andThen, hlike.1]
  exact List.append_eq_nil_iff.mpr ⟨hclears hfirst, hmore r.next hfine.second hsecond⟩

/-- Two ways to read statements of which the second has no problem that the first has not. -/
structure ClearsInner (c : Code) (changed : Nat → Prop) (inner inner' : Inner) : Prop where
  like : SameInner c changed inner inner'
  clears : ∀ p, Fine c changed (inner p).single → (inner p).Clears (inner' p)

section Loop

variable {inner inner' : Inner} (hinner : ClearsInner c changed inner inner')
include hinner

theorem manyUntil_clears {stop stop' : Nat → Bool} (hstop : stop' = stop) (fuel p : Nat)
    (hfine : Fine c changed (manyUntil inner stop fuel p)) :
    (manyUntil inner stop fuel p).Clears (manyUntil inner' stop' fuel p) := by
  subst hstop
  induction fuel generalizing p with
  | zero => exact fun _ => rfl
  | succ fuel ih =>
    by_cases hp : stop' p
    · rw [manyUntil, manyUntil, if_pos hp, if_pos hp]
      exact fun _ => rfl
    · rw [manyUntil_succ hp] at hfine ⊢
      rw [manyUntil_succ hp]
      exact hfine.andThen_clears (fun hfirst =>
        ⟨(hinner.like p hfirst).single, hinner.clears p hfirst⟩) ih

variable (h : c.Respelled c' changed)
include h

theorem statementsUntil_clears {kinds : List TokenKind} (hkinds : ∀ kind ∈ kinds, kind.isName = false)
    (p : Nat) (hfine : Fine c changed (statementsUntil c inner kinds p)) :
    (statementsUntil c inner kinds p).Clears (statementsUntil c' inner' kinds p) := by
  rw [statementsUntil, statementsUntil, h.size]
  refine manyUntil_clears hinner (funext fun q => ?_) _ p hfine
  rw [h.atEnd_eq, h.isAtAny_eq hkinds]

theorem block_clears (p : Nat) (hfine : Fine c changed (block c inner p)) :
    (block c inner p).Clears (block c' inner' p) :=
  statementsUntil_clears hinner h (by decide) p ⟨hfine.wellFormed, hfine.free⟩

theorem branch_clears (p : Nat) (hfine : Fine c changed (branch c inner p)) :
    (branch c inner p).Clears (branch c' inner' p) := by
  revert hfine
  rw [branch, branch, h.isAt_eq rfl, h.atEnd_eq]
  split
  · exact block_clears hinner h _
  · split
    · exact fun _ _ => rfl
    · exact hinner.clears p

theorem braceArms_clears (fuel p : Nat) (hfine : Fine c changed (braceArms c inner fuel p)) :
    (braceArms c inner fuel p).Clears (braceArms c' inner' fuel p) := by
  induction fuel generalizing p with
  | zero => exact fun _ => rfl
  | succ fuel ih =>
    revert hfine
    rw [braceArms, braceArms, h.isAt_eq rfl, h.isAt_eq (rfl : TokenKind.kwElse.isName = false),
      h.groupEnd]
    split
    · exact fun hfine => Fine.andThen_clears hfine (fun hfirst =>
        ⟨branch_like hinner.like h _ hfirst, branch_clears hinner h _ hfirst⟩) ih
    · split
      · exact branch_clears hinner h _
      · exact fun _ _ => rfl

theorem colonArms_clears (fuel p : Nat) (hfine : Fine c changed (colonArms c inner fuel p)) :
    (colonArms c inner fuel p).Clears (colonArms c' inner' fuel p) := by
  induction fuel generalizing p with
  | zero => exact fun _ => rfl
  | succ fuel ih =>
    intro herrors
    have harm (q : Nat) : Fine c changed (statementsUntil c inner armWords q) →
        (statementsUntil c inner armWords q).Like (List.map Statement.bare)
            (statementsUntil c' inner' armWords q) ∧
          (statementsUntil c inner armWords q).Clears (statementsUntil c' inner' armWords q) :=
      fun hfirst => ⟨statementsUntil_like hinner.like h (by decide) q hfirst,
        statementsUntil_clears hinner h (by decide) q hfirst⟩
    rcases colonArms_cases herrors with helseif | helse | hendif
    · rw [colonArms_elseif helseif] at hfine herrors
      rw [colonArms_elseif ((h.kind?_eq_some rfl p).mpr helseif), h.groupEnd, h.skip_eq rfl]
      exact hfine.andThen_clears (harm _) ih herrors
    · rw [colonArms_else helse] at hfine herrors
      rw [colonArms_else ((h.kind?_eq_some rfl p).mpr helse), h.skip_eq rfl]
      exact hfine.andThen_clears (harm _) ih herrors
    · rw [colonArms_endif hendif] at herrors
      rw [colonArms_endif ((h.kind?_eq_some rfl p).mpr hendif)]
      exact terminator_clears h _ herrors

end Loop

section Inside

variable {inner inner' : Inner} (hinner : ClearsInner c changed inner inner')
  (h : c.Respelled c' changed)
include hinner h

theorem ifStatement_clears (p : Nat) (hfine : Fine c changed (ifStatement c inner p).inside) :
    (ifStatement c inner p).Clears (ifStatement c' inner' p) := by
  change (ifStatement c inner p).inside.Clears (ifStatement c' inner' p).inside
  revert hfine
  rw [ifStatement_inside, ifStatement_inside, h.groupEnd, h.isAt_eq rfl, h.size]
  split
  · exact fun hfine => hfine.andThen_clears (fun hfirst =>
      ⟨statementsUntil_like hinner.like h (by decide) _ hfirst,
        statementsUntil_clears hinner h (by decide) _ hfirst⟩) (colonArms_clears hinner h _)
  · exact fun hfine => hfine.andThen_clears (fun hfirst =>
      ⟨branch_like hinner.like h _ hfirst, branch_clears hinner h _ hfirst⟩)
      (braceArms_clears hinner h _)

theorem declareStatement_clears {p : Nat} (hdeclare : c.kind? p = some .kwDeclare)
    (hparen : c.kind? (p + 1) = some .leftParen)
    (hfine : Fine c changed (declareStatement c inner p).inside) :
    (declareStatement c inner p).Clears (declareStatement c' inner' p) := by
  have hkey : AtKey c (p + 2) := .inl ⟨p, rfl, hdeclare, hparen⟩
  have hdirectives (close : Nat) (herrors : (directives c close (c.size + 1) (p + 2)).2 = []) :
      (directives c' close (c.size + 1) (p + 2)).2 = [] := directives_clears h (.inr (.inr hkey)) herrors
  revert hfine
  simp only [declareStatement, Parsed.inside, h.groupEnd, h.size,
    h.isAt_eq (rfl : TokenKind.leftBrace.isName = false), h.isAt_eq (rfl : TokenKind.colon.isName = false)]
  intro hfine herrors
  split
  · rename_i hbrace
    rw [if_pos hbrace] at hfine herrors
    obtain ⟨hfound, hrest⟩ := List.append_eq_nil_iff.mp herrors
    exact List.append_eq_nil_iff.mpr ⟨hdirectives _ hfound,
      block_clears hinner h _ (hfine.of rfl (List.subset_append_right _ _)) hrest⟩
  · rename_i hbrace
    rw [if_neg hbrace] at hfine herrors
    split
    · rename_i hcolon
      rw [if_pos hcolon] at hfine herrors
      obtain ⟨hfound, hstop⟩ := List.append_eq_nil_iff.mp herrors
      obtain ⟨hfound, hrest⟩ := List.append_eq_nil_iff.mp hfound
      have hfine' := hfine.of (r := statementsUntil c inner [.kwEnddeclare] _) rfl
        (List.Subset.trans (List.subset_append_right _ _) (List.subset_append_left _ _))
      obtain ⟨hnext, -⟩ := statementsUntil_like hinner.like h (by decide) _ hfine'
      dsimp only
      rw [hnext, h.skip_eq rfl]
      exact List.append_eq_nil_iff.mpr ⟨List.append_eq_nil_iff.mpr ⟨hdirectives _ hfound,
        statementsUntil_clears hinner h (by decide) _ hfine' hrest⟩, terminator_clears h _ hstop⟩
    · rename_i hcolon
      rw [if_neg hcolon] at hfine herrors
      obtain ⟨hfound, hstop⟩ := List.append_eq_nil_iff.mp herrors
      exact List.append_eq_nil_iff.mpr ⟨hdirectives _ hfound, terminator_clears h _ hstop⟩

theorem shape_clears (ho : c.Ordered) (p : Nat) (hfine : Fine c changed (shape c inner p).inside)
    (himports : ∀ items, (shape c inner p).value.1 = .imports items →
      ∀ q, p < q → q < (shape c inner p).next → ¬changed q) :
    (shape c inner p).Clears (shape c' inner' p) := by
  have hdeclaration : (leaf (declaration c p)).Clears (leaf (declaration c' p)) :=
    declaration_clears h p
  cases hkind : c.kind? p with
  | none =>
    have hkind' : c'.kind? p = none := by
      rcases h.kind?_cases p with heq | ⟨k, hk, -⟩
      · rwa [heq]
      · rw [hkind] at hk
        cases hk
    rw [shape, shape, hkind, hkind']
    exact hdeclaration
  | some kind =>
    by_cases hname : kind.isName
    · rw [shape_of_name hkind hname]
      by_cases hchanged : changed p
      · obtain ⟨_, -, -, hkind'⟩ := h.name p hchanged
        have hshape' : shape c' inner' p = leaf (declaration c' p) := by
          rw [shape_of_name hkind' rfl, if_neg]
          rintro ⟨hident, -⟩
          cases hident
        rw [hshape']
        split
        · rename_i hdefine
          rw [hdefine.1] at hkind
          exact fun _ => hdeclaration (declaration_errors_of_isDefineCall ho hkind hdefine.2)
        · exact hdeclaration
      · obtain ⟨hkind', -⟩ := h.same p hchanged
        rw [shape_of_name (hkind'.trans hkind) hname, isDefineCall_respelled h hchanged]
        split
        · exact defineStatement_clears h p
        · exact hdeclaration
    · have hkind' : c'.kind? p = some kind := by
        rwa [h.kind?_eq_some (by simpa using hname)]
      rw [shape, shape, hkind, hkind']
      rw [shape, hkind] at hfine himports
      cases kind
      case semicolon => exact fun _ => rfl
      case closeTag => exact fun _ => rfl
      case inlineHtml => exact fun _ => rfl
      case kwUse =>
        intro herrors
        have hwell : ∀ e ∈ (useStatement c p).errors, e.fault ≠ .malformedUse := hfine.wellFormed
        obtain ⟨items, _, -, -, himported, -⟩ := useStatement_wellFormed hwell
        obtain ⟨hvalue, -⟩ := useStatement_respelled h (Code.lt_size_of_kind? hkind) hwell
          (himports items himported)
        exact useStatement_errors (hvalue.trans himported)
      case kwConst => exact skipStatement_clears h p
      case kwDeclare =>
        revert hfine
        dsimp only
        rw [h.isAt_eq rfl]
        split
        · rename_i hparen
          exact declareStatement_clears hinner h hkind (Code.isAt_iff.mp hparen)
        · exact fun _ => hdeclaration
      case kwIf => exact ifStatement_clears hinner h p hfine
      case kwReturn => exact skipStatement_clears h p
      case kwExit => exact skipStatement_clears h p
      case kwHaltCompiler => exact fun _ => rfl
      all_goals first | exact hdeclaration | exact absurd rfl hname

end Inside

section File

variable (ho : c.Ordered) (h : c.Respelled c' changed)
include ho h

theorem statement_clears (depth : Nat) :
    ClearsInner c changed (statement c depth) (statement c' depth) := by
  induction depth with
  | zero => exact ⟨statement_like ho h 0, fun _ _ _ => rfl⟩
  | succ depth ih =>
    refine ⟨statement_like ho h _, fun p hfine => ?_⟩
    exact shape_clears ih h ho p (fine_inside hfine) (imports_unchanged ho hfine)

omit ho in
theorem namespaceStatement_clears {inner inner' : Inner} (hinner : ClearsInner c changed inner inner')
    {p : Nat} (hheader : isNamespaceHeader c p)
    (hfine : Fine c changed (namespaceStatement c inner p).inside) :
    (namespaceStatement c inner p).Clears (namespaceStatement c' inner' p) := by
  rw [isNamespaceHeader, Bool.and_eq_true, Code.isAt_iff] at hheader
  have hname := h.declared p _ hheader.1 rfl
  have hstop : (fun q => c'.atEnd q || isNamespaceHeader c' q) =
      fun q => c.atEnd q || isNamespaceHeader c q := by
    funext q
    rw [h.atEnd_eq, isNamespaceHeader_respelled h]
  revert hfine
  simp only [namespaceStatement, Parsed.inside, isAtAny_of_free h hname,
    h.isAt_eq (rfl : TokenKind.leftBrace.isName = false), isTerminator_respelled h, h.size]
  generalize (if c.isAtAny [.ident, .nameQualified] (p + 1) then p + 2 else p + 1) = next
  intro hfine herrors
  split
  · rename_i hbrace
    rw [if_pos hbrace] at hfine herrors
    exact block_clears hinner h _ (hfine.of rfl (List.Subset.refl _)) herrors
  · rename_i hbrace
    rw [if_neg hbrace] at hfine herrors
    obtain ⟨hclosed, hrest⟩ := List.append_eq_nil_iff.mp herrors
    have hterminator : isTerminator c next := by
      by_contra hopen
      rw [if_neg hopen] at hclosed
      cases hclosed
    refine List.append_eq_nil_iff.mpr ⟨if_pos hterminator, ?_⟩
    exact manyUntil_clears hinner hstop _ _ (hfine.of rfl (List.subset_append_right _ _)) hrest

theorem topStatements_clears (hfine : Fine c changed (topStatements c)) :
    (topStatements c).Clears (topStatements c') := by
  have hinner := statement_clears ho h (c.size + 1)
  have hitem : ClearsInner c changed (topItem c) (topItem c') := by
    refine ⟨topItem_like ho h, fun p => ?_⟩
    rw [topItem, topItem, isNamespaceHeader_respelled h, h.size]
    split
    · rename_i hheader
      exact fun hfine => namespaceStatement_clears h hinner hheader (fine_inside hfine)
    · exact hinner.clears p
  rw [topStatements_eq, topStatements_eq, h.size]
  exact manyUntil_clears hitem (funext h.atEnd_eq) _ _ hfine

end File
end Parser
end NamespaceMigration
