import NamespaceMigration.Proofs.Statements.Respelling

/-! Code with respelled names has the same statements inside statements, and so the same scopes,
imports and declared names. -/
namespace NamespaceMigration
namespace Parser

/-- Two readings that go on at the same position and look the same. -/
def Parsed.Like {α β : Type} (see : α → β) (r r' : Parsed α) : Prop :=
  r'.next = r.next ∧ see r'.value = see r.value

/-- No position that changes stands inside a `use` statement. -/
def ImportsFree (c : Code) (changed : Nat → Prop) (s : Statement) : Prop :=
  ∀ items, s.kind = .imports items → ∀ p, changed p →
    ¬(s.first ≤ c.tokenIndex p ∧ c.tokenIndex p < s.stop)

/-- All `use` statements are well-formed, and nothing inside them changes. -/
structure Fine (c : Code) (changed : Nat → Prop) (r : Parsed (List Statement)) : Prop where
  wellFormed : ∀ e ∈ r.errors, e.fault ≠ .malformedUse
  free : ∀ s ∈ r.value, s.Everywhere (ImportsFree c changed)

variable {c c' : Code} {changed : Nat → Prop}

/-- A statement as a list of one. -/
def Parsed.single (r : Parsed Statement) : Parsed (List Statement) := ⟨[r.value], r.next, r.errors⟩

/-- What is read first, and what is read after it. -/
def Parsed.andThen (r : Parsed (List Statement)) (more : Nat → Parsed (List Statement)) :
    Parsed (List Statement) :=
  ⟨r.value ++ (more r.next).value, (more r.next).next, r.errors ++ (more r.next).errors⟩

theorem Fine.of {r r' : Parsed (List Statement)} (hfine : Fine c changed r')
    (hvalue : r'.value = r.value) (herrors : r.errors ⊆ r'.errors) : Fine c changed r :=
  ⟨fun e he => hfine.wellFormed e (herrors he), fun s hs => hfine.free s (hvalue ▸ hs)⟩

section AndThen

variable {r : Parsed (List Statement)} {more : Nat → Parsed (List Statement)}
  (hfine : Fine c changed (r.andThen more))
include hfine

theorem Fine.first : Fine c changed r :=
  ⟨fun e he => hfine.wellFormed e (List.mem_append_left _ he),
    fun s hs => hfine.free s (List.mem_append_left _ hs)⟩

theorem Fine.second : Fine c changed (more r.next) :=
  ⟨fun e he => hfine.wellFormed e (List.mem_append_right _ he),
    fun s hs => hfine.free s (List.mem_append_right _ hs)⟩

end AndThen

theorem Fine.andThen_like {r r' : Parsed (List Statement)} {more more' : Nat → Parsed (List Statement)}
    (hfine : Fine c changed (r.andThen more))
    (hr : Fine c changed r → r.Like (List.map Statement.bare) r')
    (hmore : ∀ p, Fine c changed (more p) → (more p).Like (List.map Statement.bare) (more' p)) :
    (r.andThen more).Like (List.map Statement.bare) (r'.andThen more') := by
  obtain ⟨hnext, hvalue⟩ := hr hfine.first
  obtain ⟨hnext', hvalue'⟩ := hmore r.next hfine.second
  rw [Parsed.andThen, Parsed.andThen, hnext]
  refine ⟨hnext', ?_⟩
  rw [List.map_append, List.map_append, hvalue, hvalue']

theorem Parsed.Like.single {r r' : Parsed Statement} (h : r.Like Statement.bare r') :
    r.single.Like (List.map Statement.bare) r'.single :=
  ⟨h.1, congrArg (fun s => [s]) h.2⟩

theorem manyUntil_succ {inner : Inner} {stop : Nat → Bool} {fuel p : Nat} (hp : ¬stop p) :
    manyUntil inner stop (fuel + 1) p = (inner p).single.andThen (manyUntil inner stop fuel) := by
  rw [manyUntil, if_neg hp]
  rfl

/-- Two ways to read statements that read the same as long as all is fine. -/
def SameInner (c : Code) (changed : Nat → Prop) (inner inner' : Inner) : Prop :=
  ∀ p, Fine c changed (inner p).single → (inner p).Like Statement.bare (inner' p)

section Loop

variable {inner inner' : Inner} (hinner : SameInner c changed inner inner')
include hinner

theorem manyUntil_like {stop stop' : Nat → Bool} (hstop : stop' = stop) (fuel p : Nat)
    (hfine : Fine c changed (manyUntil inner stop fuel p)) :
    (manyUntil inner stop fuel p).Like (List.map Statement.bare) (manyUntil inner' stop' fuel p) := by
  subst hstop
  induction fuel generalizing p with
  | zero => exact ⟨rfl, rfl⟩
  | succ fuel ih =>
    by_cases hp : stop' p
    · rw [manyUntil, manyUntil, if_pos hp, if_pos hp]
      exact ⟨rfl, rfl⟩
    · rw [manyUntil_succ hp] at hfine ⊢
      rw [manyUntil_succ hp]
      exact hfine.andThen_like (fun hfirst => (hinner p hfirst).single) ih

variable (h : c.Respelled c' changed)
include h

theorem statementsUntil_like {kinds : List TokenKind} (hkinds : ∀ kind ∈ kinds, kind.isName = false)
    (p : Nat) (hfine : Fine c changed (statementsUntil c inner kinds p)) :
    (statementsUntil c inner kinds p).Like (List.map Statement.bare)
      (statementsUntil c' inner' kinds p) := by
  rw [statementsUntil, statementsUntil, h.size]
  refine manyUntil_like hinner (funext fun q => ?_) _ p hfine
  rw [h.atEnd_eq, h.isAtAny_eq hkinds]

theorem block_like (p : Nat) (hfine : Fine c changed (block c inner p)) :
    (block c inner p).Like (List.map Statement.bare) (block c' inner' p) := by
  obtain ⟨hnext, hvalue⟩ := statementsUntil_like hinner h (by decide) p ⟨hfine.wellFormed, hfine.free⟩
  refine ⟨?_, hvalue⟩
  rw [block, block, hnext, h.skip_eq rfl]

theorem branch_like (p : Nat) (hfine : Fine c changed (branch c inner p)) :
    (branch c inner p).Like (List.map Statement.bare) (branch c' inner' p) := by
  revert hfine
  rw [branch, branch, h.isAt_eq rfl, h.atEnd_eq]
  split
  · exact block_like hinner h _
  · split
    · exact fun _ => ⟨rfl, rfl⟩
    · exact fun hfine => (hinner p hfine).single

theorem braceArms_like (fuel p : Nat) (hfine : Fine c changed (braceArms c inner fuel p)) :
    (braceArms c inner fuel p).Like (List.map Statement.bare) (braceArms c' inner' fuel p) := by
  induction fuel generalizing p with
  | zero => exact ⟨rfl, rfl⟩
  | succ fuel ih =>
    revert hfine
    rw [braceArms, braceArms, h.isAt_eq rfl, h.isAt_eq (rfl : TokenKind.kwElse.isName = false),
      h.groupEnd]
    split
    · exact fun hfine => Fine.andThen_like hfine (branch_like hinner h _) ih
    · split
      · exact branch_like hinner h _
      · exact fun _ => ⟨rfl, rfl⟩

theorem colonArms_like (fuel p : Nat) (hfine : Fine c changed (colonArms c inner fuel p)) :
    (colonArms c inner fuel p).Like (List.map Statement.bare) (colonArms c' inner' fuel p) := by
  induction fuel generalizing p with
  | zero => exact ⟨rfl, rfl⟩
  | succ fuel ih =>
    have harms (code : Code) (item : Inner) (hkind : code.kind? p = some .kwElseif ∨
        code.kind? p = some .kwElse) : colonArms code item (fuel + 1) p =
        (statementsUntil code item armWords (code.skip .colon
          (if code.isAt .kwElseif p then code.groupEnd (p + 1) else p + 1))).andThen
            (colonArms code item fuel) := by
      rcases hkind with hkind | hkind <;> rw [colonArms, hkind] <;> rfl
    by_cases hkind : c.kind? p = some .kwElseif ∨ c.kind? p = some .kwElse
    · have hkind' : c'.kind? p = some .kwElseif ∨ c'.kind? p = some .kwElse := by
        rwa [h.kind?_eq_some rfl, h.kind?_eq_some rfl]
      rw [harms c inner hkind] at hfine ⊢
      rw [harms c' inner' hkind', h.isAt_eq rfl, h.groupEnd, h.skip_eq rfl]
      exact hfine.andThen_like (statementsUntil_like hinner h (by decide) _) ih
    · by_cases hend : c.kind? p = some .kwEndif
      · have hend' : c'.kind? p = some .kwEndif := by rwa [h.kind?_eq_some rfl]
        rw [colonArms, colonArms, hend, hend']
        exact ⟨terminator_respelled h _, rfl⟩
      · have hnone (code : Code) (item : Inner) (hkind : ¬(code.kind? p = some .kwElseif ∨
            code.kind? p = some .kwElse)) (hend : code.kind? p ≠ some .kwEndif) :
            colonArms code item (fuel + 1) p = ⟨[], p, [errorAt code .missingTerminator p]⟩ := by
          rw [colonArms]
          split
          · rename_i hp
            exact absurd (Or.inl hp) hkind
          · rename_i hp
            exact absurd (Or.inr hp) hkind
          · rename_i hp
            exact absurd hp hend
          · rfl
        rw [hnone c inner hkind hend, hnone c' inner']
        · exact ⟨rfl, rfl⟩
        · rwa [h.kind?_eq_some rfl, h.kind?_eq_some rfl]
        · rwa [ne_eq, h.kind?_eq_some rfl]

end Loop

/-- What names see of a statement that is not finished. -/
def seeShape (v : StatementKind × List Statement) : StatementKind × List Statement :=
  (v.1.bare, v.2.map Statement.bare)

/-- The statements inside one that is not finished. -/
def Parsed.inside (r : Parsed (StatementKind × List Statement)) : Parsed (List Statement) :=
  ⟨r.value.2, r.next, r.errors⟩

theorem leaf_like {r r' : Parsed StatementKind} (h : r'.value.bare = r.value.bare ∧ r'.next = r.next) :
    (leaf r).Like seeShape (leaf r') :=
  ⟨h.2, congrArg (fun kind => (kind, [])) h.1⟩

theorem shape_of_name {inner : Inner} {p : Nat} {kind : TokenKind} (hkind : c.kind? p = some kind)
    (hname : kind.isName) : shape c inner p =
      leaf (if kind = .ident ∧ isDefineCall c p then defineStatement c p else declaration c p) := by
  rw [shape, hkind]
  cases kind <;> first | (cases hname; done) | simp

section Inside

variable {inner inner' : Inner} (hinner : SameInner c changed inner inner')
  (h : c.Respelled c' changed)
include hinner h

theorem ifStatement_like (p : Nat) (hfine : Fine c changed (ifStatement c inner p).inside) :
    (ifStatement c inner p).Like seeShape (ifStatement c' inner' p) := by
  have hinside (code : Code) (item : Inner) : (ifStatement code item p).inside =
      if code.isAt .colon (code.groupEnd (p + 1)) then
        (statementsUntil code item armWords (code.groupEnd (p + 1) + 1)).andThen
          (colonArms code item (code.size + 1))
      else
        (branch code item (code.groupEnd (p + 1))).andThen (braceArms code item (code.size + 1)) := by
    rw [ifStatement]
    split <;> rfl
  have hlike : (ifStatement c inner p).inside.Like (List.map Statement.bare)
      (ifStatement c' inner' p).inside := by
    revert hfine
    rw [hinside, hinside, h.groupEnd, h.isAt_eq rfl, h.size]
    split
    · exact fun hfine => hfine.andThen_like (statementsUntil_like hinner h (by decide) _)
        (colonArms_like hinner h _)
    · exact fun hfine => hfine.andThen_like (branch_like hinner h _) (braceArms_like hinner h _)
  exact ⟨hlike.1, congrArg (fun inside => (StatementKind.conditional, inside)) hlike.2⟩

theorem declareStatement_like (p : Nat) (hfine : Fine c changed (declareStatement c inner p).inside) :
    (declareStatement c inner p).Like seeShape (declareStatement c' inner' p) := by
  revert hfine
  simp only [declareStatement, Parsed.inside, h.groupEnd, h.isAt_eq (rfl : TokenKind.leftBrace.isName = false),
    h.isAt_eq (rfl : TokenKind.colon.isName = false)]
  split
  · intro hfine
    obtain ⟨hnext, hvalue⟩ := block_like hinner h _
      (hfine.of rfl (List.subset_append_right _ _))
    exact ⟨hnext, congrArg (fun inside => (StatementKind.other, inside)) hvalue⟩
  · split
    · intro hfine
      obtain ⟨hnext, hvalue⟩ := statementsUntil_like hinner h (by decide) _
        (hfine.of rfl (List.Subset.trans (List.subset_append_right _ _) (List.subset_append_left _ _)))
      refine ⟨?_, congrArg (fun inside => (StatementKind.other, inside)) hvalue⟩
      dsimp only
      rw [hnext, h.skip_eq rfl, terminator_respelled h]
    · exact fun _ => ⟨terminator_respelled h _, rfl⟩

theorem shape_like (ho : c.Ordered) (p : Nat) (hfine : Fine c changed (shape c inner p).inside)
    (himports : ∀ items, (shape c inner p).value.1 = .imports items →
      ∀ q, p < q → q < (shape c inner p).next → ¬changed q) :
    (shape c inner p).Like seeShape (shape c' inner' p) := by
  have hdeclaration : (leaf (declaration c p)).Like seeShape (leaf (declaration c' p)) := by
    obtain ⟨hvalue, hnext⟩ := declaration_respelled h p
    exact leaf_like ⟨congrArg _ hvalue, hnext⟩
  have hshapeless (kind : StatementKind) :
      (leaf (shapeless c kind p)).Like seeShape (leaf (shapeless c' kind p)) :=
    leaf_like ⟨rfl, skipStatement_respelled h p⟩
  cases hkind : c.kind? p with
  | none =>
    have hkind' : c'.kind? p = none := by
      rcases h.kind?_cases p with heq | ⟨k, hk, -⟩
      · rwa [heq]
      · rw [hkind] at hk
        cases hk
    rw [shape, shape, hkind, hkind']
    exact hdeclaration
  | some kind =>
    by_cases hname : kind.isName
    · rw [shape_of_name hkind hname]
      by_cases hchanged : changed p
      · -- A call of `define` by a name in full is no shape of its own, but as long.
        obtain ⟨_, -, -, hkind'⟩ := h.name p hchanged
        have hshape' : shape c' inner' p = leaf (declaration c' p) := by
          rw [shape_of_name hkind' rfl, if_neg]
          rintro ⟨hident, -⟩
          cases hident
        rw [hshape']
        split
        · rename_i hdefine
          rw [hdefine.1] at hkind
          obtain ⟨hother, hnext⟩ := declaration_of_isDefineCall ho hkind hdefine.2
          obtain ⟨hvalue', hnext'⟩ := declaration_respelled h p
          refine leaf_like ⟨?_, hnext'.trans hnext⟩
          rw [hvalue', hother]
          rfl
        · exact hdeclaration
      · obtain ⟨hkind', -⟩ := h.same p hchanged
        rw [shape_of_name (hkind'.trans hkind) hname, isDefineCall_respelled h hchanged]
        split
        · exact leaf_like ⟨rfl, defineStatement_respelled h p⟩
        · exact hdeclaration
    · have hkind' : c'.kind? p = some kind := by
        rwa [h.kind?_eq_some (by simpa using hname)]
      rw [shape, shape, hkind, hkind']
      rw [shape, hkind] at hfine himports
      cases kind
      case semicolon => exact ⟨rfl, rfl⟩
      case closeTag => exact ⟨rfl, rfl⟩
      case inlineHtml =>
        dsimp only
        rw [h.text_eq rfl hkind]
        exact ⟨rfl, rfl⟩
      case kwUse =>
        have hwell : ∀ e ∈ (useStatement c p).errors, e.fault ≠ .malformedUse := hfine.wellFormed
        obtain ⟨items, _, -, -, himported, -⟩ := useStatement_wellFormed hwell
        obtain ⟨hvalue, hnext⟩ := useStatement_respelled h (Code.lt_size_of_kind? hkind) hwell
          (himports items himported)
        exact leaf_like ⟨congrArg _ hvalue, hnext⟩
      case kwConst =>
        obtain ⟨hvalue, hnext⟩ := constStatement_respelled h p
        exact leaf_like ⟨congrArg _ hvalue, hnext⟩
      case kwDeclare =>
        revert hfine
        dsimp only
        rw [h.isAt_eq rfl]
        split
        · exact declareStatement_like hinner h p
        · exact fun _ => hdeclaration
      case kwIf => exact ifStatement_like hinner h p hfine
      case kwReturn => exact hshapeless _
      case kwExit => exact hshapeless _
      case kwHaltCompiler => exact leaf_like ⟨rfl, h.size⟩
      all_goals first | exact hdeclaration | exact absurd rfl hname

end Inside

section File

variable (ho : c.Ordered) (h : c.Respelled c' changed)
include h

omit ho in
theorem node_like {p : Nat} {found found' : Parsed (StatementKind × List Statement)}
    (hfound : found.Like seeShape found') :
    (node c p found).Like Statement.bare (node c' p found') := by
  obtain ⟨hnext, hvalue⟩ := hfound
  obtain ⟨hkind, hchildren⟩ := Prod.mk.inj hvalue
  refine ⟨hnext, ?_⟩
  rw [node, node, Statement.bare, Statement.bare, hnext, h.tokenIndex, h.tokenIndex, hkind, hchildren]

omit h in
theorem fine_inside {p : Nat} {found : Parsed (StatementKind × List Statement)}
    (hfine : Fine c changed (node c p found).single) : Fine c changed found.inside := by
  refine ⟨hfine.wellFormed, fun s hs => ?_⟩
  exact (hfine.free _ (List.mem_singleton_self _)).child hs

include ho

omit h in
theorem imports_unchanged {inner : Inner} {p : Nat} (hfine : Fine c changed (node c p (shape c inner p)).single)
    (items : List ImportItem) (hitems : (shape c inner p).value.1 = .imports items) (q : Nat) (hq : p < q)
    (hnext : q < (shape c inner p).next) : ¬changed q := by
  intro hchanged
  obtain ⟨hkind, hshape⟩ := shape_imports hitems
  have hcovers : (node c p (shape c inner p)).value.Covers c p (shape c inner p).next := by
    refine node_covers ho ?_
    rw [hshape]
    exact (useStatement_found ho (Code.lt_size_of_kind? hkind)).1
  have hfree := (hfine.free _ (List.mem_singleton_self _)).here items hitems q hchanged
  exact hfree ((hcovers.mem_iff ho (Nat.lt_of_lt_of_le hnext hcovers.le)).mpr ⟨Nat.le_of_lt hq, hnext⟩)

theorem statement_like (depth : Nat) :
    SameInner c changed (statement c depth) (statement c' depth) := by
  induction depth with
  | zero => exact fun p _ => node_like h ⟨rfl, rfl⟩
  | succ depth ih =>
    exact fun p hfine => node_like h (shape_like ih h ho p (fine_inside hfine) (imports_unchanged ho hfine))

omit ho in
theorem isNamespaceHeader_respelled (p : Nat) : isNamespaceHeader c' p = isNamespaceHeader c p := by
  rw [isNamespaceHeader, isNamespaceHeader, h.isAt_eq rfl]
  by_cases hspace : c.isAt .kwNamespace p
  · rw [isAtAny_of_free h (h.declared p _ (Code.isAt_iff.mp hspace) rfl)]
  · rw [Bool.not_eq_true] at hspace
    rw [hspace, Bool.false_and, Bool.false_and]

omit ho in
theorem namespaceStatement_like {inner inner' : Inner} (hinner : SameInner c changed inner inner')
    {p : Nat} (hheader : isNamespaceHeader c p)
    (hfine : Fine c changed (namespaceStatement c inner p).inside) :
    (namespaceStatement c inner p).Like seeShape (namespaceStatement c' inner' p) := by
  rw [isNamespaceHeader, Bool.and_eq_true, Code.isAt_iff] at hheader
  have hname := h.declared p _ hheader.1 rfl
  revert hfine
  simp only [namespaceStatement, Parsed.inside, isAtAny_of_free h hname, (h.same _ hname).2,
    h.tokenIndex, h.isAt_eq (rfl : TokenKind.leftBrace.isName = false), isTerminator_respelled h, h.size]
  generalize (if c.isAtAny [.ident, .nameQualified] (p + 1) then p + 2 else p + 1) = next
  split
  · intro hfine
    obtain ⟨hnext, hvalue⟩ := block_like hinner h _ (hfine.of rfl (List.Subset.refl _))
    exact ⟨hnext, congrArg (fun inside => (StatementKind.bare _, inside)) hvalue⟩
  · intro hfine
    have hstop : (fun q => c'.atEnd q || isNamespaceHeader c' q) =
        fun q => c.atEnd q || isNamespaceHeader c q := by
      funext q
      rw [h.atEnd_eq, isNamespaceHeader_respelled h]
    obtain ⟨hnext, hvalue⟩ := manyUntil_like hinner hstop _ _
      (hfine.of rfl (List.subset_append_right _ _))
    exact ⟨hnext, congrArg (fun inside => (StatementKind.bare _, inside)) hvalue⟩

theorem topItem_like : SameInner c changed (topItem c) (topItem c') := by
  have hinner := statement_like ho h (c.size + 1)
  intro p
  rw [topItem, topItem, isNamespaceHeader_respelled h, h.size]
  split
  · rename_i hheader
    exact fun hfine => node_like h (namespaceStatement_like h hinner hheader (fine_inside hfine))
  · exact hinner p

theorem topStatements_like (hfine : Fine c changed (topStatements c)) :
    (topStatements c).Like (List.map Statement.bare) (topStatements c') := by
  rw [topStatements_eq, topStatements_eq, h.size]
  exact manyUntil_like (topItem_like ho h) (funext h.atEnd_eq) _ _ hfine

end File
end Parser
end NamespaceMigration
