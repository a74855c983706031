import NamespaceMigration.Proofs.Statements.Names
import NamespaceMigration.Proofs.Statements.Positions

/-! The parser goes forward. Every statement takes at least one token, so a loop over as many
statements as there are tokens comes to its end. -/
namespace NamespaceMigration

namespace Code

variable {c : Code} {p q : Nat}

/-- From one position forward to another, inside the code. -/
def Reaches (c : Code) (p q : Nat) : Prop := p ≤ q ∧ q ≤ c.size

theorem Reaches.trans {r : Nat} (h : c.Reaches p q) (h' : c.Reaches q r) : c.Reaches p r :=
  ⟨Nat.le_trans h.1 h'.1, h'.2⟩

theorem Reaches.weaken (h : c.Reaches (p + 1) q) : c.Reaches p q := ⟨Nat.le_of_succ_le h.1, h.2⟩

theorem lt_size_of_kind? {kind : TokenKind} (h : c.kind? p = some kind) : p < c.size := by
  rw [kind?, Option.map_eq_some_iff] at h
  obtain ⟨item, hitem, -⟩ := h
  exact (Array.getElem?_eq_some_iff.mp hitem).1

theorem lt_size_of_isAt {kind : TokenKind} (h : c.isAt kind p) : p < c.size :=
  lt_size_of_kind? (isAt_iff.mp h)

theorem lt_size_of_isAtAny {kinds : List TokenKind} (h : c.isAtAny kinds p) : p < c.size := by
  obtain ⟨_, -, hkind⟩ := exists_kind_of_isAtAny h
  exact lt_size_of_kind? hkind

theorem skip_reaches (kind : TokenKind) (hp : p ≤ c.size) : c.Reaches p (c.skip kind p) := by
  rw [skip]
  split
  · rename_i h
    exact ⟨Nat.le_succ p, lt_size_of_isAt h⟩
  · exact ⟨Nat.le_refl p, hp⟩

theorem Ordered.groupEnd_reaches (ho : c.Ordered) (hp : p ≤ c.size) :
    c.Reaches p (c.groupEnd p) := by
  rw [groupEnd]
  cases h : c.matching.closer? p with
  | some close =>
    obtain ⟨hlt, hsize⟩ := ho.group p close h
    exact ⟨Nat.le_succ_of_le (Nat.le_of_lt hlt), hsize⟩
  | none => exact ⟨hp, Nat.le_refl _⟩

theorem Ordered.groupEnd_reaches_succ (ho : c.Ordered) (hp : p < c.size) :
    c.Reaches (p + 1) (c.groupEnd p) := by
  rw [groupEnd]
  cases h : c.matching.closer? p with
  | some close =>
    obtain ⟨hlt, hsize⟩ := ho.group p close h
    exact ⟨Nat.succ_le_succ (Nat.le_of_lt hlt), hsize⟩
  | none => exact ⟨hp, Nat.le_refl _⟩

end Code

namespace Parser

open Code (lt_size_of_kind? lt_size_of_isAt lt_size_of_isAtAny)

variable {c : Code}

theorem follow_stop {step : Nat → Option Nat} (hstep : ∀ p next, step p = some next → p < next)
    (fuel p : Nat) : step (follow step fuel p) = none ∨ p + fuel ≤ follow step fuel p := by
  induction fuel generalizing p with
  | zero => exact Or.inr (Nat.le_refl p)
  | succ fuel ih =>
    rw [follow]
    cases hnext : step p with
    | none => exact Or.inl hnext
    | some next =>
      refine (ih next).imp_right fun hle => ?_
      have := hstep p next hnext
      dsimp only
      omega

theorem follow_reaches {step : Nat → Option Nat}
    (h : ∀ q next, step q = some next → c.Reaches q next) {fuel p : Nat} (hp : p ≤ c.size) :
    c.Reaches p (follow step fuel p) := by
  induction fuel generalizing p with
  | zero => exact ⟨Nat.le_refl p, hp⟩
  | succ fuel ih =>
    rw [follow]
    split
    · rename_i next hnext
      have := h p next hnext
      exact this.trans (ih this.2)
    · exact ⟨Nat.le_refl p, hp⟩

section Loop

variable {α : Type} {item : Nat → Parsed α} {stop : Nat → Bool}

theorem manyUntil_reaches (h : ∀ q, stop q = false → c.Reaches (q + 1) (item q).next) (fuel : Nat)
    {p : Nat} (hp : p ≤ c.size) : c.Reaches p (manyUntil item stop fuel p).next := by
  induction fuel generalizing p with
  | zero => exact ⟨Nat.le_refl p, hp⟩
  | succ fuel ih =>
    rw [manyUntil]
    split
    · exact ⟨Nat.le_refl p, hp⟩
    · rename_i hstop
      have := (h p (by simpa using hstop)).weaken
      exact this.trans (ih this.2)

theorem manyUntil_stop (h : ∀ q, stop q = false → c.Reaches (q + 1) (item q).next)
    {fuel p : Nat} (hp : c.size < p + fuel) (hle : p ≤ c.size) :
    stop (manyUntil item stop fuel p).next := by
  induction fuel generalizing p with
  | zero => omega
  | succ fuel ih =>
    rw [manyUntil]
    split
    · assumption
    · rename_i hstop
      have hnext := h p (by simpa using hstop)
      exact ih (by have := hnext.1; omega) hnext.2

end Loop

theorem terminator_reaches {p : Nat} (hp : p ≤ c.size) : c.Reaches p (terminator c p).next := by
  rw [terminator]
  split
  · rename_i h
    exact ⟨Nat.le_succ p, lt_size_of_isAtAny h⟩
  · exact ⟨Nat.le_refl p, hp⟩

section Forward

variable (ho : c.Ordered)
include ho

theorem statementEnd_reaches {start fuel p : Nat} (hp : p ≤ c.size) :
    c.Reaches p (statementEnd c start fuel p) := by
  induction fuel generalizing p with
  | zero => exact ⟨Nat.le_refl p, hp⟩
  | succ fuel ih =>
    have hstep : ∀ next, (statementStep c start p = .finish next ∨
        statementStep c start p = .goOn next) → c.Reaches p next := by
      intro next h
      rw [statementStep] at h
      split at h
      · simp only [StatementStep.finish.injEq, reduceCtorEq, or_false] at h
        subst h
        exact ⟨Nat.le_refl p, hp⟩
      · rename_i kind hkind
        have hlt := lt_size_of_kind? hkind
        have hgroup := (ho.groupEnd_reaches_succ hlt).weaken
        dsimp only at h
        split_ifs at h <;>
          simp only [StatementStep.finish.injEq, StatementStep.goOn.injEq, or_false, false_or] at h <;> subst h
        · exact ⟨Nat.le_succ p, hlt⟩
        · exact ⟨Nat.le_refl p, hp⟩
        · exact hgroup
        · exact hgroup
        · exact ⟨Nat.le_succ p, hlt⟩
    rw [statementEnd]
    split
    · rename_i next h
      exact hstep next (Or.inl h)
    · rename_i next h
      have := hstep next (Or.inr h)
      exact this.trans (ih this.2)

theorem skipStatement_reaches {p : Nat} (hp : p ≤ c.size) :
    c.Reaches p (skipStatement c p).next := by
  rw [skipStatement]
  split
  · exact ⟨Nat.le_min.mpr ⟨Nat.le_succ p, hp⟩, Nat.min_le_right _ _⟩
  · exact statementEnd_reaches ho hp

theorem skipStatement_reaches_succ {p : Nat} (hp : p < c.size) :
    c.Reaches (p + 1) (skipStatement c p).next := by
  rw [skipStatement]
  split
  · exact ⟨Nat.le_min.mpr ⟨Nat.le_refl _, hp⟩, Nat.min_le_right _ _⟩
  · rename_i hne
    have : c.Reaches p (statementEnd c p (c.size + 1) p) := statementEnd_reaches ho (Nat.le_of_lt hp)
    exact ⟨Nat.lt_of_le_of_ne this.1 (Ne.symm hne), this.2⟩

end Forward

/-- Items that were found at the positions from `p` on, or trouble there. -/
def FoundFrom (c : Code) (p : Nat) : Except Nat (List ImportItem × Nat) → Prop
  | .error trouble => c.Reaches p trouble
  | .ok (items, next) => c.Reaches (p + 1) next ∧
      ∀ item ∈ items, ∃ q, p ≤ q ∧ q < next ∧ item.nameToken = c.tokenIndex q

theorem FoundFrom.append {p q : Nat} (items : List ImportItem) {x : Except Nat (List ImportItem × Nat)}
    (hx : FoundFrom c q x) (hpq : p ≤ q)
    (hitems : ∀ item ∈ items, ∃ r, p ≤ r ∧ r < q ∧ item.nameToken = c.tokenIndex r) :
    FoundFrom c p (x >>= fun (more, stop) => .ok (items ++ more, stop)) := by
  cases x with
  | error trouble => exact ⟨Nat.le_trans hpq hx.1, hx.2⟩
  | ok found =>
    obtain ⟨⟨hnext, hsize⟩, hmore⟩ := hx
    refine ⟨⟨by omega, hsize⟩, List.forall_mem_append.mpr ⟨fun item hitem => ?_, fun item hitem => ?_⟩⟩
    · obtain ⟨r, hpr, hrq, hr⟩ := hitems item hitem
      exact ⟨r, hpr, by omega, hr⟩
    · obtain ⟨r, hqr, hr⟩ := hmore item hitem
      exact ⟨r, Nat.le_trans hpq hqr, hr⟩

theorem afterImportKind_reaches {p : Nat} (hp : p ≤ c.size) : c.Reaches p (afterImportKind c p) := by
  rw [afterImportKind]
  split
  · rename_i h
    rw [importKind?] at h
    split at h
    · rename_i hkind
      exact ⟨Nat.le_succ p, lt_size_of_kind? hkind⟩
    · rename_i hkind
      exact ⟨Nat.le_succ p, lt_size_of_kind? hkind⟩
    · cases h
  · exact ⟨Nat.le_refl p, hp⟩

theorem importAlias_reaches {p : Nat} (hp : p ≤ c.size) : c.Reaches p (importAlias c p).2 := by
  rw [importAlias]
  split
  · rename_i h
    exact ⟨by omega, lt_size_of_isAt h.2⟩
  · exact ⟨Nat.le_refl p, hp⟩

theorem groupItems_found (kind : SymbolKind) (lead : Text) (fuel : Nat) {p : Nat} (hp : p ≤ c.size) :
    FoundFrom c p (groupItems c kind lead fuel p) := by
  induction fuel generalizing p with
  | zero => exact ⟨Nat.le_refl p, hp⟩
  | succ fuel ih =>
    have hstart := afterImportKind_reaches hp
    have hitem (hname : c.isAtAny [.ident, .nameQualified] (afterImportKind c p)) :
        c.Reaches (afterImportKind c p + 1) (importAlias c (afterImportKind c p + 1)).2 :=
      importAlias_reaches (lt_size_of_isAtAny hname)
    have hlt := hstart.1
    rw [groupItems]
    split_ifs with hclose
    · exact ⟨⟨Nat.le_refl _, lt_size_of_isAt hclose⟩, by simp⟩
    · dsimp only
      split_ifs with hname hcomma hend
      · exact hstart
      · obtain ⟨hnext, -⟩ := hitem (by simpa using hname)
        refine FoundFrom.append [_] (ih (lt_size_of_isAt hcomma)) (by omega) ?_
        rw [List.forall_mem_singleton]
        exact ⟨_, hlt, by omega, rfl⟩
      · obtain ⟨hnext, -⟩ := hitem (by simpa using hname)
        refine ⟨⟨by omega, lt_size_of_isAt hend⟩, ?_⟩
        rw [List.forall_mem_singleton]
        exact ⟨_, hlt, by omega, rfl⟩
      · obtain ⟨hnext, hsize⟩ := hitem (by simpa using hname)
        exact ⟨by omega, hsize⟩

/-- What a `use` statement imports by the name at a position. -/
def namedItems (c : Code) (kind : SymbolKind) (p : Nat) : Except Nat (List ImportItem × Nat) :=
  let name := dropBackslashes (c.text p)
  if c.isAt .backslash (p + 1) ∧ c.isAt .leftBrace (p + 2) then
    groupItems c kind name (c.size + 1) (p + 3)
  else
    let (alias?, next) := importAlias c (p + 1)
    .ok ([⟨kind, name, alias?, c.tokenIndex p, none⟩], next)

theorem namedItems_found (kind : SymbolKind) {p : Nat} (hp : p < c.size) :
    FoundFrom c p (namedItems c kind p) := by
  rw [namedItems]
  dsimp only
  split
  · rename_i hgroup
    have hitems := groupItems_found kind (dropBackslashes (c.text p)) (c.size + 1)
      (lt_size_of_isAt hgroup.2)
    cases hx : groupItems c kind (dropBackslashes (c.text p)) (c.size + 1) (p + 3) with
    | error trouble =>
      rw [hx] at hitems
      exact ⟨by have := hitems.1; omega, hitems.2⟩
    | ok found =>
      obtain ⟨items, next⟩ := found
      rw [hx] at hitems
      refine ⟨⟨by have := hitems.1.1; omega, hitems.1.2⟩, fun item hitem => ?_⟩
      obtain ⟨r, hpr, hr⟩ := hitems.2 item hitem
      exact ⟨r, by omega, hr⟩
  · have hnext := importAlias_reaches hp
    refine ⟨hnext, ?_⟩
    rw [List.forall_mem_singleton]
    exact ⟨p, Nat.le_refl p, hnext.1, rfl⟩

theorem importItems_succ (kind : SymbolKind) (fuel p : Nat) : importItems c kind (fuel + 1) p =
    if !c.isAtAny [.ident, .nameQualified, .nameFullyQualified] p then .error p
    else namedItems c kind p >>= fun (items, next) =>
      if c.isAt .comma next then
        importItems c kind fuel (next + 1) >>= fun (more, stop) => .ok (items ++ more, stop)
      else .ok (items, next) := by
  rw [importItems, namedItems]
  split_ifs <;> rfl

theorem importItems_found (kind : SymbolKind) (fuel : Nat) {p : Nat} (hp : p ≤ c.size) :
    FoundFrom c p (importItems c kind fuel p) := by
  induction fuel generalizing p with
  | zero => exact ⟨Nat.le_refl p, hp⟩
  | succ fuel ih =>
    rw [importItems_succ]
    split
    · exact ⟨Nat.le_refl p, hp⟩
    · rename_i hname
      have hfound := namedItems_found (c := c) kind (lt_size_of_isAtAny (by simpa using hname))
      cases hx : namedItems c kind p with
      | error trouble =>
        rw [hx] at hfound
        exact hfound
      | ok found =>
        obtain ⟨items, next⟩ := found
        rw [hx] at hfound
        change FoundFrom c p (if _ then _ else _)
        dsimp only
        split
        · rename_i hcomma
          refine FoundFrom.append items (ih (lt_size_of_isAt hcomma)) ?_ fun item hitem => ?_
          · have := hfound.1.1
            omega
          · obtain ⟨r, hpr, hr, heq⟩ := hfound.2 item hitem
            exact ⟨r, hpr, by omega, heq⟩
        · exact hfound

section Forward

variable (ho : c.Ordered)
include ho

theorem malformedUse_reaches {found : List SyntaxError} {p : Nat} (hp : p ≤ c.size) :
    c.Reaches p (malformedUse c found p).next := skipStatement_reaches ho hp

/-- A `use` statement takes its keyword, and what it imports stands after that. -/
theorem useStatement_found {p : Nat} (hp : p < c.size) :
    c.Reaches (p + 1) (useStatement c p).next ∧
      ∀ items, (useStatement c p).value = .imports items →
        ∀ item ∈ items, ∃ q, p < q ∧ q < (useStatement c p).next ∧
          item.nameToken = c.tokenIndex q := by
  have hstart : c.Reaches (p + 1) (afterImportKind c (p + 1)) := afterImportKind_reaches hp
  have hfound := importItems_found ((importKind? c (p + 1)).getD .type) (c.size + 1) hstart.2
  rw [useStatement]
  dsimp only
  split
  · rename_i trouble htrouble
    rw [htrouble] at hfound
    exact ⟨hstart.trans (hfound.trans (malformedUse_reaches ho hfound.2)), fun items h => by cases h⟩
  · rename_i items next hok
    rw [hok] at hfound
    obtain ⟨hnext, hitems⟩ := hfound
    have hto : c.Reaches (p + 1) next := hstart.trans hnext.weaken
    split
    · rename_i hterminator
      have hstop := terminator_reaches hnext.2
      refine ⟨hto.trans hstop, fun items' h item hitem => ?_⟩
      cases h
      obtain ⟨q, hq, hqn, htoken⟩ := hitems item hitem
      exact ⟨q, Nat.lt_of_lt_of_le hstart.1 hq, Nat.lt_of_lt_of_le hqn hstop.1, htoken⟩
    · exact ⟨hto.trans (malformedUse_reaches ho hnext.2), fun items h => by cases h⟩

theorem afterModifiers_reaches {p : Nat} (hp : p ≤ c.size) : c.Reaches p (afterModifiers c p) := by
  refine follow_reaches (fun q next h => ?_) hp
  split at h
  · rename_i hkind
    cases h
    exact (ho.groupEnd_reaches_succ (lt_size_of_kind? hkind)).weaken
  all_goals first
    | cases h
      rename_i hkind
      exact ⟨Nat.le_succ q, lt_size_of_kind? hkind⟩
    | cases h

theorem body_reaches {p : Nat} (hp : p ≤ c.size) : c.Reaches p (body c p).next := by
  have hopener : c.Reaches p (follow (headerStep c) (c.size + 1) p) := by
    refine follow_reaches (fun q next h => ?_) hp
    rw [headerStep] at h
    split at h
    iterate 4 cases h
    iterate 3
      rename_i hkind
      cases h
      exact (ho.groupEnd_reaches_succ (lt_size_of_kind? hkind)).weaken
    rename_i hkind
    cases h
    exact ⟨Nat.le_succ q, lt_size_of_kind? hkind⟩
  rw [body]
  split
  · exact hopener.trans (ho.groupEnd_reaches hopener.2)
  · exact hopener

theorem declaration_reaches {p : Nat} (hp : p < c.size) :
    c.Reaches (p + 1) (declaration c p).next := by
  have hkeyword := afterModifiers_reaches ho (Nat.le_of_lt hp)
  rw [declaration]
  dsimp only
  split
  · rename_i kind hkind
    have hname : afterModifiers c p + 1 < c.size := by
      rw [classKeyword?] at hkind
      split at hkind
      · cases hkind
      · rename_i hident
        exact lt_size_of_isAt (by simpa using hident)
    have hbody : c.Reaches (afterModifiers c p + 1 + 1) (body c (afterModifiers c p + 1 + 1)).next :=
      body_reaches ho hname
    refine ⟨Nat.le_trans ?_ hbody.1, hbody.2⟩
    have := hkeyword.1
    omega
  · split
    · rename_i name hname
      rw [functionName?] at hname
      split at hname
      · rename_i hat
        cases hname
        have hskip : c.Reaches (afterModifiers c p + 1) (c.skip .ampersand (afterModifiers c p + 1)) :=
          Code.skip_reaches _ (lt_size_of_isAt hat.1)
        have hgroup := ho.groupEnd_reaches_succ (lt_size_of_isAt hat.2.2)
        have hbody := body_reaches ho hgroup.2
        refine ⟨Nat.le_trans ?_ hbody.1, hbody.2⟩
        have := hkeyword.1
        have := hskip.1
        have := hgroup.1
        omega
      · cases hname
    · exact skipStatement_reaches_succ ho hp

theorem defineStatement_reaches {p : Nat} (h : isDefineCall c p) :
    c.Reaches (p + 1) (defineStatement c p).next := by
  rw [isDefineCall, Bool.and_eq_true, Bool.and_eq_true] at h
  have hgroup := ho.groupEnd_reaches_succ (lt_size_of_isAt h.1.2)
  exact hgroup.weaken.trans (terminator_reaches hgroup.2)

end Forward

section Inside

-- Every statement inside takes at least one token.
variable (ho : c.Ordered) {inner : Inner}
  (hinner : ∀ p, p < c.size → c.Reaches (p + 1) (inner p).next)
include hinner

theorem statementsUntil_reaches (kinds : List TokenKind) {p : Nat} (hp : p ≤ c.size) :
    c.Reaches p (statementsUntil c inner kinds p).next := by
  refine manyUntil_reaches (fun q hq => hinner q ?_) _ hp
  simp only [Code.atEnd, Bool.or_eq_false_iff, decide_eq_false_iff_not, Nat.not_le] at hq
  exact hq.1

theorem block_reaches {p : Nat} (hp : p ≤ c.size) : c.Reaches p (block c inner p).next := by
  have hrest := statementsUntil_reaches hinner [.rightBrace] hp
  exact hrest.trans (Code.skip_reaches _ hrest.2)

theorem branch_reaches {p : Nat} (hp : p ≤ c.size) : c.Reaches p (branch c inner p).next := by
  rw [branch]
  split
  · rename_i hbrace
    exact Code.Reaches.weaken (block_reaches hinner (lt_size_of_isAt hbrace))
  · split
    · exact ⟨Nat.le_refl p, hp⟩
    · rename_i hend
      exact (hinner p (by simpa [Code.atEnd] using hend)).weaken

include ho

theorem braceArms_reaches (fuel : Nat) {p : Nat} (hp : p ≤ c.size) :
    c.Reaches p (braceArms c inner fuel p).next := by
  induction fuel generalizing p with
  | zero => exact ⟨Nat.le_refl p, hp⟩
  | succ fuel ih =>
    rw [braceArms]
    split
    · rename_i helseif
      have hgroup : c.Reaches (p + 1) (c.groupEnd (p + 1)) :=
        ho.groupEnd_reaches (lt_size_of_isAt helseif)
      have harm := branch_reaches hinner hgroup.2
      exact hgroup.weaken.trans (harm.trans (ih harm.2))
    · split
      · rename_i helse
        exact Code.Reaches.weaken (branch_reaches hinner (lt_size_of_isAt helse))
      · exact ⟨Nat.le_refl p, hp⟩

theorem colonArms_reaches (fuel : Nat) {p : Nat} (hp : p ≤ c.size) :
    c.Reaches p (colonArms c inner fuel p).next := by
  induction fuel generalizing p with
  | zero => exact ⟨Nat.le_refl p, hp⟩
  | succ fuel ih =>
    have harms (hlt : p < c.size) :
        c.Reaches p (let head := if c.isAt .kwElseif p then c.groupEnd (p + 1) else p + 1
          let arm := statementsUntil c inner armWords (c.skip .colon head)
          (colonArms c inner fuel arm.next).next) := by
      have hhead : c.Reaches (p + 1) (if c.isAt .kwElseif p then c.groupEnd (p + 1) else p + 1) := by
        split
        · exact ho.groupEnd_reaches hlt
        · exact ⟨Nat.le_refl _, hlt⟩
      have hskip := Code.skip_reaches .colon hhead.2
      have harm := statementsUntil_reaches hinner armWords hskip.2
      exact hhead.weaken.trans (hskip.trans (harm.trans (ih harm.2)))
    rw [colonArms]
    split
    · rename_i hkind
      exact harms (lt_size_of_kind? hkind)
    · rename_i hkind
      exact harms (lt_size_of_kind? hkind)
    · rename_i hkind
      have hnext : p + 1 ≤ c.size := lt_size_of_kind? hkind
      exact Code.Reaches.weaken (terminator_reaches hnext)
    · exact ⟨Nat.le_refl p, hp⟩

theorem ifStatement_reaches {p : Nat} (hp : p < c.size) :
    c.Reaches (p + 1) (ifStatement c inner p).next := by
  have hgroup : c.Reaches (p + 1) (c.groupEnd (p + 1)) := ho.groupEnd_reaches hp
  rw [ifStatement]
  dsimp only
  by_cases hcolon : c.isAt .colon (c.groupEnd (p + 1))
  · rw [if_pos hcolon, if_pos hcolon]
    have hfirst := statementsUntil_reaches hinner armWords (lt_size_of_isAt hcolon)
    exact hgroup.trans (Code.Reaches.weaken (hfirst.trans (colonArms_reaches ho hinner _ hfirst.2)))
  · rw [if_neg hcolon, if_neg hcolon]
    have hfirst := branch_reaches hinner hgroup.2
    exact hgroup.trans (hfirst.trans (braceArms_reaches ho hinner _ hfirst.2))

theorem declareStatement_reaches {p : Nat} (hopen : c.isAt .leftParen (p + 1)) :
    c.Reaches (p + 1) (declareStatement c inner p).next := by
  have hgroup := ho.groupEnd_reaches_succ (lt_size_of_isAt hopen)
  have hclose : c.groupEnd (p + 1) - 1 + 1 = c.groupEnd (p + 1) := by
    have := hgroup.1
    omega
  have hnext := hgroup.weaken
  simp only [declareStatement, hclose]
  split_ifs with hbrace hcolon
  · exact hnext.trans (Code.Reaches.weaken (block_reaches hinner (lt_size_of_isAt hbrace)))
  · have hrest := statementsUntil_reaches hinner [.kwEnddeclare] (lt_size_of_isAt hcolon)
    have hskip := Code.skip_reaches .kwEnddeclare hrest.2
    exact hnext.trans (Code.Reaches.weaken (hrest.trans (hskip.trans (terminator_reaches hskip.2))))
  · exact hnext.trans (terminator_reaches hnext.2)

theorem shape_reaches {p : Nat} (hp : p < c.size) : c.Reaches (p + 1) (shape c inner p).next := by
  have hone : c.Reaches (p + 1) (p + 1) := ⟨Nat.le_refl _, hp⟩
  rw [shape]
  split
  · exact hone
  · exact hone
  · exact hone
  · exact (useStatement_found ho hp).1
  · exact skipStatement_reaches_succ ho hp
  · split
    · rename_i hopen
      exact declareStatement_reaches ho hinner hopen
    · exact declaration_reaches ho hp
  · exact ifStatement_reaches ho hinner hp
  · exact skipStatement_reaches_succ ho hp
  · exact skipStatement_reaches_succ ho hp
  · exact ⟨hp, Nat.le_refl _⟩
  · split
    · rename_i hdefine
      exact defineStatement_reaches ho hdefine
    · exact declaration_reaches ho hp
  · exact declaration_reaches ho hp

end Inside

theorem statement_reaches (ho : c.Ordered) {depth p : Nat} (hp : p < c.size) :
    c.Reaches (p + 1) (statement c depth p).next := by
  induction depth generalizing p with
  | zero => exact ⟨Nat.le_refl _, hp⟩
  | succ depth ih => exact shape_reaches ho (fun q hq => ih hq) hp

end Parser
end NamespaceMigration
