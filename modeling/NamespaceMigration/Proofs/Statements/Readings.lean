import NamespaceMigration.Proofs.Brackets.Matching
import NamespaceMigration.Proofs.Statements.Ending
import NamespaceMigration.Proofs.Statements.Tree

/-! How the statements of a file without problems are read. Each of them, however deep it stands, is what
the parser reads at one position, without a problem. -/
namespace NamespaceMigration

namespace TokenKind

/-- The kinds of opening brackets other than braces. -/
def opensInline : TokenKind → Bool
  | leftParen | leftBracket | attributeOpen => true
  | _ => false

end TokenKind

namespace Code

variable {c : Code} {p q : Nat}

/-- Bracket groups are in each other or apart. -/
structure Nested (c : Code) : Prop where
  opening : ∀ p q, c.matching.closer? p = some q → ∃ kind, c.kind? p = some kind ∧ kind.isOpeningBracket
  inside : ∀ p q p' q', c.matching.closer? p = some q → c.matching.closer? p' = some q' → p < p' → p' ≤ q →
    q' ≤ q

theorem kind?_ofTokens (tokens : List Token) (byteSize p : Nat) :
    (ofTokens tokens byteSize).kind? p = ((itemsOf tokens).map (·.2.kind))[p]? := by
  rw [kind?, items_ofTokens, List.getElem?_toArray, List.getElem?_map]

theorem nested_ofTokens (tokens : List Token) (byteSize : Nat) : (ofTokens tokens byteSize).Nested where
  opening p q h := by
    rw [kind?_ofTokens]
    exact BracketMatching.isOpeningBracket_of_closer? h
  inside p q p' q' h h' hlt hle := by
    have hmem := BracketMatching.closer?_eq_some_iff.mp h
    rcases Nat.lt_or_eq_of_le hle with hinside | rfl
    · exact Nat.le_of_lt (BracketMatching.nested_of_mem hmem (BracketMatching.closer?_eq_some_iff.mp h') hlt hinside)
    · obtain ⟨-, opening, closing, -, hclosing, hcloses⟩ := BracketMatching.brackets_of_mem hmem
      obtain ⟨kind, hkind, hopening⟩ := BracketMatching.isOpeningBracket_of_closer? h'
      rw [hclosing, Option.some.injEq] at hkind
      obtain ⟨-, hbracket⟩ := BracketMatching.brackets_of_closes hcloses
      rw [← hkind, TokenKind.not_opening_of_closing hbracket] at hopening
      cases hopening

/-- Whatever bracket but a brace opens before a position is closed before it. -/
def IsClear (c : Code) (p : Nat) : Prop :=
  ∀ q close, q < p → c.matching.closer? q = some close → c.kind? q ≠ some .leftBrace → close < p

theorem isClear_zero : c.IsClear 0 := fun _ _ hq => absurd hq (Nat.not_lt_zero _)

theorem Ordered.isClear_of_le (ho : c.Ordered) (hp : c.size ≤ p) : c.IsClear p := fun q close _ hclose _ =>
  Nat.lt_of_lt_of_le (ho.group q close hclose).2 hp

namespace IsClear

variable (hn : c.Nested) (h : c.IsClear p)
include hn h

theorem succ (hkind : ∀ kind, c.kind? p = some kind → kind.opensInline = false) : c.IsClear (p + 1) := by
  intro q close hq hclose hbrace
  rcases Nat.lt_or_eq_of_le (Nat.le_of_lt_succ hq) with hlt | rfl
  · exact Nat.lt_succ_of_lt (h q close hlt hclose hbrace)
  · obtain ⟨kind, hkind', hopening⟩ := hn.opening q close hclose
    have hinline := hkind kind hkind'
    rw [hkind'] at hbrace
    cases kind <;> first | exact absurd rfl hbrace | exact absurd hopening (by decide) | exact absurd hinline (by decide)

theorem succ_of_isAt {kind : TokenKind} (hat : c.isAt kind p) (hinline : kind.opensInline = false) :
    c.IsClear (p + 1) :=
  h.succ hn fun kind' hkind' => by
    obtain rfl := Option.some.inj (hkind'.symm.trans (isAt_iff.mp hat))
    exact hinline

theorem succ_of_isAtAny {kinds : List TokenKind} (hat : c.isAtAny kinds p)
    (hinline : ∀ kind ∈ kinds, kind.opensInline = false) : c.IsClear (p + 1) := by
  obtain ⟨kind, hmem, hkind⟩ := exists_kind_of_isAtAny hat
  exact h.succ_of_isAt hn (isAt_iff.mpr hkind) (hinline kind hmem)

theorem skip {kind : TokenKind} (hinline : kind.opensInline = false) : c.IsClear (c.skip kind p) := by
  rw [Code.skip]
  split
  · rename_i hat
    exact h.succ_of_isAt hn hat hinline
  · exact h

theorem group (ho : c.Ordered) : c.IsClear (c.groupEnd p) := by
  intro q close hq hclose hbrace
  rw [groupEnd] at hq ⊢
  cases hend : c.matching.closer? p with
  | none => exact (ho.group q close hclose).2
  | some last =>
    rw [hend] at hq
    dsimp only at hq ⊢
    rcases Nat.lt_trichotomy q p with hlt | rfl | hgt
    · have := h q close hlt hclose hbrace
      have := (ho.group p last hend).1
      omega
    · rw [hend, Option.some.injEq] at hclose
      omega
    · exact Nat.lt_succ_of_le (hn.inside p last q close hend hclose hgt (Nat.le_of_lt_succ hq))

end IsClear
end Code

namespace Parser

section Clear

variable {c : Code}

theorem follow_clear {step : Nat → Option Nat} (hstep : ∀ q next, step q = some next → c.IsClear q → c.IsClear next)
    (fuel : Nat) {p : Nat} (h : c.IsClear p) : c.IsClear (follow step fuel p) := by
  induction fuel generalizing p with
  | zero => exact h
  | succ fuel ih =>
    rw [follow]
    split
    · rename_i next hnext
      exact ih (hstep p next hnext h)
    · exact h

variable (hn : c.Nested)
include hn

theorem terminator_clear {p : Nat} (h : c.IsClear p) : c.IsClear (terminator c p).next := by
  rw [terminator]
  split
  · rename_i hat
    exact h.succ_of_isAtAny hn hat (by decide)
  · exact h

variable (ho : c.Ordered)
include ho

theorem statementEnd_clear (start fuel : Nat) {p : Nat} (h : c.IsClear p) :
    c.IsClear (statementEnd c start fuel p) := by
  induction fuel generalizing p with
  | zero => exact h
  | succ fuel ih =>
    have hstep : ∀ next, (statementStep c start p = .finish next ∨
        statementStep c start p = .goOn next) → c.IsClear next := by
      intro next hnext
      rw [statementStep] at hnext
      split at hnext
      · simp only [StatementStep.finish.injEq, reduceCtorEq, or_false] at hnext
        exact hnext ▸ h
      · rename_i kind hkind
        have hgroup := h.group hn ho
        have hplain (hinline : kind.opensInline = false) : c.IsClear (p + 1) :=
          h.succ_of_isAt hn (Code.isAt_iff.mpr hkind) hinline
        dsimp only at hnext
        split_ifs at hnext with hend hclosing hopening <;>
          simp only [StatementStep.finish.injEq, StatementStep.goOn.injEq, or_false, false_or] at hnext <;>
          subst hnext
        · exact hplain (by rcases hend with rfl | rfl <;> rfl)
        · exact h
        · exact hgroup
        · exact hgroup
        · exact hplain (by cases kind <;> first | rfl | exact absurd rfl hopening)
    rw [statementEnd]
    split
    · rename_i next hnext
      exact hstep next (.inl hnext)
    · rename_i next hnext
      exact ih (hstep next (.inr hnext))

/-- Where no statement can even start, there is no opening bracket. -/
theorem skipStatement_clear {p : Nat} (h : c.IsClear p) : c.IsClear (skipStatement c p).next := by
  rw [skipStatement]
  split
  · rename_i hstop
    rcases Nat.lt_or_ge p c.size with hp | hp
    swap
    · exact ho.isClear_of_le (Nat.le_min.mpr ⟨Nat.le_succ_of_le hp, Nat.le_refl _⟩)
    rw [show min (p + 1) c.size = p + 1 from Nat.min_eq_left hp]
    refine h.succ hn fun kind hkind => ?_
    by_contra hinline
    have hopening : kind.isOpeningBracket := by cases kind <;> first | rfl | exact absurd rfl hinline
    have hreach := ho.groupEnd_reaches_succ hp
    have hstep : statementStep c p p = .goOn (c.groupEnd p) := by
      rw [statementStep, hkind]
      cases kind <;> first | rfl | exact absurd rfl hinline
    rw [statementEnd, hstep] at hstop
    have hlater : c.groupEnd p ≤ statementEnd c p c.size (c.groupEnd p) :=
      (statementEnd_reaches ho hreach.2).1
    have := hreach.1
    dsimp only at hstop hlater
    omega
  · exact statementEnd_clear hn ho _ _ h

omit ho in
theorem afterImportKind_clear {p : Nat} (h : c.IsClear p) : c.IsClear (afterImportKind c p) := by
  rw [afterImportKind]
  split
  · rename_i hkind
    rw [importKind?] at hkind
    refine h.succ hn fun kind hat => ?_
    rw [hat] at hkind
    cases kind <;> first | rfl | cases hkind
  · exact h

omit ho in
theorem importAlias_clear {p : Nat} (h : c.IsClear p) : c.IsClear (importAlias c p).2 := by
  rw [importAlias]
  split
  · rename_i hat
    exact (h.succ_of_isAt hn hat.1 rfl).succ_of_isAt hn hat.2 rfl
  · exact h

/-- What a `use` statement is read up to. -/
def FoundClear (c : Code) : FoundItems → Prop
  | .error trouble => c.IsClear trouble
  | .ok found => c.IsClear found.2

omit hn ho in
theorem FoundClear.before {x : FoundItems} (h : FoundClear c x) (items : List ImportItem) :
    FoundClear c (x >>= fun found => .ok (items ++ found.1, found.2)) := by
  cases x <;> exact h

omit ho in
theorem groupItems_clear (kind : SymbolKind) (lead : Text) (fuel : Nat) {p : Nat} (h : c.IsClear p) :
    FoundClear c (groupItems c kind lead fuel p) := by
  induction fuel generalizing p with
  | zero => exact h
  | succ fuel ih =>
    have hname := afterImportKind_clear hn h
    rw [groupItems]
    split_ifs with hclose
    · exact h.succ_of_isAt hn hclose rfl
    dsimp only
    split_ifs with hnone hcomma hend
    · exact hname
    all_goals
      have hnext := importAlias_clear hn (hname.succ_of_isAtAny hn (by simpa using hnone) (by decide))
    · exact (ih (hnext.succ_of_isAt hn hcomma rfl)).before [_]
    · exact hnext.succ_of_isAt hn hend rfl
    · exact hnext

omit ho in
theorem namedItems_clear (kind : SymbolKind) {p : Nat} (h : c.IsClear (p + 1)) :
    FoundClear c (namedItems c kind p) := by
  rw [namedItems]
  dsimp only
  split
  · rename_i hgroup
    exact groupItems_clear hn _ _ _ ((h.succ_of_isAt hn hgroup.1 rfl).succ_of_isAt hn hgroup.2 rfl)
  · exact importAlias_clear hn h

omit ho in
theorem importItems_clear (kind : SymbolKind) (fuel : Nat) {p : Nat} (h : c.IsClear p) :
    FoundClear c (importItems c kind fuel p) := by
  induction fuel generalizing p with
  | zero => exact h
  | succ fuel ih =>
    rw [importItems_succ]
    split
    · exact h
    · rename_i hname
      have hfound := namedItems_clear hn kind (h.succ_of_isAtAny hn (by simpa using hname) (by decide))
      cases hx : namedItems c kind p with
      | error trouble =>
        rw [hx] at hfound
        exact hfound
      | ok found =>
        rw [hx] at hfound
        change FoundClear c (if _ then _ else _)
        dsimp only
        split
        · rename_i hcomma
          exact (ih (Code.IsClear.succ_of_isAt hn hfound hcomma rfl)).before found.1
        · exact hfound

theorem useStatement_clear {p : Nat} (h : c.IsClear (p + 1)) : c.IsClear (useStatement c p).next := by
  have hfound := importItems_clear hn ((importKind? c (p + 1)).getD .type) (c.size + 1)
    (afterImportKind_clear hn h)
  rw [useStatement]
  dsimp only
  split
  · rename_i trouble htrouble
    rw [htrouble] at hfound
    exact skipStatement_clear hn ho hfound
  · rename_i items next hok
    rw [hok] at hfound
    split
    · exact terminator_clear hn hfound
    · exact skipStatement_clear hn ho hfound

theorem stepBy_clear {goes : TokenKind → Option Bool}
    (hgoes : ∀ kind, goes kind = some false → kind.opensInline = false) (q next : Nat)
    (hstep : stepBy c goes q = some next) (h : c.IsClear q) : c.IsClear next := by
  rw [stepBy, Option.map_eq_some_iff] at hstep
  obtain ⟨group, hbind, rfl⟩ := hstep
  obtain ⟨kind, hkind, hgroup⟩ := Option.bind_eq_some_iff.mp hbind
  cases group with
  | false => exact h.succ_of_isAt hn (Code.isAt_iff.mpr hkind) (hgoes kind hgroup)
  | true => exact h.group hn ho

theorem afterModifiers_clear {p : Nat} (h : c.IsClear p) : c.IsClear (afterModifiers c p) := by
  rw [afterModifiers_eq]
  refine follow_clear (stepBy_clear hn ho fun kind hgoes => ?_) _ h
  cases kind <;> first | rfl | cases hgoes

theorem header_clear {p : Nat} (h : c.IsClear p) : c.IsClear (follow (headerStep c) (c.size + 1) p) := by
  rw [headerStep_eq]
  refine follow_clear (stepBy_clear hn ho fun kind hgoes => ?_) _ h
  cases kind <;> first | rfl | cases hgoes

theorem body_clear {p : Nat} (h : c.IsClear p) : c.IsClear (body c p).next := by
  have hopener := header_clear hn ho h
  rw [body]
  split
  · exact hopener.group hn ho
  · exact hopener

omit ho in
theorem classKeyword?_clear {p : Nat} (h : c.IsClear p) {kind : ClassKind} (hkind : classKeyword? c p = some kind) :
    c.IsClear (p + 1) ∧ c.isAt .ident (p + 1) := by
  rw [classKeyword?] at hkind
  split at hkind
  · cases hkind
  · rename_i hname
    refine ⟨h.succ hn fun word hword => ?_, by simpa using hname⟩
    rw [hword] at hkind
    cases word <;> first | rfl | cases hkind

theorem declaration_clear {p : Nat} (h : c.IsClear p) : c.IsClear (declaration c p).next := by
  have hkeyword := afterModifiers_clear hn ho h
  rw [declaration]
  dsimp only
  split
  · rename_i kind hkind
    obtain ⟨hname, hat⟩ := classKeyword?_clear hn hkeyword hkind
    exact body_clear hn ho (hname.succ_of_isAt hn hat rfl)
  · split
    · rename_i name hname
      obtain ⟨hat, rfl, hident, -⟩ := functionName?_eq_some_iff.mp hname
      exact body_clear hn ho
        ((((hkeyword.succ_of_isAt hn hat rfl).skip hn rfl).succ_of_isAt hn hident rfl).group hn ho)
    · exact skipStatement_clear hn ho h

omit ho in
theorem headerEnd_clear {p : Nat} (hheader : isNamespaceHeader c p) (h : c.IsClear p) :
    c.IsClear (if c.isAtAny [.ident, .nameQualified] (p + 1) = true then p + 2 else p + 1) := by
  have hnext := h.succ_of_isAt hn (Bool.and_eq_true_iff.mp hheader).1 rfl
  split
  · rename_i hnamed
    exact hnext.succ_of_isAtAny hn hnamed (by decide)
  · exact hnext

section Inside

variable {inner : Inner} (hinner : ∀ q, c.IsClear q → c.IsClear (inner q).next)
include hinner

omit hn ho in
theorem manyUntil_clear (stop : Nat → Bool) (fuel : Nat) {p : Nat} (h : c.IsClear p) :
    c.IsClear (manyUntil inner stop fuel p).next := by
  induction fuel generalizing p with
  | zero => exact h
  | succ fuel ih =>
    rw [manyUntil]
    split
    · exact h
    · exact ih (hinner p h)

omit ho in
theorem block_clear {p : Nat} (h : c.IsClear p) : c.IsClear (block c inner p).next :=
  (manyUntil_clear hinner _ _ h).skip hn rfl

omit ho in
theorem branch_clear {p : Nat} (h : c.IsClear p) : c.IsClear (branch c inner p).next := by
  rw [branch]
  split
  · rename_i hbrace
    exact block_clear hn hinner (h.succ_of_isAt hn hbrace rfl)
  · split
    · exact h
    · exact hinner p h

theorem braceArms_clear (fuel : Nat) {p : Nat} (h : c.IsClear p) : c.IsClear (braceArms c inner fuel p).next := by
  induction fuel generalizing p with
  | zero => exact h
  | succ fuel ih =>
    rw [braceArms]
    split
    · rename_i helseif
      exact ih (branch_clear hn hinner ((h.succ_of_isAt hn helseif rfl).group hn ho))
    · split
      · rename_i helse
        exact branch_clear hn hinner (h.succ_of_isAt hn helse rfl)
      · exact h

omit hinner in
theorem armHead_clear {p : Nat} (h : c.IsClear (p + 1)) :
    c.IsClear (c.skip .colon (if c.isAt .kwElseif p then c.groupEnd (p + 1) else p + 1)) := by
  split
  · exact (h.group hn ho).skip hn rfl
  · exact h.skip hn rfl

theorem colonArms_clear (fuel : Nat) {p : Nat} (h : c.IsClear p) : c.IsClear (colonArms c inner fuel p).next := by
  induction fuel generalizing p with
  | zero => exact h
  | succ fuel ih =>
    rw [colonArms]
    split
    · rename_i hkind
      exact ih (manyUntil_clear hinner _ _
        (armHead_clear hn ho (h.succ_of_isAt hn (Code.isAt_iff.mpr hkind) rfl)))
    · rename_i hkind
      exact ih (manyUntil_clear hinner _ _
        (armHead_clear hn ho (h.succ_of_isAt hn (Code.isAt_iff.mpr hkind) rfl)))
    · rename_i hkind
      exact terminator_clear hn (h.succ_of_isAt hn (Code.isAt_iff.mpr hkind) rfl)
    · exact h

theorem ifStatement_clear {p : Nat} (h : c.IsClear (p + 1)) : c.IsClear (ifStatement c inner p).next := by
  have hnext := h.group hn ho
  rw [ifStatement]
  dsimp only
  by_cases hcolon : c.isAt .colon (c.groupEnd (p + 1))
  · rw [if_pos hcolon, if_pos hcolon]
    exact colonArms_clear hn ho hinner _ (manyUntil_clear hinner _ _ (hnext.succ_of_isAt hn hcolon rfl))
  · rw [if_neg hcolon, if_neg hcolon]
    exact braceArms_clear hn ho hinner _ (branch_clear hn hinner hnext)

theorem declareStatement_clear {p : Nat} (hopen : c.isAt .leftParen (p + 1)) (h : c.IsClear (p + 1)) :
    c.IsClear (declareStatement c inner p).next := by
  have hgroup := ho.groupEnd_reaches_succ (Code.lt_size_of_isAt hopen)
  have hclose : c.groupEnd (p + 1) - 1 + 1 = c.groupEnd (p + 1) := by
    have := hgroup.1
    omega
  have hnext := h.group hn ho
  simp only [declareStatement, hclose]
  split_ifs with hbrace hcolon
  · exact block_clear hn hinner (hnext.succ_of_isAt hn hbrace rfl)
  · exact terminator_clear hn ((manyUntil_clear hinner _ _ (hnext.succ_of_isAt hn hcolon rfl)).skip hn rfl)
  · exact terminator_clear hn hnext

omit ho in
theorem namespaceStatement_clear {p : Nat} (hheader : isNamespaceHeader c p) (h : c.IsClear p) :
    c.IsClear (namespaceStatement c inner p).next := by
  have hname := headerEnd_clear hn hheader h
  rw [namespaceStatement]
  dsimp only
  generalize (if c.isAtAny [.ident, .nameQualified] (p + 1) = true then p + 2 else p + 1) = next at hname ⊢
  split
  · rename_i hbrace
    exact block_clear hn hinner (hname.succ_of_isAt hn hbrace rfl)
  · refine manyUntil_clear hinner _ _ ?_
    split
    · rename_i hend
      exact hname.succ_of_isAtAny hn hend (by decide)
    · exact hname

theorem shape_clear {p : Nat} (h : c.IsClear p) : c.IsClear (shape c inner p).next := by
  have hsucc {kind : TokenKind} (hkind : c.kind? p = some kind) (hinline : kind.opensInline = false) :
      c.IsClear (p + 1) := h.succ_of_isAt hn (Code.isAt_iff.mpr hkind) hinline
  rw [shape]
  split
  · rename_i hkind
    exact hsucc hkind rfl
  · rename_i hkind
    exact hsucc hkind rfl
  · rename_i hkind
    exact hsucc hkind rfl
  · rename_i hkind
    exact useStatement_clear hn ho (hsucc hkind rfl)
  · exact skipStatement_clear hn ho h
  · rename_i hkind
    split
    · rename_i hopen
      exact declareStatement_clear hn ho hinner hopen (hsucc hkind rfl)
    · exact declaration_clear hn ho h
  · rename_i hkind
    exact ifStatement_clear hn ho hinner (hsucc hkind rfl)
  · exact skipStatement_clear hn ho h
  · exact skipStatement_clear hn ho h
  · exact ho.isClear_of_le (Nat.le_refl _)
  · rename_i hkind
    split
    · exact terminator_clear hn ((hsucc hkind rfl).group hn ho)
    · exact declaration_clear hn ho h
  · exact declaration_clear hn ho h

end Inside

/-- After a statement no bracket but a brace is open, if none is open before it. -/
theorem statement_clear {p : Nat} (h : c.IsClear p) : c.IsClear (statement c (c.size + 1) p).next := by
  -- The statements inside are read at later positions.
  suffices hall : ∀ k p, c.size ≤ p + k → c.IsClear p → c.IsClear (statement c (c.size + 1) p).next from
    hall c.size p (Nat.le_add_left _ _) h
  intro k
  induction k with
  | zero =>
    intro p hp h
    have hkind : c.kind? p = none := by
      cases hkind : c.kind? p with
      | none => rfl
      | some kind => exact absurd (Code.lt_size_of_kind? hkind) (Nat.not_lt_of_le hp)
    rw [statement, shape, hkind]
    exact declaration_clear hn ho h
  | succ k ih =>
    intro p hp h
    rcases Nat.lt_or_ge p c.size with hlt | hge
    swap
    · exact ih p (Nat.le_trans hge (Nat.le_add_right _ _)) h
    let inner : Inner := fun q => if p < q then statement c (c.size + 1) q
      else { statement c (c.size + 1) q with next := c.size }
    have hinner (q : Nat) (hq : c.IsClear q) : c.IsClear (inner q).next := by
      by_cases hpq : p < q
      · rw [show inner q = _ from if_pos hpq]
        exact ih q (by omega) hq
      · rw [show inner q = _ from if_neg hpq]
        exact ho.isClear_of_le (Nat.le_refl _)
    rw [(nestingEnds ho).statement_eq _ p hlt (by omega),
      (nestingEnds ho).shape_later _ inner p (fun q hq => statement_reaches ho hq)
        (fun q hpq _ => (if_pos hpq).symm) hlt]
    exact shape_clear hn ho hinner h

end Clear
/-- A statement that is read at some position outside brackets without a problem. -/
def ReadBy (c : Code) (inner : Inner) (s : Statement) : Prop :=
  ∃ p n, p < c.size ∧ c.IsClear p ∧ inner p = ⟨s, n, []⟩

section OneLevel

variable {c : Code} {inner : Inner}

theorem readBy_of_errors {p : Nat} (hp : p < c.size) (hclear : c.IsClear p) (h : (inner p).errors = []) :
    ReadBy c inner (inner p).value :=
  ⟨p, (inner p).next, hp, hclear, by rw [← h]⟩

variable (hinner : ∀ q, c.IsClear q → c.IsClear (inner q).next)
include hinner

theorem manyUntil_readBy {stop : Nat → Bool} (hstop : ∀ p, c.atEnd p → stop p) (fuel : Nat) {p : Nat}
    (hclear : c.IsClear p) (h : (manyUntil inner stop fuel p).errors = []) :
    ∀ s ∈ (manyUntil inner stop fuel p).value, ReadBy c inner s := by
  induction fuel generalizing p with
  | zero => exact List.forall_mem_nil _
  | succ fuel ih =>
    rw [manyUntil] at h ⊢
    by_cases hend : stop p
    · rw [if_pos hend]
      exact List.forall_mem_nil _
    · rw [if_neg hend] at h ⊢
      obtain ⟨hhead, htail⟩ := List.append_eq_nil_iff.mp h
      have hp : p < c.size := lt_size_of_atEnd (Bool.eq_false_iff.mpr fun hp => hend (hstop p hp))
      exact List.forall_mem_cons.mpr ⟨readBy_of_errors hp hclear hhead, ih (hinner p hclear) htail⟩

theorem statementsUntil_readBy (kinds : List TokenKind) {p : Nat} (hclear : c.IsClear p)
    (h : (statementsUntil c inner kinds p).errors = []) :
    ∀ s ∈ (statementsUntil c inner kinds p).value, ReadBy c inner s :=
  manyUntil_readBy hinner (fun q hq => by rw [hq, Bool.true_or]) _ hclear h

variable (hn : c.Nested)
include hn

theorem branch_readBy {p : Nat} (hclear : c.IsClear p) (h : (branch c inner p).errors = []) :
    ∀ s ∈ (branch c inner p).value, ReadBy c inner s := by
  rw [branch] at h ⊢
  split
  · rename_i hbrace
    rw [if_pos hbrace] at h
    exact statementsUntil_readBy hinner _ (hclear.succ_of_isAt hn hbrace rfl) h
  · rename_i hbrace
    rw [if_neg hbrace] at h
    split
    · exact List.forall_mem_nil _
    · rename_i hend
      rw [if_neg hend] at h
      exact List.forall_mem_singleton.mpr
        (readBy_of_errors (lt_size_of_atEnd (Bool.eq_false_iff.mpr hend)) hclear h)

variable (ho : c.Ordered)
include ho

theorem braceArms_readBy (fuel : Nat) {p : Nat} (hclear : c.IsClear p)
    (h : (braceArms c inner fuel p).errors = []) : ∀ s ∈ (braceArms c inner fuel p).value, ReadBy c inner s := by
  induction fuel generalizing p with
  | zero => exact List.forall_mem_nil _
  | succ fuel ih =>
    rw [braceArms] at h ⊢
    split
    · rename_i hword
      rw [if_pos hword] at h
      obtain ⟨harm, hrest⟩ := List.append_eq_nil_iff.mp h
      have hhead := (hclear.succ_of_isAt hn hword rfl).group hn ho
      exact List.forall_mem_append.mpr
        ⟨branch_readBy hinner hn hhead harm, ih (branch_clear hn hinner hhead) hrest⟩
    · rename_i hword
      rw [if_neg hword] at h
      split
      · rename_i helse
        rw [if_pos helse] at h
        exact branch_readBy hinner hn (hclear.succ_of_isAt hn helse rfl) h
      · exact List.forall_mem_nil _

theorem colonArms_readBy (fuel : Nat) {p : Nat} (hclear : c.IsClear p)
    (h : (colonArms c inner fuel p).errors = []) : ∀ s ∈ (colonArms c inner fuel p).value, ReadBy c inner s := by
  induction fuel generalizing p with
  | zero => exact List.forall_mem_nil _
  | succ fuel ih =>
    have harms (hnext : c.IsClear (p + 1))
        (h : (let head := if c.isAt .kwElseif p then c.groupEnd (p + 1) else p + 1
          let arm := statementsUntil c inner armWords (c.skip .colon head)
          arm.errors ++ (colonArms c inner fuel arm.next).errors) = []) :
        ∀ s ∈ (let head := if c.isAt .kwElseif p then c.groupEnd (p + 1) else p + 1
          let arm := statementsUntil c inner armWords (c.skip .colon head)
          arm.value ++ (colonArms c inner fuel arm.next).value), ReadBy c inner s := by
      obtain ⟨harm, hrest⟩ := List.append_eq_nil_iff.mp h
      have hhead := armHead_clear hn ho hnext
      exact List.forall_mem_append.mpr
        ⟨statementsUntil_readBy hinner _ hhead harm, ih (manyUntil_clear hinner _ _ hhead) hrest⟩
    rw [colonArms] at h ⊢
    split at h
    · rename_i hkind
      exact harms (hclear.succ_of_isAt hn (Code.isAt_iff.mpr hkind) rfl) h
    · rename_i hkind
      exact harms (hclear.succ_of_isAt hn (Code.isAt_iff.mpr hkind) rfl) h
    · exact List.forall_mem_nil _
    · exact List.forall_mem_nil _

theorem ifStatement_readBy {p : Nat} (hclear : c.IsClear (p + 1)) (h : (ifStatement c inner p).errors = []) :
    ∀ s ∈ (ifStatement c inner p).value.2, ReadBy c inner s := by
  have hnext := hclear.group hn ho
  rw [ifStatement] at h ⊢
  dsimp only at h ⊢
  obtain ⟨hfirst, hrest⟩ := List.append_eq_nil_iff.mp h
  by_cases hcolon : c.isAt .colon (c.groupEnd (p + 1))
  · rw [if_pos hcolon] at hfirst hrest ⊢
    rw [if_pos hcolon] at hrest ⊢
    have hbody := hnext.succ_of_isAt hn hcolon rfl
    exact List.forall_mem_append.mpr ⟨statementsUntil_readBy hinner _ hbody hfirst,
      colonArms_readBy hinner hn ho _ (manyUntil_clear hinner _ _ hbody) hrest⟩
  · rw [if_neg hcolon] at hfirst hrest ⊢
    rw [if_neg hcolon] at hrest ⊢
    exact List.forall_mem_append.mpr ⟨branch_readBy hinner hn hnext hfirst,
      braceArms_readBy hinner hn ho _ (branch_clear hn hinner hnext) hrest⟩

theorem declareStatement_readBy {p : Nat} (hopen : c.isAt .leftParen (p + 1)) (hclear : c.IsClear (p + 1))
    (h : (declareStatement c inner p).errors = []) :
    ∀ s ∈ (declareStatement c inner p).value.2, ReadBy c inner s := by
  have hgroup := ho.groupEnd_reaches_succ (Code.lt_size_of_isAt hopen)
  have hclose : c.groupEnd (p + 1) - 1 + 1 = c.groupEnd (p + 1) := by
    have := hgroup.1
    omega
  have hnext := hclear.group hn ho
  simp only [declareStatement, hclose] at h ⊢
  split
  · rename_i hbrace
    rw [if_pos hbrace] at h
    exact statementsUntil_readBy hinner _ (hnext.succ_of_isAt hn hbrace rfl) (List.append_eq_nil_iff.mp h).2
  · rename_i hbrace
    rw [if_neg hbrace] at h
    split
    · rename_i hcolon
      rw [if_pos hcolon] at h
      exact statementsUntil_readBy hinner _ (hnext.succ_of_isAt hn hcolon rfl)
        (List.append_eq_nil_iff.mp (List.append_eq_nil_iff.mp h).1).2
    · exact List.forall_mem_nil _

omit ho in
theorem namespaceStatement_readBy {p : Nat} (hheader : isNamespaceHeader c p) (hclear : c.IsClear p)
    (h : (namespaceStatement c inner p).errors = []) :
    ∀ s ∈ (namespaceStatement c inner p).value.2, ReadBy c inner s := by
  have hname := headerEnd_clear hn hheader hclear
  rw [namespaceStatement] at h ⊢
  dsimp only at h ⊢
  generalize (if c.isAtAny [.ident, .nameQualified] (p + 1) = true then p + 2 else p + 1) = next at h hname ⊢
  split
  · rename_i hbrace
    rw [if_pos hbrace] at h
    exact statementsUntil_readBy hinner _ (hname.succ_of_isAt hn hbrace rfl) h
  · rename_i hbrace
    rw [if_neg hbrace] at h
    refine manyUntil_readBy hinner (fun q hq => by rw [hq, Bool.true_or]) _ ?_ (List.append_eq_nil_iff.mp h).2
    split
    · rename_i hend
      exact hname.succ_of_isAtAny hn hend (by decide)
    · exact hname

/-- What is read at a position has statements inside that are read, too. -/
theorem shape_readBy {p : Nat} (hclear : c.IsClear p) (h : (shape c inner p).errors = []) :
    ∀ s ∈ (shape c inner p).value.2, ReadBy c inner s := by
  rw [shape] at h ⊢
  split <;> try exact List.forall_mem_nil _
  · rename_i hkind
    rw [hkind] at h
    dsimp only at h
    split
    · rename_i hparen
      rw [if_pos hparen] at h
      exact declareStatement_readBy hinner hn ho hparen
        (hclear.succ_of_isAt hn (Code.isAt_iff.mpr hkind) rfl) h
    · exact List.forall_mem_nil _
  · rename_i hkind
    rw [hkind] at h
    exact ifStatement_readBy hinner hn ho (hclear.succ_of_isAt hn (Code.isAt_iff.mpr hkind) rfl) h

end OneLevel

variable {c : Code}

theorem namespaceStatement_space (c : Code) (inner : Inner) (p : Nat) :
    ∃ name? token? braced, (namespaceStatement c inner p).value.1 = .space name? token? braced := by
  rw [namespaceStatement]
  dsimp only
  generalize (if c.isAtAny [.ident, .nameQualified] (p + 1) = true then p + 2 else p + 1) = next
  cases c.isAt .leftBrace next <;> exact ⟨_, _, _, rfl⟩

/-- A statement that the parser of a file reads without a problem, or the header of a namespace. -/
def IsRead (c : Code) (s : Statement) : Prop :=
  ReadBy c (statement c (c.size + 1)) s ∨ ∃ name? token? braced, s.kind = .space name? token? braced

section AllLevels

variable (hn : c.Nested) (ho : c.Ordered)
include hn ho

theorem ReadBy.children {s : Statement} (h : ReadBy c (statement c (c.size + 1)) s) :
    ∀ child ∈ s.children, ReadBy c (statement c (c.size + 1)) child := by
  obtain ⟨p, n, hp, hclear, hread⟩ := h
  rw [(nestingEnds ho).statement_eq _ p hp (by omega), node, Parsed.mk.injEq] at hread
  rw [← hread.1]
  exact shape_readBy (fun q hq => statement_clear hn ho hq) hn ho hclear hread.2.2

omit hn ho in
mutual

theorem ReadBy.everywhere (hn : c.Nested) (ho : c.Ordered) (s : Statement)
    (h : ReadBy c (statement c (c.size + 1)) s) : s.Everywhere (IsRead c) := by
  match s with
  | ⟨kind, first, stop, doc?, children⟩ =>
    exact .intro (.inl h) (ReadBy.everywhereAll hn ho children (ReadBy.children hn ho h))

theorem ReadBy.everywhereAll (hn : c.Nested) (ho : c.Ordered) (ss : List Statement)
    (h : ∀ s ∈ ss, ReadBy c (statement c (c.size + 1)) s) : ∀ s ∈ ss, s.Everywhere (IsRead c) := by
  match ss with
  | [] => exact List.forall_mem_nil _
  | s :: ss =>
    rw [List.forall_mem_cons] at h ⊢
    exact ⟨ReadBy.everywhere hn ho s h.1, ReadBy.everywhereAll hn ho ss h.2⟩

end

theorem topItem_clear {p : Nat} (h : c.IsClear p) : c.IsClear (topItem c p).next := by
  have hinner (q : Nat) (hq : c.IsClear q) : c.IsClear (statement c (c.size + 1) q).next :=
    statement_clear hn ho hq
  rw [topItem]
  split
  · rename_i hheader
    exact namespaceStatement_clear hn hinner hheader h
  · exact hinner p h

theorem topStatements_isRead (h : (topStatements c).errors = []) :
    ∀ s ∈ (topStatements c).value, s.Everywhere (IsRead c) := by
  rw [topStatements_eq] at h ⊢
  intro s hs
  obtain ⟨p, n, hp, hclear, hread⟩ :=
    manyUntil_readBy (fun q hq => topItem_clear hn ho hq) (fun _ => id) _ Code.isClear_zero h s hs
  change topItem c p = _ at hread
  rw [topItem] at hread
  split at hread
  · rename_i hheader
    obtain ⟨name?, token?, braced, hspace⟩ :=
      namespaceStatement_space c (statement c (c.size + 1)) p
    have hkind : s.kind = .space name? token? braced := by
      rw [node, Parsed.mk.injEq] at hread
      rw [← hread.1]
      exact hspace
    refine .intro (.inr ⟨name?, token?, braced, hkind⟩) ?_
    rw [node, Parsed.mk.injEq] at hread
    rw [← hread.1]
    exact ReadBy.everywhereAll hn ho _
      (namespaceStatement_readBy (fun q hq => statement_clear hn ho hq) hn hheader hclear hread.2.2)
  · exact ReadBy.everywhere hn ho s ⟨p, n, hp, hclear, hread⟩

end AllLevels
end Parser

namespace SourceFile

theorem exists_reading {t : Text} (herrors : (parse t).errors = []) {l : Located}
    (hl : l ∈ (parse t).outline.tail)
    (hspace : ∀ name? token? braced, l.statement.kind ≠ .space name? token? braced) :
    ∃ p n, p < (Code.ofText t).size ∧ (Code.ofText t).IsClear p ∧
      Parser.statement (.ofText t) ((Code.ofText t).size + 1) p = ⟨l.statement, n, []⟩ := by
  have hall := Parser.topStatements_isRead (Code.nested_ofTokens _ _) (Code.ordered_ofTokens _ _)
    (topErrors herrors)
  rw [tail_outline] at hl
  rcases (outlineAll_everywhere [] 0 _ [] 1 _ hall l hl).here with hread | ⟨name?, token?, braced, hkind⟩
  · exact hread
  · exact absurd hkind (hspace name? token? braced)

end SourceFile
end NamespaceMigration
