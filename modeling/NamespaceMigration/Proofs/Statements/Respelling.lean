import NamespaceMigration.Proofs.Statements.Bare

/-! The parser does not care how names are spelled. Code in which some names are written in full
reads as the same statements, as long as these names declare nothing and stand in no import. -/
namespace NamespaceMigration

namespace TokenKind

/-- After these kinds stands the name of what is declared. -/
def declaresNext : TokenKind → Bool
  | kwClass | kwInterface | kwTrait | kwNamespace | kwFunction | kwConst => true
  | _ => false

end TokenKind

/-- Nothing around a name says that it declares something or is the key of a directive. -/
structure Code.IsFree (c : Code) (p : Nat) : Prop where
  declared : ∀ q kind, p = q + 1 → c.kind? q = some kind → kind.declaresNext = false
  byReference : ∀ q, p = q + 2 → c.kind? q = some .kwFunction → c.kind? (q + 1) ≠ some .ampersand
  enumeration : c.kind? p = some .ident → Text.eqIgnoreCase (c.text p) "enum" →
    c.kind? (p + 1) ≠ some .ident
  enumerated : ∀ q, p = q + 1 → c.kind? q = some .ident → Text.eqIgnoreCase (c.text q) "enum" →
    c.kind? p ≠ some .ident
  constant : ∀ q, p = q + 1 → c.kind? q = some .comma → c.kind? p = some .ident →
    c.kind? (p + 1) ≠ some .equals
  directive : ∀ q, p = q + 2 → c.kind? q = some .kwDeclare → c.kind? (q + 1) = some .leftParen →
    c.kind? p = some .ident → c.kind? (p + 1) ≠ some .equals

/-- Code in which the names at the changed positions are written in full. None of them declares a
class, a function or a constant. -/
structure Code.Respelled (c c' : Code) (changed : Nat → Prop) : Prop where
  size : c'.size = c.size
  tokenIndex : ∀ p, c'.tokenIndex p = c.tokenIndex p
  groupEnd : ∀ p, c'.groupEnd p = c.groupEnd p
  same : ∀ p, ¬changed p → c'.kind? p = c.kind? p ∧ c'.text p = c.text p
  name : ∀ p, changed p → ∃ kind, c.kind? p = some kind ∧ kind.isName ∧
    c'.kind? p = some .nameFullyQualified
  free : ∀ p, changed p → c.IsFree p

namespace Code.Respelled

variable {c c' : Code} {changed : Nat → Prop} (h : c.Respelled c' changed)
include h

theorem declared (p : Nat) (kind : TokenKind) (hkind : c.kind? p = some kind)
    (hdeclares : kind.declaresNext) : ¬changed (p + 1) := by
  intro hp
  have := (h.free _ hp).declared p kind rfl hkind
  rw [hdeclares] at this
  cases this

theorem byReference (p : Nat) (hfunction : c.kind? p = some .kwFunction)
    (hampersand : c.kind? (p + 1) = some .ampersand) : ¬changed (p + 2) :=
  fun hp => (h.free _ hp).byReference p rfl hfunction hampersand

theorem enumeration (p : Nat) (hident : c.kind? p = some .ident)
    (henum : Text.eqIgnoreCase (c.text p) "enum") (hnext : c.kind? (p + 1) = some .ident) :
    ¬changed p ∧ ¬changed (p + 1) :=
  ⟨fun hp => (h.free _ hp).enumeration hident henum hnext,
    fun hp => (h.free _ hp).enumerated p rfl hident henum hnext⟩

theorem constant (p : Nat) (hcomma : c.kind? p = some .comma) (hident : c.kind? (p + 1) = some .ident)
    (hequals : c.kind? (p + 2) = some .equals) : ¬changed (p + 1) :=
  fun hp => (h.free _ hp).constant p rfl hcomma hident hequals

theorem kind?_cases (p : Nat) : c'.kind? p = c.kind? p ∨
    ∃ kind, c.kind? p = some kind ∧ kind.isName ∧ c'.kind? p = some .nameFullyQualified := by
  by_cases hp : changed p
  · exact Or.inr (h.name p hp)
  · exact Or.inl (h.same p hp).1

theorem kind?_eq_some {kind : TokenKind} (hkind : kind.isName = false) (p : Nat) :
    c'.kind? p = some kind ↔ c.kind? p = some kind := by
  rcases h.kind?_cases p with heq | ⟨k, hk, hname, hk'⟩
  · rw [heq]
  · rw [hk, hk', Option.some.injEq, Option.some.injEq]
    constructor
    · rintro rfl
      cases hkind
    · rintro rfl
      rw [hname] at hkind
      cases hkind

theorem text_eq {kind : TokenKind} (hkind : kind.isName = false) {p : Nat}
    (hp : c.kind? p = some kind) : c'.text p = c.text p := by
  by_cases hchanged : changed p
  · obtain ⟨k, hk, hname, -⟩ := h.name p hchanged
    rw [hk, Option.some.injEq] at hp
    subst hp
    rw [hname] at hkind
    cases hkind
  · exact (h.same p hchanged).2

theorem isAt_eq {kind : TokenKind} (hkind : kind.isName = false) (p : Nat) :
    c'.isAt kind p = c.isAt kind p := by
  rw [Bool.eq_iff_iff, isAt_iff, isAt_iff, h.kind?_eq_some hkind]

theorem isAtAny_eq {kinds : List TokenKind} (hkinds : ∀ kind ∈ kinds, kind.isName = false) (p : Nat) :
    c'.isAtAny kinds p = c.isAtAny kinds p := by
  rw [isAtAny, isAtAny]
  rcases h.kind?_cases p with heq | ⟨k, hk, hname, hk'⟩
  · rw [heq]
  · have hnone {kind : TokenKind} (hkind : kind.isName) : kinds.contains kind = false := by
      rw [Bool.eq_false_iff, ne_eq, List.contains_iff_mem]
      intro hmem
      rw [hkinds kind hmem] at hkind
      cases hkind
    rw [hk, hk', Option.any_some, Option.any_some, hnone hname, hnone rfl]

theorem isAt_ident_eq {p : Nat} (hp : ¬changed p) : c'.isAt .ident p = c.isAt .ident p := by
  rw [isAt, isAt, (h.same p hp).1]

theorem skip_eq {kind : TokenKind} (hkind : kind.isName = false) (p : Nat) :
    c'.skip kind p = c.skip kind p := by
  rw [skip, skip, h.isAt_eq hkind]

theorem atEnd_eq (p : Nat) : c'.atEnd p = c.atEnd p := by rw [atEnd, atEnd, h.size]

end Code.Respelled

namespace Parser

variable {c c' : Code} {changed : Nat → Prop} (h : c.Respelled c' changed)
include h

theorem isTerminator_respelled (p : Nat) : isTerminator c' p = isTerminator c p :=
  h.isAtAny_eq (by decide) p

theorem terminator_respelled (p : Nat) : (terminator c' p).next = (terminator c p).next := by
  rw [terminator, terminator, isTerminator_respelled h]
  split <;> rfl

theorem endsAtBrace_respelled (p : Nat) : endsAtBrace c' p = endsAtBrace c p := by
  rw [endsAtBrace, endsAtBrace, h.isAt_eq rfl, h.isAt_eq rfl]
  by_cases hp : c.isAt .keyword p
  · rw [h.text_eq rfl (Code.isAt_iff.mp hp)]
  · rw [Bool.not_eq_true] at hp
    rw [hp, Bool.false_and, Bool.false_and]

theorem statementStep_respelled (start p : Nat) :
    statementStep c' start p = statementStep c start p := by
  have hafter : c'.isAtAny [.kwCatch, .kwFinally] = c.isAtAny [.kwCatch, .kwFinally] :=
    funext (h.isAtAny_eq (by decide))
  rw [statementStep, statementStep]
  rcases h.kind?_cases p with heq | ⟨k, hk, hname, hk'⟩
  · rw [heq, h.groupEnd, endsAtBrace_respelled h, hafter]
  · rw [hk, hk']
    cases k <;> first | rfl | cases hname

theorem statementEnd_respelled (start fuel p : Nat) :
    statementEnd c' start fuel p = statementEnd c start fuel p := by
  induction fuel generalizing p with
  | zero => rfl
  | succ fuel ih =>
    rw [statementEnd, statementEnd, statementStep_respelled h]
    split
    · rfl
    · exact ih _

theorem skipStatement_respelled (p : Nat) :
    (skipStatement c' p).next = (skipStatement c p).next := by
  rw [skipStatement, skipStatement, statementEnd_respelled h, h.size]
  split <;> rfl

theorem importKind?_respelled (p : Nat) : importKind? c' p = importKind? c p := by
  rw [importKind?, importKind?]
  rcases h.kind?_cases p with heq | ⟨k, hk, hname, hk'⟩
  · rw [heq]
  · rw [hk, hk']
    cases k <;> first | rfl | cases hname

theorem afterImportKind_respelled (p : Nat) : afterImportKind c' p = afterImportKind c p := by
  rw [afterImportKind, afterImportKind, importKind?_respelled h]

theorem importAlias_respelled {p : Nat}
    (hfree : ∀ q, p ≤ q → q < (importAlias c p).2 → ¬changed q) : importAlias c' p = importAlias c p := by
  rw [importAlias, importAlias, h.isAt_eq rfl]
  rw [importAlias] at hfree
  by_cases has : c.isAt .kwAs p
  · by_cases hp : changed (p + 1)
    · obtain ⟨k, hk, -, hk'⟩ := h.name _ hp
      have hnot : ¬c.isAt .ident (p + 1) := by
        intro hident
        rw [if_pos ⟨has, hident⟩] at hfree
        exact hfree (p + 1) (Nat.le_succ p) (Nat.lt_succ_self _) hp
      have hnot' : ¬c'.isAt .ident (p + 1) := by
        rw [Code.isAt_iff, hk']
        rintro ⟨⟩
      rw [if_neg fun hand => hnot' hand.2, if_neg fun hand => hnot hand.2]
    · rw [h.isAt_ident_eq hp, (h.same _ hp).2]
  · rw [if_neg fun hand => has hand.1, if_neg fun hand => has hand.1]

theorem isAtAny_of_free {kinds : List TokenKind} {p : Nat} (hp : ¬changed p) :
    c'.isAtAny kinds p = c.isAtAny kinds p := by
  rw [Code.isAtAny, Code.isAtAny, (h.same p hp).1]

theorem groupItems_respelled {kind : SymbolKind} {lead : Text} {fuel p next : Nat}
    {items : List ImportItem} (hp : p ≤ c.size) (hok : groupItems c kind lead fuel p = .ok (items, next))
    (hfree : ∀ q, p ≤ q → q < next → ¬changed q) :
    groupItems c' kind lead fuel p = .ok (items, next) := by
  induction fuel generalizing p items next with
  | zero => cases hok
  | succ fuel ih =>
    have hstart := afterImportKind_reaches hp
    rw [groupItems, h.isAt_eq rfl, importKind?_respelled h, afterImportKind_respelled h]
    rw [groupItems] at hok
    generalize afterImportKind c p = name at hstart hok ⊢
    by_cases hclose : c.isAt .rightBrace p
    · rw [if_pos hclose] at hok ⊢
      exact hok
    · rw [if_neg hclose] at hok ⊢
      dsimp only at hok ⊢
      by_cases hname : c.isAtAny [.ident, .nameQualified] name
      · have hlt := Code.lt_size_of_isAtAny hname
        have halias : c.Reaches (name + 1) (importAlias c (name + 1)).2 := importAlias_reaches hlt
        rw [if_neg (by simpa using hname)] at hok
        -- The name and its alias come before all that is read later.
        have hthis (hnext : (importAlias c (name + 1)).2 ≤ next) :
            c'.isAtAny [.ident, .nameQualified] name = c.isAtAny [.ident, .nameQualified] name ∧
              c'.text name = c.text name ∧ importAlias c' (name + 1) = importAlias c (name + 1) := by
          have hfrom := hstart.1
          have hto := halias.1
          have hn := hfree name hfrom (by omega)
          exact ⟨isAtAny_of_free h hn, (h.same name hn).2,
            importAlias_respelled h fun q hq hq' => hfree q (by omega) (by omega)⟩
        by_cases hcomma : c.isAt .comma (importAlias c (name + 1)).2
        · rw [if_pos hcomma] at hok
          obtain ⟨⟨more, stop⟩, hrest, hitems⟩ := bind_eq_ok hok
          cases hitems
          have hsize := Code.lt_size_of_isAt hcomma
          have hfound := groupItems_found kind lead fuel hsize
          rw [Nat.succ_eq_add_one, hrest] at hfound
          have hlater := hfound.1.1
          obtain ⟨hat, htext, hali⟩ := hthis (by omega)
          have hfrom := hstart.1
          have hto := halias.1
          have hmore := ih hsize hrest fun q hq hq' => hfree q (by omega) hq'
          rw [hat, if_neg (by simpa using hname), htext, hali, h.isAt_eq rfl, if_pos hcomma, hmore,
            h.tokenIndex]
          rfl
        · rw [if_neg hcomma] at hok
          by_cases hend : c.isAt .rightBrace (importAlias c (name + 1)).2
          · rw [if_pos hend] at hok
            cases hok
            obtain ⟨hat, htext, hali⟩ := hthis (Nat.le_succ _)
            rw [hat, if_neg (by simpa using hname), htext, hali, h.isAt_eq rfl, if_neg hcomma,
              h.isAt_eq rfl, if_pos hend, h.tokenIndex]
          · rw [if_neg hend] at hok
            cases hok
      · rw [if_pos (by simpa using hname)] at hok
        cases hok

/-- The items after one that ends at `next`. -/
theorem moreItems_respelled {kind : SymbolKind} {fuel next stop : Nat} {items all : List ImportItem}
    (hnext : next ≤ c.size)
    (ih : ∀ {p next : Nat} {items : List ImportItem}, p ≤ c.size →
      importItems c kind fuel p = .ok (items, next) → (∀ q, p ≤ q → q < next → ¬changed q) →
      importItems c' kind fuel p = .ok (items, next))
    (hok : (if c.isAt .comma next then do
        let (more, stop) ← importItems c kind fuel (next + 1)
        .ok (items ++ more, stop)
      else .ok (items, next)) = Except.ok (all, stop)) :
    c.Reaches next stop ∧ ((∀ q, next ≤ q → q < stop → ¬changed q) →
      (if c'.isAt .comma next then do
          let (more, stop) ← importItems c' kind fuel (next + 1)
          .ok (items ++ more, stop)
        else .ok (items, next)) = Except.ok (all, stop)) := by
  rw [h.isAt_eq rfl]
  split at hok
  · rename_i hcomma
    obtain ⟨⟨more, last⟩, hrest, hall⟩ := bind_eq_ok hok
    cases hall
    have hsize : next + 1 ≤ c.size := Code.lt_size_of_isAt hcomma
    have hfound := importItems_found kind fuel hsize
    rw [hrest] at hfound
    refine ⟨hfound.1.weaken.weaken, fun hfree => ?_⟩
    rw [if_pos hcomma, ih hsize hrest fun q hq hq' => hfree q (by omega) hq']
    rfl
  · rename_i hcomma
    cases hok
    exact ⟨⟨Nat.le_refl _, hnext⟩, fun _ => if_neg hcomma⟩

theorem importItems_respelled {kind : SymbolKind} {fuel p next : Nat} {items : List ImportItem}
    (hp : p ≤ c.size) (hok : importItems c kind fuel p = .ok (items, next))
    (hfree : ∀ q, p ≤ q → q < next → ¬changed q) :
    importItems c' kind fuel p = .ok (items, next) := by
  induction fuel generalizing p items next with
  | zero => cases hok
  | succ fuel ih =>
    rw [importItems] at hok ⊢
    by_cases hname : c.isAtAny [.ident, .nameQualified, .nameFullyQualified] p
    · have hlt : p + 1 ≤ c.size := Code.lt_size_of_isAtAny hname
      rw [if_neg (by simpa using hname)] at hok
      rw [h.isAt_eq rfl, h.isAt_eq rfl, h.tokenIndex, h.size]
      by_cases hgroup : c.isAt .backslash (p + 1) ∧ c.isAt .leftBrace (p + 2)
      · rw [if_pos hgroup] at hok ⊢
        obtain ⟨⟨first, after⟩, hitems, hrest⟩ := bind_eq_ok hok
        have hopen : p + 3 ≤ c.size := Code.lt_size_of_isAt hgroup.2
        have hfound := groupItems_found kind (dropBackslashes (c.text p)) (c.size + 1) hopen
        rw [hitems] at hfound
        obtain ⟨hreach, hmore⟩ := moreItems_respelled h hfound.1.2 ih hrest
        have hafter := hfound.1.1
        have hnext := hreach.1
        have hfirst := hfree p (Nat.le_refl p) (by omega)
        have hinside := groupItems_respelled h hopen hitems fun q hq hq' => hfree q (by omega) (by omega)
        rw [isAtAny_of_free h hfirst, if_neg (by simpa using hname), (h.same p hfirst).2, hinside]
        exact hmore fun q hq hq' => hfree q (by omega) hq'
      · rw [if_neg hgroup] at hok ⊢
        have halias := importAlias_reaches hlt
        obtain ⟨hreach, hmore⟩ := moreItems_respelled h halias.2 ih hok
        have hafter := halias.1
        have hnext := hreach.1
        have hfirst := hfree p (Nat.le_refl p) (by omega)
        rw [isAtAny_of_free h hfirst, if_neg (by simpa using hname), (h.same p hfirst).2,
          importAlias_respelled h fun q hq hq' => hfree q (by omega) (by omega)]
        exact hmore fun q hq hq' => hfree q (by omega) hq'
    · rw [if_pos (by simpa using hname)] at hok
      cases hok

omit h in
/-- A `use` statement without an error is well-formed. -/
theorem useStatement_wellFormed {p : Nat}
    (hwell : ∀ e ∈ (useStatement c p).errors, e.fault ≠ .malformedUse) :
    ∃ items next, importItems c ((importKind? c (p + 1)).getD .type) (c.size + 1)
        (afterImportKind c (p + 1)) = .ok (items, next) ∧
      isTerminator c next ∧ (useStatement c p).value = .imports items ∧
        (useStatement c p).next = (terminator c next).next := by
  have hmalformed (found : List SyntaxError) (trouble : Nat) :
      errorAt c .malformedUse trouble ∈ (malformedUse c found trouble).errors := by
    rw [malformedUse]
    simp
  rw [useStatement] at hwell ⊢
  cases hitems : importItems c ((importKind? c (p + 1)).getD .type) (c.size + 1)
      (afterImportKind c (p + 1)) with
  | error trouble =>
    rw [hitems] at hwell
    exact absurd rfl (hwell _ (hmalformed [] trouble))
  | ok found =>
    obtain ⟨items, next⟩ := found
    rw [hitems] at hwell
    dsimp only at hwell ⊢
    by_cases hend : isTerminator c next
    · rw [if_pos hend]
      exact ⟨items, next, rfl, hend, rfl, rfl⟩
    · rw [if_neg hend] at hwell
      exact absurd rfl (hwell _ (hmalformed _ next))

/-- A well-formed `use` statement imports the same, as nothing inside it changes. -/
theorem useStatement_respelled {p : Nat} (hp : p < c.size)
    (hwell : ∀ e ∈ (useStatement c p).errors, e.fault ≠ .malformedUse)
    (hfree : ∀ q, p < q → q < (useStatement c p).next → ¬changed q) :
    (useStatement c' p).value = (useStatement c p).value ∧
      (useStatement c' p).next = (useStatement c p).next := by
  obtain ⟨items, next, hitems, hend, hvalue, hnext⟩ := useStatement_wellFormed hwell
  rw [hnext] at hfree
  have hstart : c.Reaches (p + 1) (afterImportKind c (p + 1)) := afterImportKind_reaches hp
  have hfound := importItems_found ((importKind? c (p + 1)).getD .type) (c.size + 1) hstart.2
  rw [hitems] at hfound
  have hfrom := hstart.1
  have hto := (terminator_reaches hfound.1.2).1
  have hsame := importItems_respelled h hstart.2 hitems fun q hq hq' =>
    hfree q (Nat.lt_of_lt_of_le hfrom hq) (Nat.lt_of_lt_of_le hq' hto)
  rw [hvalue, hnext, useStatement, importKind?_respelled h, afterImportKind_respelled h, h.size, hsame]
  dsimp only
  rw [isTerminator_respelled h, if_pos hend]
  exact ⟨rfl, terminator_respelled h next⟩

theorem insideGroup_respelled (start p : Nat) : insideGroup c' start p = insideGroup c start p := by
  rw [insideGroup, insideGroup]
  congr 1
  funext opener
  rw [h.groupEnd]
  congr 1
  rcases h.kind?_cases opener with heq | ⟨k, hk, hname, hk'⟩
  · rw [heq]
  · rw [hk, hk']
    cases k <;> first | rfl | cases hname

theorem not_isAt_ident {p : Nat} (hp : changed p) : c'.isAt .ident p = false := by
  obtain ⟨kind, -, -, hkind'⟩ := h.name p hp
  rw [Code.isAt, hkind']
  rfl

theorem not_declaresConstant {start p : Nat} (hp : 0 < p) (hchanged : changed p) :
    declaresConstant c start p = false := by
  rw [Bool.eq_false_iff]
  intro hdeclares
  simp only [declaresConstant, Bool.and_eq_true, Code.isAt_iff] at hdeclares
  obtain ⟨⟨⟨hident, hequals⟩, hbefore⟩, -⟩ := hdeclares
  obtain ⟨q, rfl⟩ := Nat.exists_eq_succ_of_ne_zero (Nat.pos_iff_ne_zero.mp hp)
  obtain ⟨kind, hmem, hkind⟩ := Code.exists_kind_of_isAtAny hbefore
  simp only [List.mem_cons, List.not_mem_nil, or_false] at hmem
  rcases hmem with rfl | rfl
  · exact h.declared q _ hkind rfl hchanged
  · exact h.constant q hkind hident hequals hchanged

theorem declaresConstant_respelled {start p : Nat} (hp : 0 < p) :
    declaresConstant c' start p = declaresConstant c start p := by
  by_cases hchanged : changed p
  · rw [not_declaresConstant h hp hchanged, declaresConstant, not_isAt_ident h hchanged]
    rfl
  · rw [declaresConstant, declaresConstant, h.isAt_ident_eq hchanged, h.isAt_eq rfl,
      h.isAtAny_eq (by decide), insideGroup_respelled h]

theorem constStatement_respelled (p : Nat) :
    (constStatement c' p).value = (constStatement c p).value ∧
      (constStatement c' p).next = (constStatement c p).next := by
  have hnext := skipStatement_respelled h p
  refine ⟨?_, hnext⟩
  rw [constStatement, constStatement, hnext]
  dsimp only
  have hfilter : ∀ q ∈ List.range' (p + 1) ((skipStatement c p).next - (p + 1)), 0 < q := by
    intro q hq
    rw [List.mem_range'_1] at hq
    omega
  rw [List.filter_congr fun q hq => declaresConstant_respelled h (hfilter q hq)]
  congr 1
  refine List.map_congr_left fun q hq => ?_
  obtain ⟨hrange, hdeclares⟩ := List.mem_filter.mp hq
  have hsame : ¬changed q := by
    intro hchanged
    rw [not_declaresConstant h (hfilter q hrange) hchanged] at hdeclares
    cases hdeclares
  rw [(h.same q hsame).2, h.tokenIndex]

theorem afterModifiers_respelled (p : Nat) : afterModifiers c' p = afterModifiers c p := by
  rw [afterModifiers, afterModifiers, h.size]
  congr 1
  funext q
  rw [h.groupEnd]
  rcases h.kind?_cases q with heq | ⟨k, hk, hname, hk'⟩
  · rw [heq]
  · rw [hk, hk']
    cases k <;> first | rfl | cases hname

theorem not_changed_of_classKeyword? {p : Nat} {kind : ClassKind}
    (hkind : classKeyword? c p = some kind) : ¬changed (p + 1) := by
  rw [classKeyword?] at hkind
  split at hkind
  · cases hkind
  · rename_i hident
    split at hkind
    · rename_i hclass
      exact h.declared p _ hclass rfl
    · rename_i hclass
      exact h.declared p _ hclass rfl
    · rename_i hclass
      exact h.declared p _ hclass rfl
    · rename_i hclass
      split at hkind
      · rename_i henum
        exact (h.enumeration p hclass henum (Code.isAt_iff.mp (by simpa using hident))).2
      · cases hkind
    · cases hkind

theorem not_changed_of_functionName? {p name : Nat} (hname : functionName? c p = some name) :
    ¬changed name := by
  rw [functionName?] at hname
  split at hname
  · rename_i hat
    cases hname
    rw [Code.skip]
    split
    · rename_i hampersand
      exact h.byReference p (Code.isAt_iff.mp hat.1) (Code.isAt_iff.mp hampersand)
    · exact h.declared p _ (Code.isAt_iff.mp hat.1) rfl
  · cases hname

theorem classKeyword?_respelled (p : Nat) : classKeyword? c' p = classKeyword? c p := by
  by_cases hnext : changed (p + 1)
  · have hnone : classKeyword? c p = none := Option.eq_none_iff_forall_ne_some.mpr fun kind hkind =>
      not_changed_of_classKeyword? h hkind hnext
    rw [hnone, classKeyword?, not_isAt_ident h hnext]
    rfl
  · rw [classKeyword?, classKeyword?, h.isAt_ident_eq hnext]
    by_cases hident : c.isAt .ident (p + 1)
    · rw [hident]
      simp only [Bool.not_true, Bool.false_eq_true, if_false]
      by_cases hp : changed p
      · obtain ⟨kind, hkind, hname, hkind'⟩ := h.name _ hp
        rw [hkind, hkind']
        cases kind <;> try first | rfl | cases hname
        dsimp only
        rw [if_neg]
        intro henum
        exact (h.enumeration p hkind henum (Code.isAt_iff.mp hident)).1 hp
      · rw [(h.same p hp).1, (h.same p hp).2]
    · rw [Bool.not_eq_true] at hident
      rw [hident]
      rfl

theorem functionName?_respelled (p : Nat) : functionName? c' p = functionName? c p := by
  by_cases hname : changed (c.skip .ampersand (p + 1))
  · have hnone : functionName? c p = none := Option.eq_none_iff_forall_ne_some.mpr fun name hfound => by
      have hsame := not_changed_of_functionName? h hfound
      rw [functionName?] at hfound
      split at hfound
      · cases hfound
        exact hsame hname
      · cases hfound
    rw [hnone, functionName?, h.skip_eq rfl, if_neg]
    rintro ⟨-, hident, -⟩
    rw [not_isAt_ident h hname] at hident
    cases hident
  · rw [functionName?, functionName?, h.skip_eq rfl, h.isAt_ident_eq hname,
      h.isAt_eq (rfl : TokenKind.kwFunction.isName = false),
      h.isAt_eq (rfl : TokenKind.leftParen.isName = false)]

theorem headerStep_respelled (p : Nat) : headerStep c' p = headerStep c p := by
  rw [headerStep, headerStep, h.groupEnd]
  rcases h.kind?_cases p with heq | ⟨k, hk, hname, hk'⟩
  · rw [heq]
  · rw [hk, hk']
    cases k <;> first | rfl | cases hname

theorem body_respelled (p : Nat) : (body c' p).next = (body c p).next := by
  have hstep : headerStep c' = headerStep c := funext (headerStep_respelled h)
  rw [body, body, hstep, h.size, h.isAt_eq rfl, h.groupEnd]
  split <;> rfl

theorem declaration_respelled (p : Nat) :
    (declaration c' p).value = (declaration c p).value ∧
      (declaration c' p).next = (declaration c p).next := by
  rw [declaration, declaration, afterModifiers_respelled h, classKeyword?_respelled h,
    functionName?_respelled h]
  generalize afterModifiers c p = keyword
  dsimp only
  cases hclass : classKeyword? c keyword with
  | some kind =>
    dsimp only
    rw [(h.same _ (not_changed_of_classKeyword? h hclass)).2, h.tokenIndex, body_respelled h]
    exact ⟨rfl, rfl⟩
  | none =>
    dsimp only
    cases hfunction : functionName? c keyword with
    | some name =>
      dsimp only
      rw [(h.same _ (not_changed_of_functionName? h hfunction)).2, h.tokenIndex, h.groupEnd,
        body_respelled h]
      exact ⟨rfl, rfl⟩
    | none => exact ⟨rfl, skipStatement_respelled h p⟩

theorem isDefineCall_respelled {p : Nat} (hp : ¬changed p) :
    isDefineCall c' p = isDefineCall c p := by
  rw [isDefineCall, isDefineCall, (h.same p hp).2, h.isAt_eq rfl, h.groupEnd, isTerminator_respelled h]

theorem defineStatement_respelled (p : Nat) :
    (defineStatement c' p).next = (defineStatement c p).next := by
  rw [defineStatement, defineStatement, h.groupEnd, terminator_respelled h]

omit h in
theorem declaration_of_call {p : Nat} (hkind : c.kind? p = some .ident)
    (hopen : c.kind? (p + 1) = some .leftParen) : declaration c p = shapeless c .other p := by
  have hmodifiers : afterModifiers c p = p := by rw [afterModifiers, follow, hkind]
  have hclass : classKeyword? c p = none := by
    have hident : c.isAt .ident (p + 1) = false := by
      rw [Code.isAt, hopen]
      rfl
    rw [classKeyword?, hident]
    rfl
  have hfunction : functionName? c p = none := by
    rw [functionName?, if_neg]
    rintro ⟨hfunction, -⟩
    rw [Code.isAt_iff, hkind] at hfunction
    cases hfunction
  simp only [declaration, hmodifiers, hclass, hfunction]

omit h in
theorem statementEnd_of_call {p fuel : Nat} (hkind : c.kind? p = some .ident)
    (hopen : c.kind? (p + 1) = some .leftParen) :
    statementEnd c p (fuel + 2) p = statementEnd c p fuel (c.groupEnd (p + 1)) := by
  have hfirst : statementStep c p p = .goOn (p + 1) := by rw [statementStep, hkind]; rfl
  have hsecond : statementStep c p (p + 1) = .goOn (c.groupEnd (p + 1)) := by
    rw [statementStep, hopen]
    rfl
  rw [statementEnd, hfirst]
  dsimp only
  rw [statementEnd, hsecond]

omit h in
/-- A call of `define` is as long as a statement without a shape. -/
theorem declaration_of_isDefineCall (ho : c.Ordered) {p : Nat} (hkind : c.kind? p = some .ident)
    (hdefine : isDefineCall c p) : (declaration c p).value = .other ∧
      (declaration c p).next = (defineStatement c p).next := by
  simp only [isDefineCall, Bool.and_eq_true] at hdefine
  obtain ⟨⟨-, hopen⟩, hend⟩ := hdefine
  have hopen := Code.isAt_iff.mp hopen
  rw [declaration_of_call hkind hopen]
  refine ⟨rfl, ?_⟩
  have hsize := Code.lt_size_of_kind? hopen
  have hstop : statementEnd c p (c.size + 1) p = c.groupEnd (p + 1) + 1 := by
    have hthird : statementStep c p (c.groupEnd (p + 1)) = .finish (c.groupEnd (p + 1) + 1) := by
      obtain ⟨kind, hmem, hkind⟩ := Code.exists_kind_of_isAtAny hend
      simp only [List.mem_cons, List.not_mem_nil, or_false] at hmem
      rw [statementStep, hkind]
      rcases hmem with rfl | rfl <;> rfl
    obtain ⟨fuel, hfuel⟩ : ∃ fuel, c.size + 1 = fuel + 3 := ⟨c.size - 2, by omega⟩
    rw [hfuel, statementEnd_of_call hkind hopen, statementEnd, hthird]
  have hlater := (ho.groupEnd_reaches_succ hsize).1
  rw [shapeless, skipStatement, hstop, if_neg (by omega), defineStatement, terminator, if_pos hend]

end Parser
end NamespaceMigration
