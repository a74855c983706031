import NamespaceMigration.Proofs.Relocation.Pieces
import NamespaceMigration.Proofs.Statements.ImportRows
import NamespaceMigration.Proofs.Statements.Readings

/-! Statements whose brackets match in themselves: declarations up to the end of their bodies, and lists of
constants. Such a statement is read the same whatever comes after it. -/
namespace NamespaceMigration

open Lexer (pieces)
open BracketMatching (ofKinds closes nest)

namespace BracketMatching

/-- What is open around well nested kinds stays open. -/
theorem nest_under {opened kinds opened' : List TokenKind} (h : nest opened kinds = some opened')
    (outer : List TokenKind) : nest (opened ++ outer) kinds = some (opened' ++ outer) := by
  induction kinds generalizing opened with
  | nil =>
    obtain rfl := Option.some.inj h
    rfl
  | cons kind kinds ih =>
    rw [nest] at h ⊢
    split_ifs at h ⊢
    · exact ih h
    · cases opened with
      | nil => cases h
      | cons opener opened =>
        rw [close?] at h
        rw [List.cons_append, close?]
        split_ifs at h ⊢
        · exact ih h
        · cases h
    · exact ih h

/-- Without faults an opening bracket has its group. -/
theorem exists_group_of_faults {kinds : List TokenKind} (hfaults : (ofKinds kinds).faults = []) {p : Nat}
    {opening : TokenKind} (hp : kinds[p]? = some opening) (hopening : opening.isOpeningBracket) :
    ∃ before group after, kinds = before ++ group ++ after ∧ before.length = p ∧
      nest [] group = some [] ∧ (ofKinds kinds).closer? p = some (p + group.length - 1) ∧ 0 < group.length := by
  obtain ⟨hlt, rfl⟩ := List.getElem?_eq_some_iff.mp hp
  obtain ⟨before, rest, hkinds, rfl⟩ : ∃ before rest, kinds = before ++ kinds[p] :: rest ∧ before.length = p :=
    ⟨kinds.take p, kinds.drop (p + 1), by simp, by simp; omega⟩
  generalize kinds[before.length] = opening at *
  subst hkinds
  obtain ⟨pairs, stack, -, hrun⟩ := pairs_after_opening before hopening
  obtain ⟨inside, closing, rest, rfl, hnest, hclosing, hcloses⟩ := exists_group [] ((hrun _).2 hfaults)
  have hplain : closing ≠ .error ∧ closing.isOpeningBracket = false := by
    cases closing <;> first | exact ⟨by decide, rfl⟩ | cases hclosing
  refine ⟨before, opening :: (inside ++ [closing]), rest, by simp, rfl, ?_, ?_, Nat.succ_pos _⟩
  · rw [nest, if_neg (ne_error_of_isOpeningBracket hopening), if_pos hopening, nest_append]
    have hinside : nest [opening] inside = some [opening] := nest_under hnest [opening]
    rw [hinside, Option.bind_some, nest,
      if_neg hplain.1, hplain.2, if_neg Bool.false_ne_true, if_pos hclosing, close?, if_pos hcloses]
    rfl
  · rw [closer?_of_nest hopening hnest hclosing hcloses]
    simp only [List.length_cons, List.length_append, List.length_nil, Option.some.injEq]
    omega

theorem exists_closer_of_faults {kinds : List TokenKind} (hfaults : (ofKinds kinds).faults = []) {q : Nat}
    {closing : TokenKind} (hq : kinds[q]? = some closing) (hclosing : closing.isClosingBracket) :
    ∃ p opening, kinds[p]? = some opening ∧ closes opening closing ∧ (ofKinds kinds).closer? p = some q := by
  have hcount := count_closed kinds q
  rw [hfaults, hq, Option.any_some, if_pos hclosing] at hcount
  have hmem : q ∈ (ofKinds kinds).pairs.map (·.2) := by
    rw [← List.count_pos_iff]
    change _ + 0 = 1 at hcount
    omega
  obtain ⟨⟨p, _⟩, hpair, rfl⟩ := List.mem_map.mp hmem
  obtain ⟨-, opening, closing', hopening, hclosing', hcloses⟩ := brackets_of_mem hpair
  rw [hq, Option.some.injEq] at hclosing'
  exact ⟨p, opening, hopening, hclosing' ▸ hcloses, closer?_eq_some_iff.mpr hpair⟩

end BracketMatching

namespace Code

/-- The brackets from one position up to another match in themselves. -/
def Level (c : Code) (p q : Nat) : Prop :=
  ∃ kinds, Parser.Spells c p kinds ∧ q = p + kinds.length ∧ nest [] kinds = some []

namespace Level

variable {c : Code} {p q r : Nat}

theorem refl (c : Code) (p : Nat) : c.Level p p := ⟨[], trivial, rfl, rfl⟩

theorem trans (h : c.Level p q) (h' : c.Level q r) : c.Level p r := by
  obtain ⟨kinds, hkinds, rfl, hnest⟩ := h
  obtain ⟨kinds', hkinds', rfl, hnest'⟩ := h'
  refine ⟨kinds ++ kinds', Parser.spells_append.mpr ⟨hkinds, hkinds'⟩, by rw [List.length_append]; omega, ?_⟩
  rw [BracketMatching.nest_append, hnest]
  exact hnest'

theorem single {kind : TokenKind} (hkind : c.kind? p = some kind)
    (hplain : kind ≠ .error ∧ kind.isOpeningBracket = false ∧ kind.isClosingBracket = false) :
    c.Level p (p + 1) :=
  ⟨[kind], ⟨hkind, trivial⟩, rfl,
    BracketMatching.nest_of_plain (List.forall_mem_singleton.mpr hplain) []⟩

end Level

section Faultless

variable {t : Text} (hfaults : (ofText t).matching.faults = []) {p : Nat} {kind : TokenKind}
include hfaults

theorem ne_error_of_faults (hkind : (ofText t).kind? p = some kind) : kind ≠ .error := by
  rw [matching_ofText] at hfaults
  rw [kind?_ofText, ← List.getElem?_map] at hkind
  exact BracketMatching.ne_error_of_faults hfaults kind (List.mem_of_getElem? hkind)

theorem level_group (hkind : (ofText t).kind? p = some kind) (hopening : kind.isOpeningBracket) :
    (ofText t).Level p ((ofText t).groupEnd p) ∧ ((ofText t).matching.closer? p).isSome := by
  rw [matching_ofText] at hfaults
  rw [kind?_ofText, ← List.getElem?_map] at hkind
  obtain ⟨before, group, after, hkinds, hlength, hnest, hclose, hpos⟩ :=
    BracketMatching.exists_group_of_faults hfaults hkind hopening
  have hcloser : (ofText t).matching.closer? p = some (p + group.length - 1) := by
    rw [matching_ofText]
    exact hclose
  refine ⟨⟨group, Parser.spells_iff.mpr fun i kind' hi => ?_, ?_, hnest⟩, by rw [hcloser]; rfl⟩
  · rw [kind?_ofText, ← List.getElem?_map, hkinds, ← hlength, List.append_assoc,
      List.getElem?_append_right (Nat.le_add_right _ _), Nat.add_sub_cancel_left,
      List.getElem?_append_left (List.getElem?_eq_some_iff.mp hi).1, hi]
  · rw [groupEnd, hcloser]
    dsimp only
    omega

theorem IsClear.kind_of_closing (h : (ofText t).IsClear p) (hkind : (ofText t).kind? p = some kind)
    (hclosing : kind.isClosingBracket) : kind = .rightBrace := by
  rw [matching_ofText] at hfaults
  rw [kind?_ofText, ← List.getElem?_map] at hkind
  obtain ⟨q, opening, hopening, hcloses, hclose⟩ :=
    BracketMatching.exists_closer_of_faults hfaults hkind hclosing
  have hlt := (BracketMatching.closer?_ofKinds hclose).1
  by_contra hne
  refine absurd (h q p hlt (by rw [matching_ofText]; exact hclose) fun hbrace => ?_) (Nat.lt_irrefl p)
  rw [kind?_ofText, ← List.getElem?_map, hopening, Option.some.injEq] at hbrace
  subst hbrace
  cases kind <;> first | exact hne rfl | cases hcloses

end Faultless
end Code

/-- Whether a statement is a class or a function. -/
def StatementKind.isNamed : StatementKind → Bool
  | .classLike .. | .function .. => true
  | _ => false

namespace Parser

/-- The position where the header of a declaration ends. -/
def headerEnd (c : Code) (p : Nat) : Nat := follow (headerStep c) (c.size + 1) p

/-- What is declared at a position, with its body at another one. -/
inductive Declares (c : Code) (p : Nat) : (opener : Nat) → StatementKind → Prop
  | classLike {kind : ClassKind} : classKeyword? c (afterModifiers c p) = some kind →
      Declares c p (headerEnd c (afterModifiers c p + 2))
        (.classLike kind (c.text (afterModifiers c p + 1)) (c.tokenIndex (afterModifiers c p + 1)))
  | function {name : Nat} : classKeyword? c (afterModifiers c p) = none →
      functionName? c (afterModifiers c p) = some name →
      Declares c p (headerEnd c (c.groupEnd (name + 1))) (.function (c.text name) (c.tokenIndex name))

variable {c : Code} {p opener n : Nat} {kind : StatementKind}

theorem body_of_brace (hbrace : c.isAt .leftBrace (headerEnd c p)) :
    body c p = ⟨(), c.groupEnd (headerEnd c p), []⟩ := by
  rw [body]
  exact if_pos hbrace

theorem Declares.declaration_eq (h : Declares c p opener kind) (hbrace : c.isAt .leftBrace opener) :
    declaration c p = ⟨kind, c.groupEnd opener, []⟩ := by
  cases h with
  | classLike hkeyword =>
    rw [declaration]
    dsimp only
    rw [hkeyword]
    dsimp only
    rw [body_of_brace hbrace]
  | function hkeyword hname =>
    rw [declaration]
    dsimp only
    rw [hkeyword]
    dsimp only
    rw [hname]
    dsimp only
    rw [body_of_brace hbrace]

theorem declares_of_declaration (h : declaration c p = ⟨kind, n, []⟩) (hnamed : kind.isNamed) :
    ∃ opener, Declares c p opener kind ∧ c.isAt .leftBrace opener ∧ n = c.groupEnd opener := by
  have hbody {q : Nat} (herrors : (body c q).errors = []) : c.isAt .leftBrace (headerEnd c q) := by
    rw [body] at herrors
    by_contra hbrace
    rw [headerEnd] at hbrace
    rw [if_neg hbrace] at herrors
    cases herrors
  rw [declaration] at h
  dsimp only at h
  split at h
  · rename_i keyword hkeyword
    have hbrace := hbody (congrArg Parsed.errors h)
    obtain rfl : _ = kind := congrArg Parsed.value h
    have hnext : (body c (afterModifiers c p + 1 + 1)).next = n := congrArg Parsed.next h
    rw [body_of_brace hbrace] at hnext
    exact ⟨_, .classLike hkeyword, hbrace, hnext.symm⟩
  · rename_i hkeyword
    split at h
    · rename_i name hname
      have hbrace := hbody (congrArg Parsed.errors h)
      obtain rfl : _ = kind := congrArg Parsed.value h
      have hnext : (body c (c.groupEnd (name + 1))).next = n := congrArg Parsed.next h
      rw [body_of_brace hbrace] at hnext
      exact ⟨_, .function hkeyword hname, hbrace, hnext.symm⟩
    · obtain rfl : _ = kind := congrArg Parsed.value h
      cases hnamed

theorem afterModifiers_of_kind (h : ∀ kind, c.kind? p = some kind → modifierStep kind = none) :
    afterModifiers c p = p := by
  have hstep : stepBy c modifierStep p = none := by
    rw [stepBy]
    cases hkind : c.kind? p with
    | none => rfl
    | some kind => rw [Option.bind_some, h kind hkind]; rfl
  rw [afterModifiers_eq, follow, hstep]

theorem classKeyword?_eq_some {k : ClassKind} (h : classKeyword? c p = some k) : c.isAt .ident (p + 1) ∧
    ∃ kind, c.kind? p = some kind ∧ (kind ∈ [.kwClass, .kwInterface, .kwTrait] ∨
      kind = .ident ∧ Text.eqIgnoreCase (c.text p) "enum") := by
  rw [classKeyword?] at h
  split at h
  · cases h
  · rename_i hname
    refine ⟨by simpa using hname, ?_⟩
    split at h
    · exact ⟨_, ‹_›, .inl (by decide)⟩
    · exact ⟨_, ‹_›, .inl (by decide)⟩
    · exact ⟨_, ‹_›, .inl (by decide)⟩
    · split at h
      · exact ⟨_, ‹_›, .inr ⟨rfl, ‹_›⟩⟩
      · cases h
    · cases h

/-- What a declaration begins with. -/
theorem Declares.exists_kind (h : Declares c p opener kind) : ∃ first, c.kind? p = some first ∧
    ((modifierStep first).isSome ∨ first ∈ [.kwClass, .kwInterface, .kwTrait, .kwFunction] ∨
      first = .ident ∧ c.isAt .ident (p + 1) ∧ Text.eqIgnoreCase (c.text p) "enum") := by
  by_cases hmodifier : ∃ first, c.kind? p = some first ∧ (modifierStep first).isSome
  · obtain ⟨first, hfirst, hmodifier⟩ := hmodifier
    exact ⟨first, hfirst, .inl hmodifier⟩
  have hstart : afterModifiers c p = p := afterModifiers_of_kind fun first hfirst => by
    by_contra hsome
    exact hmodifier ⟨first, hfirst, Option.isSome_iff_ne_none.mpr hsome⟩
  cases h with
  | classLike hkeyword =>
    rw [hstart] at hkeyword
    obtain ⟨hname, first, hfirst, hmem⟩ := classKeyword?_eq_some hkeyword
    refine ⟨first, hfirst, .inr ?_⟩
    rcases hmem with hmem | ⟨rfl, henum⟩
    · left
      simp only [List.mem_cons, List.not_mem_nil, or_false] at hmem ⊢
      rcases hmem with rfl | rfl | rfl <;> simp
    · exact .inr ⟨rfl, hname, henum⟩
  | function _ hname =>
    rw [hstart] at hname
    have hfunction := (functionName?_eq_some_iff.mp hname).1
    exact ⟨_, Code.isAt_iff.mp hfunction, .inr (.inl (by decide))⟩

theorem Declares.shape_eq (h : Declares c p opener kind) (inner : Inner) :
    shape c inner p = leaf (declaration c p) := by
  obtain ⟨first, hfirst, hbegins⟩ := h.exists_kind
  rw [shape, hfirst]
  rcases hbegins with hmodifier | hmem | ⟨rfl, hname, -⟩
  · cases first <;> first | rfl | cases hmodifier
  · simp only [List.mem_cons, List.not_mem_nil, or_false] at hmem
    rcases hmem with rfl | rfl | rfl | rfl <;> rfl
  · have hparen : c.isAt .leftParen (p + 1) = false := by
      rw [Code.isAt, Code.isAt_iff.mp hname]
      rfl
    have hdefine : isDefineCall c p = false := by
      rw [isDefineCall, hparen, Bool.and_false, Bool.false_and]
    dsimp only
    rw [hdefine]
    rfl

theorem useStatement_not_named (c : Code) (p : Nat) : (useStatement c p).value.isNamed = false := by
  rw [useStatement]
  dsimp only
  split
  · rfl
  · split <;> rfl

/-- A class or function is read as a declaration. -/
theorem shape_of_isNamed {inner : Inner} (h : (shape c inner p).value.1.isNamed) :
    shape c inner p = leaf (declaration c p) := by
  rw [shape] at h ⊢
  split at h
  case h_4 =>
    rw [leaf, useStatement_not_named] at h
    cases h
  case h_6 =>
    split at h
    · rw [declareStatement] at h
      dsimp only at h
      split_ifs at h <;> cases h
    · rename_i hparen
      exact if_neg hparen
  case h_11 =>
    split at h
    · cases h
    · rename_i hdefine
      rw [if_neg hdefine]
  case h_12 => rfl
  all_goals cases h

theorem declares_of_reading {depth : Nat} {s : Statement} (h : statement c (depth + 1) p = ⟨s, n, []⟩)
    (hnamed : s.kind.isNamed) :
    ∃ opener, Declares c p opener s.kind ∧ c.isAt .leftBrace opener ∧ n = c.groupEnd opener := by
  rw [statement, node] at h
  obtain ⟨rfl, hnext, herrors⟩ := Parsed.mk.inj h
  dsimp only at hnamed
  have hleaf := shape_of_isNamed hnamed
  rw [hleaf] at hnext herrors hnamed ⊢
  refine declares_of_declaration (n := n) ?_ hnamed
  rw [← hnext, ← show (declaration c p).errors = [] from herrors]
  rfl

section Level

variable {t : Text} (hfaults : (Code.ofText t).matching.faults = []) {p : Nat}
include hfaults

theorem follow_level {goes : TokenKind → Option Bool}
    (hgroup : ∀ kind, goes kind = some true → kind.isOpeningBracket)
    (hsingle : ∀ kind, goes kind = some false → kind.isOpeningBracket = false ∧ kind ≠ .rightBrace) (fuel : Nat)
    (hclear : (Code.ofText t).IsClear p) :
    (Code.ofText t).Level p (follow (stepBy (.ofText t) goes) fuel p) := by
  have ho : (Code.ofText t).Ordered := Code.ordered_ofTokens _ _
  have hn : (Code.ofText t).Nested := Code.nested_ofTokens _ _
  induction fuel generalizing p with
  | zero => exact .refl _ _
  | succ fuel ih =>
    rw [follow]
    cases hstep : stepBy (.ofText t) goes p with
    | none => exact .refl _ _
    | some next =>
      have hnext : (Code.ofText t).IsClear next := by
        refine stepBy_clear hn ho (fun kind hgoes => ?_) p next hstep hclear
        have := (hsingle kind hgoes).1
        cases kind <;> first | rfl | cases this
      refine Code.Level.trans ?_ (ih hnext)
      rw [stepBy, Option.map_eq_some_iff] at hstep
      obtain ⟨group, hbind, rfl⟩ := hstep
      obtain ⟨kind, hkind, hgoes⟩ := Option.bind_eq_some_iff.mp hbind
      cases group with
      | true => exact (Code.level_group hfaults hkind (hgroup kind hgoes)).1
      | false =>
        obtain ⟨hopening, hbrace⟩ := hsingle kind hgoes
        refine .single hkind ⟨Code.ne_error_of_faults hfaults hkind, hopening, ?_⟩
        by_contra hclosing
        exact hbrace (Code.IsClear.kind_of_closing hfaults hclear hkind (by simpa using hclosing))

theorem afterModifiers_level (hclear : (Code.ofText t).IsClear p) :
    (Code.ofText t).Level p (afterModifiers (.ofText t) p) := by
  rw [afterModifiers_eq]
  refine follow_level hfaults (fun kind hgoes => ?_) (fun kind hgoes => ?_) _ hclear
  · cases kind <;> first | rfl | cases hgoes
  · cases kind <;> first | exact ⟨rfl, by decide⟩ | cases hgoes

theorem header_level (hclear : (Code.ofText t).IsClear p) :
    (Code.ofText t).Level p (headerEnd (.ofText t) p) := by
  rw [headerEnd, headerStep_eq]
  refine follow_level hfaults (fun kind hgoes => ?_) (fun kind hgoes => ?_) _ hclear
  · cases kind <;> first | rfl | cases hgoes
  · cases kind <;> first | exact ⟨rfl, by decide⟩ | cases hgoes

/-- The brackets of a class or function match in themselves. -/
theorem Declares.level {opener : Nat} {kind : StatementKind} (h : Declares (.ofText t) p opener kind)
    (hclear : (Code.ofText t).IsClear p) (hbrace : (Code.ofText t).isAt .leftBrace opener) :
    (Code.ofText t).Level p ((Code.ofText t).groupEnd opener) := by
  have ho : (Code.ofText t).Ordered := Code.ordered_ofTokens _ _
  have hn : (Code.ofText t).Nested := Code.nested_ofTokens _ _
  have hword {q : Nat} {word : TokenKind} (hat : (Code.ofText t).isAt word q)
      (hplain : word ≠ .error ∧ word.isOpeningBracket = false ∧ word.isClosingBracket = false) :
      (Code.ofText t).Level q (q + 1) := .single (Code.isAt_iff.mp hat) hplain
  have hkeyword := afterModifiers_level hfaults hclear
  have hkeywordClear := afterModifiers_clear hn ho hclear
  have hbody := (Code.level_group hfaults (Code.isAt_iff.mp hbrace) rfl).1
  refine Code.Level.trans ?_ hbody
  cases h with
  | classLike hclass =>
    obtain ⟨hname, first, hfirst, hmem⟩ := classKeyword?_eq_some hclass
    obtain ⟨hnameClear, -⟩ := classKeyword?_clear hn hkeywordClear hclass
    refine (hkeyword.trans (.single hfirst ?_)).trans ((hword hname (by decide)).trans
      (header_level hfaults (hnameClear.succ_of_isAt hn hname rfl)))
    simp only [List.mem_cons, List.not_mem_nil, or_false] at hmem
    rcases hmem with (rfl | rfl | rfl) | ⟨rfl, -⟩ <;> decide
  | @function name _ hname =>
    obtain ⟨hat, rfl, hident, hparen⟩ := functionName?_eq_some_iff.mp hname
    have hskip : (Code.ofText t).Level (afterModifiers (.ofText t) p + 1)
        ((Code.ofText t).skip .ampersand (afterModifiers (.ofText t) p + 1)) := by
      rw [Code.skip]
      split
      · rename_i hampersand
        exact hword hampersand (by decide)
      · exact .refl _ _
    have hnameClear : (Code.ofText t).IsClear
        ((Code.ofText t).skip .ampersand (afterModifiers (.ofText t) p + 1)) :=
      (hkeywordClear.succ_of_isAt hn hat rfl).skip hn rfl
    have hparams := (Code.level_group hfaults (Code.isAt_iff.mp hparen) rfl).1
    exact (hkeyword.trans (hword hat (by decide))).trans (hskip.trans ((hword hident (by decide)).trans
      (hparams.trans (header_level hfaults
        ((hnameClear.succ_of_isAt hn hident rfl).group hn ho)))))

/-- The brackets of a statement without a shape match in themselves. -/
theorem statementEnd_level (start fuel : Nat) :
    (Code.ofText t).Level p (statementEnd (.ofText t) start fuel p) := by
  induction fuel generalizing p with
  | zero => exact .refl _ _
  | succ fuel ih =>
    have hstep : ∀ next, (statementStep (.ofText t) start p = .finish next ∨
        statementStep (.ofText t) start p = .goOn next) → (Code.ofText t).Level p next := by
      intro next hnext
      rw [statementStep] at hnext
      split at hnext
      · simp only [StatementStep.finish.injEq, reduceCtorEq, or_false] at hnext
        exact hnext ▸ .refl _ _
      · rename_i kind hkind
        have hgroup (hopening : kind.isOpeningBracket) := (Code.level_group hfaults hkind hopening).1
        have hplain (hopening : ¬kind.isOpeningBracket) (hclosing : ¬kind.isClosingBracket) :
            (Code.ofText t).Level p (p + 1) :=
          .single hkind ⟨Code.ne_error_of_faults hfaults hkind, by simpa using hopening, by simpa using hclosing⟩
        dsimp only at hnext
        split_ifs at hnext with hend hclosing hopening <;>
          simp only [StatementStep.finish.injEq, StatementStep.goOn.injEq, or_false, false_or] at hnext <;>
          subst hnext
        · rcases hend with rfl | rfl <;> exact hplain (by decide) (by decide)
        · exact .refl _ _
        · exact hgroup hopening
        · exact hgroup hopening
        · exact hplain hopening fun h => hclosing (.inl h)
    rw [statementEnd]
    split
    · rename_i next hnext
      exact hstep next (.inl hnext)
    · rename_i next hnext
      exact (hstep next (.inr hnext)).trans ih

end Level
end Parser

end NamespaceMigration
