import Mathlib.Data.List.Nodup
import Mathlib.Data.List.Pairwise
import Mathlib.Data.List.Perm.Basic
import NamespaceMigration.Proofs.Statements.Brackets
import NamespaceMigration.Statement.Parser

/-! Bracket matching accounts for every bracket: it is in one pair or in one fault. The brackets are
balanced exactly if there is no fault, and the pairs are then the usual ones. -/
namespace NamespaceMigration

namespace TokenKind

def isBracket (kind : TokenKind) : Bool := kind.isOpeningBracket || kind.isClosingBracket

theorem not_opening_of_closing {kind : TokenKind} (h : kind.isClosingBracket) :
    kind.isOpeningBracket = false := by
  cases kind <;> first | rfl | cases h

theorem isBracket_of_opening {kind : TokenKind} (h : kind.isOpeningBracket) : kind.isBracket := by
  rw [isBracket, h, Bool.true_or]

theorem isBracket_of_closing {kind : TokenKind} (h : kind.isClosingBracket) : kind.isBracket := by
  rw [isBracket, h, Bool.or_true]

end TokenKind

namespace BracketFault

def position : BracketFault → Nat
  | invalid p | unclosed p | neverClosed p | unexpected p => p

/-- An opening bracket that nothing closes. -/
def isUnclosed : BracketFault → Bool
  | unclosed _ | neverClosed _ => true
  | _ => false

def isUnexpected : BracketFault → Bool
  | unexpected _ => true
  | _ => false

end BracketFault

namespace BracketMatching

open TokenKind

theorem closes_iff {opening closing : TokenKind} :
    closes opening closing ↔ opening.closer? = some closing := by
  rw [closes, beq_iff_eq]

theorem brackets_of_closes {opening closing : TokenKind} (h : closes opening closing) :
    opening.isOpeningBracket ∧ closing.isClosingBracket := by
  rw [closes_iff] at h
  cases opening <;> first | (obtain rfl := Option.some.inj h; exact ⟨rfl, rfl⟩) | cases h

/-- The positions of the kinds with a property, counted from `position`. -/
def positionsOf (P : TokenKind → Bool) (position : Nat) : List TokenKind → List Nat
  | [] => []
  | kind :: kinds =>
    if P kind then position :: positionsOf P (position + 1) kinds
    else positionsOf P (position + 1) kinds

section Positions

variable {P : TokenKind → Bool}

theorem mem_positionsOf {position q : Nat} {kinds : List TokenKind} :
    q ∈ positionsOf P position kinds ↔ position ≤ q ∧ ∃ kind, kinds[q - position]? = some kind ∧ P kind := by
  induction kinds generalizing position with
  | nil => simp [positionsOf]
  | cons kind kinds ih =>
    have hstep : q ∈ positionsOf P (position + 1) kinds ↔ position ≤ q ∧ position ≠ q ∧
        ∃ k, (kind :: kinds)[q - position]? = some k ∧ P k := by
      rw [ih]
      constructor
      · rintro ⟨hle, k, hk, hP⟩
        refine ⟨by omega, by omega, k, ?_, hP⟩
        rwa [show q - position = q - (position + 1) + 1 by omega, List.getElem?_cons_succ]
      · rintro ⟨hle, hne, k, hk, hP⟩
        refine ⟨by omega, k, ?_, hP⟩
        rwa [show q - position = q - (position + 1) + 1 by omega, List.getElem?_cons_succ] at hk
    have hhere : q = position → (kind :: kinds)[q - position]? = some kind := by
      rintro rfl
      rw [Nat.sub_self, List.getElem?_cons_zero]
    rw [positionsOf]
    split
    · rename_i hP
      rw [List.mem_cons, hstep]
      constructor
      · rintro (heq | ⟨hle, -, hfound⟩)
        · exact ⟨Nat.le_of_eq heq.symm, kind, hhere heq, hP⟩
        · exact ⟨hle, hfound⟩
      · rintro ⟨hle, hfound⟩
        by_cases heq : q = position
        · exact .inl heq
        · exact .inr ⟨hle, Ne.symm heq, hfound⟩
    · rename_i hP
      rw [hstep]
      refine ⟨fun ⟨hle, _, hfound⟩ => ⟨hle, hfound⟩, fun ⟨hle, k, hk, hPk⟩ => ⟨hle, ?_, k, hk, hPk⟩⟩
      intro heq
      rw [hhere heq.symm, Option.some.injEq] at hk
      exact hP (hk ▸ hPk)

theorem nodup_positionsOf (position : Nat) (kinds : List TokenKind) :
    (positionsOf P position kinds).Nodup := by
  induction kinds generalizing position with
  | nil => exact .nil
  | cons kind kinds ih =>
    rw [positionsOf]
    split
    · refine List.nodup_cons.mpr ⟨fun h => ?_, ih _⟩
      have := (mem_positionsOf.mp h).1
      omega
    · exact ih _

theorem count_positionsOf (kinds : List TokenKind) (q : Nat) :
    (positionsOf P 0 kinds).count q = if kinds[q]?.any P then 1 else 0 := by
  rw [(nodup_positionsOf 0 kinds).count]
  refine if_congr ?_ rfl rfl
  rw [mem_positionsOf, Nat.sub_zero, Option.any_eq_true]
  simp

end Positions

/-- The positions of the opening brackets that are reported. -/
def unclosedAt (faults : List BracketFault) : List Nat :=
  (faults.filter BracketFault.isUnclosed).map BracketFault.position

/-- The positions of the closing brackets that are reported. -/
def unexpectedAt (faults : List BracketFault) : List Nat :=
  (faults.filter BracketFault.isUnexpected).map BracketFault.position

theorem unclosedAt_append (faults more : List BracketFault) :
    unclosedAt (faults ++ more) = unclosedAt faults ++ unclosedAt more := by
  rw [unclosedAt, List.filter_append, List.map_append]
  rfl

theorem unexpectedAt_append (faults more : List BracketFault) :
    unexpectedAt (faults ++ more) = unexpectedAt faults ++ unexpectedAt more := by
  rw [unexpectedAt, List.filter_append, List.map_append]
  rfl

theorem unclosedAt_map {fault : Nat → BracketFault}
    (h : ∀ p, (fault p).isUnclosed ∧ (fault p).position = p) (stack : Stack) :
    unclosedAt (stack.map fun opened => fault opened.1) = stack.map (·.1) := by
  induction stack with
  | nil => rfl
  | cons opened stack ih =>
    obtain ⟨hunclosed, hposition⟩ := h opened.1
    rw [List.map_cons, unclosedAt, List.filter_cons_of_pos hunclosed, List.map_cons, hposition,
      List.map_cons]
    exact congrArg _ ih

theorem unexpectedAt_map {fault : Nat → BracketFault} (h : ∀ p, (fault p).isUnexpected = false)
    (stack : Stack) : unexpectedAt (stack.map fun opened => fault opened.1) = [] := by
  rw [unexpectedAt, List.map_eq_nil_iff, List.filter_eq_nil_iff]
  intro x hx
  obtain ⟨opened, -, rfl⟩ := List.mem_map.mp hx
  rw [h]
  exact Bool.false_ne_true

theorem eq_takeWhile_append {kind : TokenKind} {stack outer : Stack} {opened : Nat × TokenKind}
    (h : stack.drop (stack.takeWhile fun o => !closes o.2 kind).length = opened :: outer) :
    stack = (stack.takeWhile fun o => !closes o.2 kind) ++ opened :: outer ∧ closes opened.2 kind := by
  have hsplit : stack.drop (stack.takeWhile fun o => !closes o.2 kind).length =
      stack.dropWhile fun o => !closes o.2 kind := by
    conv_lhs => arg 2; rw [← List.takeWhile_append_dropWhile (p := fun o => !closes o.2 kind) (l := stack)]
    rw [List.drop_left]
  rw [hsplit] at h
  refine ⟨by rw [← h, List.takeWhile_append_dropWhile], ?_⟩
  have hhead := List.head?_dropWhile_not (fun o : Nat × TokenKind => !closes o.2 kind) stack
  rw [h] at hhead
  simpa using hhead

/-- Every opening bracket ends up in one pair, or is reported once. -/
theorem openings_accounted (kinds : List TokenKind) (position : Nat) (stack : Stack) :
    ((ofKindsFrom position stack kinds).pairs.map (·.1) ++
        unclosedAt (ofKindsFrom position stack kinds).faults).Perm
      (stack.map (·.1) ++ positionsOf isOpeningBracket position kinds) := by
  induction kinds generalizing position stack with
  | nil =>
    rw [ofKindsFrom, unclosedAt_map fun p => ⟨rfl, rfl⟩, positionsOf]
    simp
  | cons kind kinds ih =>
    rw [ofKindsFrom, positionsOf]
    split_ifs with herror hopening hclosing hnone
    · rw [herror] at hopening
      cases hopening
    · exact ih _ _
    · refine (ih _ _).trans ?_
      rw [List.map_cons, List.cons_append]
      exact List.perm_middle.symm
    · dsimp only
      split
      · exact ih _ _
      · rename_i opened outer hdrop
        have hstack := (eq_takeWhile_append hdrop).1
        generalize (stack.takeWhile fun o => !closes o.2 kind) = inner at hstack
        subst hstack
        have hrest := ih (position + 1) outer
        dsimp only
        rw [unclosedAt_append, unclosedAt_map fun p => ⟨rfl, rfl⟩, List.map_cons, List.map_append,
          List.map_cons, List.map_reverse]
        generalize (ofKindsFrom (position + 1) outer kinds).pairs.map (·.1) = paired at *
        generalize unclosedAt (ofKindsFrom (position + 1) outer kinds).faults = unclosed at *
        -- The brackets inside are reported, then comes the one that is closed.
        calc opened.1 :: paired ++ ((inner.map (·.1)).reverse ++ unclosed)
          List.Perm _ (opened.1 :: (inner.map (·.1) ++ (paired ++ unclosed))) :=
            .cons _ ((List.perm_append_comm_assoc _ _ _).trans ((List.reverse_perm _).append_right _))
          List.Perm _ (opened.1 :: (inner.map (·.1) ++ (outer.map (·.1) ++
              positionsOf isOpeningBracket (position + 1) kinds))) := .cons _ (hrest.append_left _)
          List.Perm _ (inner.map (·.1) ++ opened.1 :: outer.map (·.1) ++
              positionsOf isOpeningBracket (position + 1) kinds) := by
            rw [List.append_assoc, List.cons_append]
            exact List.perm_middle.symm
    · exact ih _ _

/-- Every closing bracket ends up in one pair, or is reported once. -/
theorem closings_accounted (kinds : List TokenKind) (position : Nat) (stack : Stack) :
    ((ofKindsFrom position stack kinds).pairs.map (·.2) ++
        unexpectedAt (ofKindsFrom position stack kinds).faults).Perm
      (positionsOf isClosingBracket position kinds) := by
  induction kinds generalizing position stack with
  | nil =>
    rw [ofKindsFrom, unexpectedAt_map fun p => rfl, positionsOf]
    simp
  | cons kind kinds ih =>
    rw [ofKindsFrom, positionsOf]
    split_ifs with herror hclosing' hopening hclosing hclosing
    · rw [herror] at hclosing'
      cases hclosing'
    · exact ih _ _
    · rw [not_opening_of_closing hclosing] at hopening
      cases hopening
    · exact ih _ _
    · dsimp only
      split
      · exact List.perm_middle.trans ((ih _ _).cons _)
      · dsimp only
        rw [unexpectedAt_append, unexpectedAt_map fun p => rfl, List.nil_append, List.map_cons,
          List.cons_append]
        exact (ih _ _).cons _
    · exact ih _ _

/-- A bracket opens in the stack or later, and is closed by a bracket of its shape. -/
theorem pair_cases (kinds : List TokenKind) (position : Nat) (stack : Stack) :
    ∀ pair ∈ (ofKindsFrom position stack kinds).pairs, ∃ opening closing, position ≤ pair.2 ∧
      kinds[pair.2 - position]? = some closing ∧ closes opening closing ∧
      ((pair.1, opening) ∈ stack ∨ position ≤ pair.1 ∧ kinds[pair.1 - position]? = some opening) := by
  induction kinds generalizing position stack with
  | nil => simp [ofKindsFrom]
  | cons kind kinds ih =>
    have hat {q : Nat} (hq : position + 1 ≤ q) : (kind :: kinds)[q - position]? = kinds[q - (position + 1)]? := by
      rw [show q - position = q - (position + 1) + 1 by omega, List.getElem?_cons_succ]
    have hlater {stack' : Stack} (hsub : ∀ o ∈ stack', o ∈ stack ∨ o = (position, kind)) :
        ∀ pair ∈ (ofKindsFrom (position + 1) stack' kinds).pairs, ∃ opening closing, position ≤ pair.2 ∧
          (kind :: kinds)[pair.2 - position]? = some closing ∧ closes opening closing ∧
          ((pair.1, opening) ∈ stack ∨
            position ≤ pair.1 ∧ (kind :: kinds)[pair.1 - position]? = some opening) := by
      intro pair hpair
      obtain ⟨opening, closing, hle, hclosing, hcloses, hopening⟩ := ih _ _ pair hpair
      refine ⟨opening, closing, by omega, (hat hle).trans hclosing, hcloses, ?_⟩
      rcases hopening with hmem | ⟨hle', hopening⟩
      · refine (hsub _ hmem).imp_right fun heq => ?_
        obtain ⟨hposition, hkind⟩ := Prod.mk.inj heq
        exact ⟨Nat.le_of_eq hposition.symm, by rw [hposition, hkind, Nat.sub_self, List.getElem?_cons_zero]⟩
      · exact .inr ⟨by omega, (hat hle').trans hopening⟩
    rw [ofKindsFrom]
    split_ifs with herror hopening hclosing
    · exact hlater fun o ho => .inl ho
    · exact hlater fun o ho => (List.mem_cons.mp ho).symm
    · dsimp only
      split
      · exact hlater fun o ho => .inl ho
      · rename_i opened outer hdrop
        obtain ⟨hstack, hcloses⟩ := eq_takeWhile_append hdrop
        have hsub : opened :: outer ⊆ stack := hdrop ▸ List.drop_subset _ _
        refine List.forall_mem_cons.mpr ⟨⟨opened.2, kind, Nat.le_refl _, ?_, hcloses,
          .inl (hsub List.mem_cons_self)⟩, hlater fun o ho => .inl (hsub (List.mem_cons_of_mem _ ho))⟩
        rw [Nat.sub_self, List.getElem?_cons_zero]
    · exact hlater fun o ho => .inl ho

/-- Two pairs are nested or apart, the one that ends first coming first. -/
def Uncrossed (a b : Nat × Nat) : Prop := a.2 < b.2 ∧ (b.1 < a.1 ∨ a.2 < b.1)

/-- The open brackets are in order, the innermost first, and before `position`. -/
def Stack.Below (stack : Stack) (position : Nat) : Prop :=
  stack.Pairwise (fun a b => b.1 < a.1) ∧ ∀ opened ∈ stack, opened.1 < position

namespace Stack.Below

variable {stack : Stack} {position : Nat}

theorem succ (h : stack.Below position) : stack.Below (position + 1) :=
  ⟨h.1, fun opened ho => Nat.lt_succ_of_lt (h.2 opened ho)⟩

theorem push (h : stack.Below position) (kind : TokenKind) :
    Stack.Below ((position, kind) :: stack) (position + 1) :=
  ⟨List.pairwise_cons.mpr ⟨h.2, h.1⟩, List.forall_mem_cons.mpr ⟨Nat.lt_succ_self _, h.succ.2⟩⟩

theorem drop {inner outer : Stack} {opened : Nat × TokenKind}
    (h : Stack.Below (inner ++ opened :: outer) position) :
    outer.Below position ∧ ∀ o ∈ outer, o.1 < opened.1 := by
  have hrest := (List.pairwise_append.mp h.1).2.1
  rw [List.pairwise_cons] at hrest
  exact ⟨⟨hrest.2, fun o ho => h.2 o (List.mem_append_right _ (List.mem_cons_of_mem _ ho))⟩, hrest.1⟩

end Stack.Below

theorem pairs_uncrossed (kinds : List TokenKind) (position : Nat) {stack : Stack}
    (h : stack.Below position) : (ofKindsFrom position stack kinds).pairs.Pairwise Uncrossed := by
  induction kinds generalizing position stack with
  | nil => exact .nil
  | cons kind kinds ih =>
    rw [ofKindsFrom]
    split_ifs with herror hopening hclosing
    · exact ih _ h.succ
    · exact ih _ (h.push kind)
    · dsimp only
      split
      · exact ih _ h.succ
      · rename_i opened outer hdrop
        have hstack := (eq_takeWhile_append hdrop).1
        generalize (stack.takeWhile fun o => !closes o.2 kind) = inner at hstack
        subst hstack
        obtain ⟨houter, hbelow⟩ := h.drop
        refine List.pairwise_cons.mpr ⟨fun pair hpair => ?_, ih _ houter.succ⟩
        obtain ⟨opening, -, hle, -, -, hfrom⟩ := pair_cases _ _ _ pair hpair
        refine ⟨hle, hfrom.imp (fun hmem => hbelow _ hmem) fun hlate => hlate.1⟩
    · exact ih _ h.succ

/-- Every opening bracket has its closing one, and what stands between them is balanced. -/
inductive Balanced : List TokenKind → Prop
  | nil : Balanced []
  | group {opening closing : TokenKind} {inside after : List TokenKind} : closes opening closing →
      Balanced inside → Balanced after → Balanced (opening :: (inside ++ closing :: after))

/-- Kinds that close all open brackets, with balanced brackets in between. -/
def Completes : List TokenKind → List TokenKind → Prop
  | [], kinds => Balanced kinds
  | opening :: outer, kinds => ∃ inside closing rest, kinds = inside ++ closing :: rest ∧
      Balanced inside ∧ closes opening closing ∧ Completes outer rest

theorem Balanced.head {kind : TokenKind} {kinds : List TokenKind} (h : Balanced (kind :: kinds)) :
    kind.isOpeningBracket := by
  cases h with
  | group hcloses _ _ => exact (brackets_of_closes hcloses).1

theorem balanced_cons_iff {opening : TokenKind} {kinds : List TokenKind} :
    Balanced (opening :: kinds) ↔ Completes [opening] kinds := by
  constructor
  · intro h
    cases h with
    | group hcloses hinside hafter => exact ⟨_, _, _, rfl, hinside, hcloses, hafter⟩
  · rintro ⟨inside, closing, rest, rfl, hinside, hcloses, hrest⟩
    exact .group hcloses hinside hrest

theorem completes_opening {opening : TokenKind} (hopening : opening.isOpeningBracket)
    (outer kinds : List TokenKind) : Completes (opening :: outer) kinds ↔ Completes outer (opening :: kinds) := by
  cases outer with
  | nil => exact balanced_cons_iff.symm
  | cons opened outer =>
    constructor
    · rintro ⟨inside, closing, rest, rfl, hinside, hcloses, inside', closing', rest', rfl, hinside', hrest⟩
      exact ⟨opening :: (inside ++ closing :: inside'), closing', rest', by simp,
        .group hcloses hinside hinside', hrest⟩
    · rintro ⟨inside, closing, rest, heq, hinside, hcloses, hrest⟩
      cases inside with
      | nil =>
        obtain ⟨rfl, -⟩ := List.cons.inj heq
        rw [not_opening_of_closing (brackets_of_closes hcloses).2] at hopening
        cases hopening
      | cons kind inside =>
        obtain ⟨rfl, rfl⟩ := List.cons.inj heq
        cases hinside with
        | @group _ closing' inside' after' hcloses' hinside' hafter' =>
          exact ⟨inside', closing', after' ++ closing :: rest, by simp, hinside', hcloses',
            after', closing, rest, rfl, hafter', hcloses, hrest⟩

theorem completes_closing {closing : TokenKind} (hclosing : closing.isClosingBracket)
    (opened kinds : List TokenKind) : Completes opened (closing :: kinds) ↔
      ∃ opening outer, opened = opening :: outer ∧ closes opening closing ∧ Completes outer kinds := by
  have hplain := not_opening_of_closing hclosing
  cases opened with
  | nil =>
    refine iff_of_false (fun h => ?_) fun ⟨_, _, h, _⟩ => by cases h
    rw [h.head] at hplain
    cases hplain
  | cons opening outer =>
    constructor
    · rintro ⟨inside, closing', rest, heq, hinside, hcloses, hrest⟩
      cases inside with
      | nil =>
        obtain ⟨rfl, rfl⟩ := List.cons.inj heq
        exact ⟨opening, outer, rfl, hcloses, hrest⟩
      | cons kind inside =>
        obtain ⟨rfl, -⟩ := List.cons.inj heq
        rw [hinside.head] at hplain
        cases hplain
    · rintro ⟨_, _, heq, hcloses, hrest⟩
      obtain ⟨rfl, rfl⟩ := List.cons.inj heq
      exact ⟨[], closing, kinds, rfl, .nil, hcloses, hrest⟩

theorem completes_nil_iff (opened : List TokenKind) : Completes opened [] ↔ opened = [] := by
  cases opened with
  | nil => exact iff_of_true .nil rfl
  | cons opening outer =>
    refine iff_of_false (fun ⟨inside, closing, rest, heq, _⟩ => ?_) (List.cons_ne_nil _ _)
    simp at heq

/-- The faults are about brackets. -/
def bracketFaults (faults : List BracketFault) : List Nat := unclosedAt faults ++ unexpectedAt faults

/-- No bracket is reported exactly if the brackets close what is open, and are balanced otherwise. -/
theorem bracketFaults_eq_nil_iff (kinds : List TokenKind) (position : Nat) (stack : Stack) :
    bracketFaults (ofKindsFrom position stack kinds).faults = [] ↔
      Completes (stack.map (·.2)) (kinds.filter isBracket) := by
  induction kinds generalizing position stack with
  | nil =>
    rw [ofKindsFrom, bracketFaults, unclosedAt_map fun p => ⟨rfl, rfl⟩, unexpectedAt_map fun p => rfl,
      List.append_nil, List.map_eq_nil_iff, List.reverse_eq_nil_iff, List.filter_nil, completes_nil_iff,
      List.map_eq_nil_iff]
  | cons kind kinds ih =>
    rw [ofKindsFrom]
    split_ifs with herror hopening hclosing
    · subst herror
      exact ih _ _
    · rw [List.filter_cons_of_pos (isBracket_of_opening hopening), ih, List.map_cons,
        completes_opening hopening]
    · rw [List.filter_cons_of_pos (isBracket_of_closing hclosing), completes_closing hclosing]
      dsimp only
      split
      · rename_i hdrop
        refine iff_of_false (fun h => ?_) ?_
        · simp [bracketFaults, unexpectedAt, BracketFault.isUnexpected] at h
        · rintro ⟨opening, outer, hstack, hcloses, -⟩
          cases stack with
          | nil => cases hstack
          | cons opened stack =>
            obtain ⟨rfl, -⟩ := List.cons.inj hstack
            rw [takeWhile_not_closes hcloses] at hdrop
            cases hdrop
      · rename_i opened outer hdrop
        obtain ⟨hstack, hcloses⟩ := eq_takeWhile_append hdrop
        cases hinner : stack.takeWhile fun o => !closes o.2 kind with
        | nil =>
          rw [hinner, List.nil_append] at hstack
          rw [hstack, List.map_cons]
          refine (ih _ _).trans ⟨fun h => ⟨_, _, rfl, hcloses, h⟩, ?_⟩
          rintro ⟨opening, outer', heq, -, hrest⟩
          rwa [(List.cons.inj heq).2]
        | cons o inner =>
          -- The innermost open bracket stays unclosed, and has another shape.
          rw [hinner] at hstack
          refine iff_of_false (fun h => ?_) ?_
          · rw [bracketFaults, unclosedAt_append, unclosedAt_map fun p => ⟨rfl, rfl⟩] at h
            simp at h
          · rintro ⟨opening, outer', heq, hcloses', -⟩
            rw [hstack, List.cons_append, List.map_cons] at heq
            rw [hstack, List.cons_append,
              takeWhile_not_closes (show closes o.2 kind from (List.cons.inj heq).1 ▸ hcloses')] at hinner
            cases hinner
    · rw [List.filter_cons_of_neg, ih]
      rw [isBracket, Bool.eq_false_iff.mpr hopening, Bool.eq_false_iff.mpr hclosing]
      exact Bool.false_ne_true

/-- The usual partners in a sequence: an opening bracket and a closing one of its shape, with balanced
brackets between them. -/
def Partners (kinds : List TokenKind) (p q : Nat) : Prop :=
  ∃ before opening inside closing after, kinds = before ++ opening :: (inside ++ closing :: after) ∧
    before.length = p ∧ before.length + 1 + inside.length = q ∧ closes opening closing ∧
    Balanced (inside.filter isBracket)

/-- Kinds that close some open brackets, and are balanced otherwise, leave the brackets outside as they
are. -/
theorem ofKindsFrom_completes {inside : List TokenKind} {outer : Stack} (position : Nat) (inner : Stack)
    (h : Completes (inner.map (·.2)) (inside.filter isBracket)) :
    ∃ pairs, ∀ rest, (ofKindsFrom position (inner ++ outer) (inside ++ rest)).pairs =
      pairs ++ (ofKindsFrom (position + inside.length) outer rest).pairs := by
  induction inside generalizing position inner with
  | nil =>
    obtain rfl := List.map_eq_nil_iff.mp ((completes_nil_iff _).mp h)
    exact ⟨[], fun rest => rfl⟩
  | cons kind inside ih =>
    have hlen : position + (kind :: inside).length = position + 1 + inside.length := by
      rw [List.length_cons]
      omega
    rw [hlen]
    simp only [List.cons_append]
    by_cases hopening : kind.isOpeningBracket
    · rw [List.filter_cons_of_pos (isBracket_of_opening hopening)] at h
      obtain ⟨pairs, hrun⟩ := ih (position + 1) ((position, kind) :: inner)
        ((completes_opening hopening _ _).mpr h)
      refine ⟨pairs, fun rest => ?_⟩
      rw [ofKindsFrom, if_neg (ne_error_of_isOpeningBracket hopening), if_pos hopening, ← List.cons_append,
        hrun]
    by_cases hclosing : kind.isClosingBracket
    · rw [List.filter_cons_of_pos (isBracket_of_closing hclosing), completes_closing hclosing] at h
      obtain ⟨opening, outer', heq, hcloses, hrest⟩ := h
      cases inner with
      | nil => cases heq
      | cons opened inner =>
        obtain ⟨rfl, rfl⟩ := List.cons.inj heq
        obtain ⟨pairs, hrun⟩ := ih (position + 1) inner hrest
        refine ⟨(opened.1, position) :: pairs, fun rest => ?_⟩
        have herror : kind ≠ .error := by
          rintro rfl
          cases hclosing
        rw [ofKindsFrom, if_neg herror, if_neg hopening, if_pos hclosing, List.cons_append,
          takeWhile_not_closes hcloses]
        exact congrArg _ (hrun rest)
    · rw [List.filter_cons_of_neg (by
        rw [isBracket, Bool.eq_false_iff.mpr hopening, Bool.eq_false_iff.mpr hclosing]
        exact Bool.false_ne_true)] at h
      obtain ⟨pairs, hrun⟩ := ih (position + 1) inner h
      refine ⟨pairs, fun rest => ?_⟩
      rw [ofKindsFrom]
      split_ifs <;> exact hrun rest

theorem mem_pairs_of_partners {kinds : List TokenKind} {p q : Nat} (h : Partners kinds p q) :
    (p, q) ∈ (ofKinds kinds).pairs := by
  obtain ⟨before, opening, inside, closing, after, rfl, rfl, rfl, hcloses, hinside⟩ := h
  obtain ⟨hopening, hclosing⟩ := brackets_of_closes hcloses
  obtain ⟨pairs, stack, -, hrun⟩ := pairs_after_opening before hopening
  obtain ⟨pairs', hrun'⟩ := @ofKindsFrom_completes _ ((before.length, opening) :: stack)
    (before.length + 1) [] hinside
  have herror : closing ≠ .error := by
    rintro rfl
    cases hclosing
  rw [(hrun _).1, ← List.nil_append ((before.length, opening) :: stack), hrun', ofKindsFrom, if_neg herror,
    if_neg (by rw [not_opening_of_closing hclosing]; exact Bool.false_ne_true), if_pos hclosing,
    takeWhile_not_closes (show closes (before.length, opening).2 closing from hcloses)]
  exact List.mem_append_right _ (List.mem_append_right _ List.mem_cons_self)

theorem exists_split_of_filter {α : Type} {P : α → Bool} {l inside rest : List α} {a : α}
    (h : l.filter P = inside ++ a :: rest) : ∃ l₁ l₂, l = l₁ ++ a :: l₂ ∧ l₁.filter P = inside := by
  obtain ⟨l₁, l₂, rfl, hleft, hright⟩ := List.filter_eq_append_iff.mp h
  obtain ⟨m₁, m₂, rfl, hnone, hrest⟩ := List.filter_eq_cons_iff.mp hright
  refine ⟨l₁ ++ m₁, m₂, by rw [List.append_assoc], ?_⟩
  rw [List.filter_append, hleft, List.filter_eq_nil_iff.mpr hnone, List.append_nil]

theorem Completes.exists_group {opening : TokenKind} (hopening : opening.isOpeningBracket)
    {xs ys opened : List TokenKind} (hxs : ∀ kind ∈ xs, kind.isBracket)
    (h : Completes opened (xs ++ opening :: ys)) : ∃ inside closing rest, ys = inside ++ closing :: rest ∧
      Balanced inside ∧ closes opening closing := by
  induction xs generalizing opened with
  | nil =>
    obtain ⟨inside, closing, rest, hys, hinside, hcloses, -⟩ := (completes_opening hopening _ _).mpr h
    exact ⟨inside, closing, rest, hys, hinside, hcloses⟩
  | cons kind xs ih =>
    rw [List.forall_mem_cons, isBracket, Bool.or_eq_true] at hxs
    rw [List.cons_append] at h
    rcases hxs.1 with hkind | hkind
    · exact ih hxs.2 ((completes_opening hkind _ _).mpr h)
    · obtain ⟨_, _, -, -, hrest⟩ := (completes_closing hkind _ _).mp h
      exact ih hxs.2 hrest

section Whole

variable (kinds : List TokenKind)

theorem openings_ofKinds : ((ofKinds kinds).pairs.map (·.1) ++ unclosedAt (ofKinds kinds).faults).Perm
    (positionsOf isOpeningBracket 0 kinds) := openings_accounted kinds 0 []

theorem closings_ofKinds : ((ofKinds kinds).pairs.map (·.2) ++ unexpectedAt (ofKinds kinds).faults).Perm
    (positionsOf isClosingBracket 0 kinds) := closings_accounted kinds 0 []

theorem nodup_opened : ((ofKinds kinds).pairs.map (·.1)).Nodup :=
  (List.nodup_append.mp ((openings_ofKinds kinds).nodup_iff.mpr (nodup_positionsOf 0 kinds))).1

theorem nodup_closed : ((ofKinds kinds).pairs.map (·.2)).Nodup :=
  (List.nodup_append.mp ((closings_ofKinds kinds).nodup_iff.mpr (nodup_positionsOf 0 kinds))).1

theorem count_opened (p : Nat) : ((ofKinds kinds).pairs.map (·.1)).count p +
    (unclosedAt (ofKinds kinds).faults).count p = if kinds[p]?.any isOpeningBracket then 1 else 0 := by
  rw [← List.count_append, (openings_ofKinds kinds).count_eq, count_positionsOf]

theorem count_closed (q : Nat) : ((ofKinds kinds).pairs.map (·.2)).count q +
    (unexpectedAt (ofKinds kinds).faults).count q = if kinds[q]?.any isClosingBracket then 1 else 0 := by
  rw [← List.count_append, (closings_ofKinds kinds).count_eq, count_positionsOf]

end Whole

variable {kinds : List TokenKind} {p q : Nat}

theorem eq_of_mem_opened {q' : Nat} (h : (p, q) ∈ (ofKinds kinds).pairs) (h' : (p, q') ∈ (ofKinds kinds).pairs) :
    q = q' := congrArg Prod.snd (List.inj_on_of_nodup_map (nodup_opened kinds) h h' rfl)

theorem eq_of_mem_closed {p' : Nat} (h : (p, q) ∈ (ofKinds kinds).pairs) (h' : (p', q) ∈ (ofKinds kinds).pairs) :
    p = p' := congrArg Prod.fst (List.inj_on_of_nodup_map (nodup_closed kinds) h h' rfl)

theorem closer?_eq_some_iff : (ofKinds kinds).closer? p = some q ↔ (p, q) ∈ (ofKinds kinds).pairs := by
  rw [closer?, List.lookup_eq_some_iff]
  constructor
  · rintro ⟨l₁, l₂, heq, -⟩
    rw [heq]
    exact List.mem_append_right _ List.mem_cons_self
  · intro h
    obtain ⟨l₁, l₂, heq⟩ := List.append_of_mem h
    refine ⟨l₁, l₂, heq, fun pair hpair => ?_⟩
    have hnodup := nodup_opened kinds
    rw [heq, List.map_append, List.map_cons] at hnodup
    have hne := (List.nodup_append.mp hnodup).2.2 pair.1 (List.mem_map_of_mem hpair) p List.mem_cons_self
    simpa using hne.symm

theorem brackets_of_mem (h : (p, q) ∈ (ofKinds kinds).pairs) : p < q ∧ ∃ opening closing,
    kinds[p]? = some opening ∧ kinds[q]? = some closing ∧ closes opening closing := by
  obtain ⟨opening, closing, -, hclosing, hcloses, hmem | ⟨-, hopening⟩⟩ := pair_cases kinds 0 [] _ h
  · cases hmem
  · exact ⟨(closer?_ofKinds (closer?_eq_some_iff.mpr h)).1, opening, closing, hopening, hclosing, hcloses⟩

/-- In balanced kinds a pair is one of usual partners. -/
theorem mem_pairs_iff_partners (hbalanced : Balanced (kinds.filter isBracket)) :
    (p, q) ∈ (ofKinds kinds).pairs ↔ Partners kinds p q := by
  refine ⟨fun h => ?_, mem_pairs_of_partners⟩
  obtain ⟨-, opening, _, hopening, -, hcloses⟩ := brackets_of_mem h
  obtain ⟨hlt, rfl⟩ := List.getElem?_eq_some_iff.mp hopening
  have hbracket := (brackets_of_closes hcloses).1
  have hsplit : kinds = kinds.take p ++ kinds[p] :: kinds.drop (p + 1) := by simp
  have hfilter : kinds.filter isBracket = (kinds.take p).filter isBracket ++
      kinds[p] :: (kinds.drop (p + 1)).filter isBracket := by
    conv_lhs => rw [hsplit]
    rw [List.filter_append, List.filter_cons_of_pos (isBracket_of_opening hbracket)]
  rw [hfilter] at hbalanced
  obtain ⟨inside, closing, rest, hrest, hinside, hcloses⟩ := Completes.exists_group hbracket
    (fun kind hkind => (List.mem_filter.mp hkind).2) (show Completes [] _ from hbalanced)
  obtain ⟨within, after, hdrop, rfl⟩ := exists_split_of_filter hrest
  have hpartners : Partners kinds p (p + 1 + within.length) :=
    ⟨kinds.take p, kinds[p], within, closing, after, hdrop ▸ hsplit,
      List.length_take_of_le (Nat.le_of_lt hlt), by rw [List.length_take_of_le (Nat.le_of_lt hlt)], hcloses, hinside⟩
  rwa [eq_of_mem_opened h (mem_pairs_of_partners hpartners)]

theorem bracketFaults_ofKinds_iff :
    bracketFaults (ofKinds kinds).faults = [] ↔ Balanced (kinds.filter isBracket) :=
  bracketFaults_eq_nil_iff kinds 0 []

theorem nested_of_mem {p' q' : Nat} (h : (p, q) ∈ (ofKinds kinds).pairs)
    (h' : (p', q') ∈ (ofKinds kinds).pairs) (hlt : p < p') (hinside : p' < q) : q' < q := by
  have hpairs := pairs_uncrossed kinds 0 (show Stack.Below [] 0 from ⟨.nil, nofun⟩)
  let Nested (a b : Nat × Nat) : Prop := Uncrossed a b ∨ Uncrossed b a
  have : Std.Symm Nested := ⟨fun _ _ => Or.symm⟩
  have hnested : Nested (p, q) (p', q') :=
    (hpairs.imp fun {_ _} hab => (Or.inl hab : Nested _ _)).forall h h' fun heq =>
      Nat.ne_of_lt hlt (congrArg Prod.fst heq)
  simp only [Nested, Uncrossed] at hnested
  omega

end BracketMatching

namespace Code

open BracketMatching TokenKind

/-- How often a problem is reported at a position when brackets are matched. -/
def reports (c : Code) (code : Text) (p : Nat) : Nat :=
  c.matching.faults.countP fun fault =>
    fault.position == p && (Parser.bracketError c fault).fault.code == code

variable (c : Code) (p : Nat)

theorem countP_position (P : BracketFault → Bool) (faults : List BracketFault) :
    ((faults.filter P).map BracketFault.position).count p =
      faults.countP fun fault => fault.position == p && P fault := by
  rw [List.count, List.countP_map, List.countP_filter]
  rfl

theorem code_unclosed (fault : BracketFault) :
    ((Parser.bracketError c fault).fault.code == "E0201") = fault.isUnclosed := by
  cases fault <;> rfl

theorem code_unexpected (fault : BracketFault) :
    ((Parser.bracketError c fault).fault.code == "E0202") = fault.isUnexpected := by
  cases fault <;> rfl

theorem reports_unclosed : c.reports "E0201" p = (unclosedAt c.matching.faults).count p := by
  rw [unclosedAt, countP_position, reports]
  simp only [code_unclosed]

theorem reports_unexpected : c.reports "E0202" p = (unexpectedAt c.matching.faults).count p := by
  rw [unexpectedAt, countP_position, reports]
  simp only [code_unexpected]

theorem any_kind? {kinds : List TokenKind} {p : Nat} {kind : TokenKind} {P : TokenKind → Bool}
    (hkind : kinds[p]? = some kind) (hP : P kind) : (if kinds[p]?.any P then 1 else 0) = 1 := by
  rw [hkind, Option.any_some, hP, if_pos rfl]

/-- Every bracket is in one pair or in one report, pairs do not cross, and without a report the brackets
are balanced and the pairs are the usual ones. -/
theorem brackets_matched (tokens : List Token) (byteSize : Nat) :
    let c := Code.ofTokens tokens byteSize
    let kinds := c.items.toList.map (·.2.kind)
    let pairs := c.matching.pairs
    (∀ p q, c.matching.closer? p = some q ↔ (p, q) ∈ pairs) ∧
    (∀ p q, (p, q) ∈ pairs → p < q ∧ ∃ opening closing, c.kind? p = some opening ∧
      c.kind? q = some closing ∧ closes opening closing) ∧
    (∀ p opening, c.kind? p = some opening → opening.isOpeningBracket →
      (∃! q, (p, q) ∈ pairs) ∧ c.reports "E0201" p = 0 ∨ (∀ q, (p, q) ∉ pairs) ∧ c.reports "E0201" p = 1) ∧
    (∀ q closing, c.kind? q = some closing → closing.isClosingBracket →
      (∃! p, (p, q) ∈ pairs) ∧ c.reports "E0202" q = 0 ∨ (∀ p, (p, q) ∉ pairs) ∧ c.reports "E0202" q = 1) ∧
    (∀ p q p' q', (p, q) ∈ pairs → (p', q') ∈ pairs → p < p' → p' < q → q' < q) ∧
    ((∀ p, c.reports "E0201" p = 0 ∧ c.reports "E0202" p = 0) ↔ Balanced (kinds.filter isBracket)) ∧
    (Balanced (kinds.filter isBracket) → ∀ p q, (p, q) ∈ pairs ↔ Partners kinds p q) := by
  intro c kinds pairs
  have hmatching : c.matching = .ofKinds kinds := rfl
  have hkind (p : Nat) : c.kind? p = kinds[p]? := by
    simp only [Code.kind?, kinds, List.getElem?_map, Array.getElem?_toList]
  simp only [reports_unclosed, reports_unexpected, hkind, hmatching]
  have hpairs : pairs = (ofKinds kinds).pairs := rfl
  simp only [hpairs]
  refine ⟨fun p q => closer?_eq_some_iff, fun p q => brackets_of_mem, fun p opening hp hopening => ?_,
    fun q closing hq hclosing => ?_, fun p q p' q' => nested_of_mem, ?_,
    fun hbalanced p q => mem_pairs_iff_partners hbalanced⟩
  · have hcount := count_opened kinds p
    rw [any_kind? hp hopening] at hcount
    by_cases hmem : p ∈ (ofKinds kinds).pairs.map (·.1)
    · obtain ⟨⟨_, q⟩, hpair, rfl⟩ := List.mem_map.mp hmem
      have hpos := List.count_pos_iff.mpr hmem
      exact .inl ⟨⟨q, hpair, fun q' h => eq_of_mem_opened h hpair⟩, by omega⟩
    · rw [List.count_eq_zero_of_not_mem hmem, Nat.zero_add] at hcount
      exact .inr ⟨fun q h => hmem (List.mem_map_of_mem h), hcount⟩
  · have hcount := count_closed kinds q
    rw [any_kind? hq hclosing] at hcount
    by_cases hmem : q ∈ (ofKinds kinds).pairs.map (·.2)
    · obtain ⟨⟨p, _⟩, hpair, rfl⟩ := List.mem_map.mp hmem
      have hpos := List.count_pos_iff.mpr hmem
      exact .inl ⟨⟨p, hpair, fun p' h => eq_of_mem_closed h hpair⟩, by omega⟩
    · rw [List.count_eq_zero_of_not_mem hmem, Nat.zero_add] at hcount
      exact .inr ⟨fun p h => hmem (List.mem_map_of_mem h), hcount⟩
  · rw [← bracketFaults_ofKinds_iff, bracketFaults, List.append_eq_nil_iff]
    simp only [List.count_eq_zero, forall_and, List.eq_nil_iff_forall_not_mem]

end Code
end NamespaceMigration
