import NamespaceMigration.Proofs.Relocation.Blocks
import NamespaceMigration.Proofs.Statements.Placement

/-! The parser comes to its end, whatever the tokens are. Loops go forward from round to round, statements
inside others are read at later positions, and every statement has a token of its own. -/
namespace NamespaceMigration
namespace Parser

open Code (lt_size_of_kind? lt_size_of_isAt lt_size_of_isAtAny)

/-- One round of a loop. It is the last one, with a value, or the loop goes on at another position and makes
its value from the one that it has there. -/
inductive Round (α : Type) where
  | last (value : α)
  | more (next : Nat) (value : α → α)

/-- The value of a loop from a round on, given its values at other positions. -/
def Round.value {α : Type} (later : Nat → α) : Round α → α
  | last value => value
  | more next value => value (later next)

/-- A loop from a position on ends with a value. There are finitely many rounds, each further on than the one
before it. -/
inductive Ends {α : Type} (round : Nat → Round α) : Nat → α → Prop
  | last {p : Nat} {value : α} : round p = .last value → Ends round p value
  | more {p next : Nat} {value : α → α} {rest : α} : round p = .more next value → p < next →
      Ends round next rest → Ends round p (value rest)

/-- No round goes on without a token at its position, or to a position that is not further on. -/
def GoesOn {α : Type} (c : Code) (round : Nat → Round α) : Prop :=
  ∀ p next value, round p = .more next value → p < c.size ∧ p < next

/-- Fuel for every token and for the last round is enough for a loop that goes on. -/
theorem Ends.of_rounds {α : Type} {c : Code} {round : Nat → Round α} {loop : Nat → Nat → α}
    (hforward : GoesOn c round) (hround : ∀ fuel p, loop (fuel + 1) p = (round p).value (loop fuel)) (p : Nat) :
    Ends round p (loop (c.size + 1) p) := by
  suffices h : ∀ fuel q, c.size ≤ q + fuel → Ends round q (loop (fuel + 1) q) from h _ _ (Nat.le_add_left _ _)
  intro fuel
  induction fuel with
  | zero =>
    intro q hq
    rw [hround]
    cases hnext : round q with
    | last value => exact .last hnext
    | more next value =>
      have := hforward q next value hnext
      omega
  | succ fuel ih =>
    intro q hq
    rw [hround]
    cases hnext : round q with
    | last value => exact .last hnext
    | more next value =>
      obtain ⟨-, hlt⟩ := hforward q next value hnext
      exact .more hnext hlt (ih next (by omega))

theorem Round.later {α : Type} {c : Code} {round round' : Nat → Round α} {loop loop' : Nat → Nat → α}
    {low : Nat} (hforward : GoesOn c round)
    (hround : ∀ fuel p, loop (fuel + 1) p = (round p).value (loop fuel))
    (hround' : ∀ fuel p, loop' (fuel + 1) p = (round' p).value (loop' fuel))
    (hzero : ∀ p, loop 0 p = loop' 0 p) (heq : ∀ p, low ≤ p → round p = round' p) (fuel : Nat) {p : Nat}
    (hp : low ≤ p) : loop fuel p = loop' fuel p := by
  induction fuel generalizing p with
  | zero => exact hzero p
  | succ fuel ih =>
    rw [hround, hround', ← heq p hp]
    cases hnext : round p with
    | last value => rfl
    | more next value =>
      have hlt := (hforward p next value hnext).2
      exact congrArg value (ih (by omega))

/-- A round of a loop over statements. -/
def itemRound (inner : Inner) (stop : Nat → Bool) (p : Nat) : Round (Parsed (List Statement)) :=
  if stop p then .last ⟨[], p, []⟩
  else .more (inner p).next fun rest => (inner p).single.andThen fun _ => rest

/-- A round of a loop that follows steps. -/
def stepRound (step : Nat → Option Nat) (p : Nat) : Round Nat :=
  match step p with
  | some next => .more next id
  | none => .last p

/-- A round of the way to the end of a statement without a shape. -/
def skipRound (c : Code) (start p : Nat) : Round Nat :=
  match statementStep c start p with
  | .finish next => .last next
  | .goOn next => .more next id

/-- What the items of a `use` statement are read into: the items and the position after them, or the position
of the trouble. -/
abbrev FoundItems := Except Nat (List ImportItem × Nat)

/-- Some items before those that are found later. -/
def itemsBefore (items : List ImportItem) (later : FoundItems) : FoundItems := do
  let (more, stop) ← later
  .ok (items ++ more, stop)

/-- A round through the items of a group. -/
def groupRound (c : Code) (kind : SymbolKind) (lead : Text) (p : Nat) : Round FoundItems :=
  if c.isAt .rightBrace p then .last (.ok ([], p + 1))
  else
    let name := afterImportKind c p
    if !c.isAtAny [.ident, .nameQualified] name then .last (.error name)
    else
      let (alias?, next) := importAlias c (name + 1)
      let item : ImportItem := ⟨(importKind? c p).getD kind, lead ++ '\\' :: c.text name, alias?,
        c.tokenIndex name, some lead⟩
      if c.isAt .comma next then .more (next + 1) (itemsBefore [item])
      else if c.isAt .rightBrace next then .last (.ok ([item], next + 1))
      else .last (.error next)

/-- A round through the items of a `use` statement. -/
def importRound (c : Code) (kind : SymbolKind) (p : Nat) : Round FoundItems :=
  if !c.isAtAny [.ident, .nameQualified, .nameFullyQualified] p then .last (.error p)
  else
    match namedItems c kind p with
    | .error trouble => .last (.error trouble)
    | .ok (items, next) =>
      if c.isAt .comma next then .more (next + 1) (itemsBefore items) else .last (.ok (items, next))

/-- A round through the directives of a `declare`. -/
def directiveRound (c : Code) (close p : Nat) : Round (List Directive × List SyntaxError) :=
  if close ≤ p then .last ([], [])
  else if c.isAt .ident p ∧ c.isAt .equals (p + 1) then
    let stop := follow (valueStep c close) (c.size + 1) (p + 2)
    let value := (List.range' (p + 2) (stop - (p + 2))).flatMap c.text
    .more (stop + 1) fun (later, errors) => (⟨(c.text p).toLowerAscii, value⟩ :: later, errors)
  else .last ([], [errorAt c .malformedDeclare p])

/-- A round through the further branches of a condition written with braces. -/
def braceRound (c : Code) (inner : Inner) (p : Nat) : Round (Parsed (List Statement)) :=
  if c.isAt .kwElseif p then
    let arm := branch c inner (c.groupEnd (p + 1))
    .more arm.next fun rest => arm.andThen fun _ => rest
  else if c.isAt .kwElse p then .last (branch c inner (p + 1))
  else .last ⟨[], p, []⟩

/-- A round through the further branches of a condition written with colons. -/
def colonRound (c : Code) (inner : Inner) (p : Nat) : Round (Parsed (List Statement)) :=
  let arm (head : Nat) :=
    let found := statementsUntil c inner armWords (c.skip .colon head)
    .more found.next fun rest => found.andThen fun _ => rest
  match c.kind? p with
  | some .kwElseif => arm (c.groupEnd (p + 1))
  | some .kwElse => arm (p + 1)
  | some .kwEndif => .last ⟨[], (terminator c (p + 1)).next, (terminator c (p + 1)).errors⟩
  | _ => .last ⟨[], p, [errorAt c .missingTerminator p]⟩

variable {c : Code}

theorem GoesOn.stepRound {step : Nat → Option Nat}
    (h : ∀ p next, step p = some next → p < c.size ∧ p < next) : GoesOn c (stepRound step) := by
  intro p next value hmore
  rw [Parser.stepRound] at hmore
  split at hmore
  · rename_i hstep
    cases hmore
    exact h p next hstep
  · cases hmore

theorem follow_ends {step : Nat → Option Nat} (h : ∀ p next, step p = some next → p < c.size ∧ p < next)
    (p : Nat) : Ends (stepRound step) p (follow step (c.size + 1) p) := by
  refine Ends.of_rounds (GoesOn.stepRound h) (fun fuel q => ?_) p
  rw [follow, stepRound]
  cases step q <;> rfl

theorem groupItems_ends (kind : SymbolKind) (lead : Text) (p : Nat) :
    Ends (groupRound c kind lead) p (groupItems c kind lead (c.size + 1) p) := by
  refine Ends.of_rounds (fun q next value hmore => ?_) (fun fuel q => ?_) p
  · rw [groupRound] at hmore
    dsimp only at hmore
    split_ifs at hmore with hclose hname hcomma
    cases hmore
    have hname : afterImportKind c q + 1 ≤ c.size := lt_size_of_isAtAny (by simpa using hname)
    have hle : q ≤ afterImportKind c q := by
      rw [afterImportKind]
      split <;> omega
    have hlt := (importAlias_reaches hname).1
    exact ⟨by omega, by omega⟩
  · rw [groupItems, groupRound]
    split_ifs
    · rfl
    · dsimp only
      split_ifs <;> rfl

theorem importItems_ends (kind : SymbolKind) (p : Nat) :
    Ends (importRound c kind) p (importItems c kind (c.size + 1) p) := by
  refine Ends.of_rounds (fun q next value hmore => ?_) (fun fuel q => ?_) p
  · rw [importRound] at hmore
    split_ifs at hmore with hname
    have hname : q < c.size := lt_size_of_isAtAny (by simpa using hname)
    have hitems := namedItems_found kind hname
    cases hfound : namedItems c kind q with
    | error trouble =>
      rw [hfound] at hmore
      cases hmore
    | ok found =>
      rw [hfound] at hmore hitems
      dsimp only at hmore
      split_ifs at hmore
      cases hmore
      have := hitems.1.1
      exact ⟨hname, by omega⟩
  · rw [importItems_succ, importRound]
    split_ifs
    · rfl
    · cases namedItems c kind q with
      | error trouble => rfl
      | ok found =>
        change (if _ then _ else _) = _
        dsimp only
        split <;> rfl

theorem valueStep_goes {close : Nat} (hclose : close ≤ c.size) (p next : Nat)
    (hstep : valueStep c close p = some next) : p < c.size ∧ p < next := by
  obtain ⟨hlt, -, rfl⟩ := valueStep_eq_some hstep
  exact ⟨by omega, Nat.lt_succ_self p⟩

theorem directives_ends (close p : Nat) :
    Ends (directiveRound c close) p (directives c close (c.size + 1) p) := by
  refine Ends.of_rounds (fun q next value hmore => ?_) (fun fuel q => ?_) p
  · rw [directiveRound] at hmore
    split_ifs at hmore with hend hkey
    cases hmore
    have hstop : q + 2 ≤ follow (valueStep c close) (c.size + 1) (q + 2) :=
      le_follow (fun q next hstep => by rw [(valueStep_eq_some hstep).2.2]; exact Nat.lt_succ_self q) _ _
    exact ⟨lt_size_of_isAt hkey.1, by omega⟩
  · rw [directives, directiveRound]
    split_ifs <;> rfl

section Ordered

variable (ho : c.Ordered)
include ho

theorem stepBy_goes {goes : TokenKind → Option Bool} (p next : Nat) (hstep : stepBy c goes p = some next) :
    p < c.size ∧ p < next := by
  refine ⟨?_, lt_of_stepBy ho hstep⟩
  rw [stepBy, Option.map_eq_some_iff] at hstep
  obtain ⟨group, hgoes, -⟩ := hstep
  obtain ⟨kind, hkind, -⟩ := Option.bind_eq_some_iff.mp hgoes
  exact lt_size_of_kind? hkind

theorem afterModifiers_ends (p : Nat) : Ends (stepRound (stepBy c modifierStep)) p (afterModifiers c p) := by
  rw [afterModifiers_eq]
  exact follow_ends (stepBy_goes ho) p

theorem header_ends (p : Nat) :
    Ends (stepRound (headerStep c)) p (follow (headerStep c) (c.size + 1) p) := by
  rw [headerStep_eq]
  exact follow_ends (stepBy_goes ho) p

theorem statementEnd_ends (start p : Nat) :
    Ends (skipRound c start) p (statementEnd c start (c.size + 1) p) := by
  refine Ends.of_rounds (fun q next value hmore => ?_) (fun fuel q => ?_) p
  · rw [skipRound] at hmore
    split at hmore
    · cases hmore
    · rename_i hstep
      cases hmore
      rw [statementStep] at hstep
      split at hstep
      · cases hstep
      · rename_i kind hkind
        have hlt := lt_size_of_kind? hkind
        have hgroup := (ho.groupEnd_reaches_succ hlt).1
        refine ⟨hlt, ?_⟩
        dsimp only at hstep
        split_ifs at hstep <;> cases hstep
        · exact hgroup
        · exact Nat.lt_succ_self q
  · rw [statementEnd, skipRound]
    cases statementStep c start q <;> rfl

end Ordered

theorem manyUntil_round (inner : Inner) (stop : Nat → Bool) (fuel p : Nat) : manyUntil inner stop (fuel + 1) p =
    (itemRound inner stop p).value (manyUntil inner stop fuel) := by
  rw [manyUntil, itemRound]
  split <;> rfl

theorem braceArms_round (inner : Inner) (fuel p : Nat) : braceArms c inner (fuel + 1) p =
    (braceRound c inner p).value (braceArms c inner fuel) := by
  rw [braceArms, braceRound]
  split_ifs <;> rfl

theorem colonArms_round (inner : Inner) (fuel p : Nat) : colonArms c inner (fuel + 1) p =
    (colonRound c inner p).value (colonArms c inner fuel) := by
  rw [colonRound]
  dsimp only
  split
  · rename_i hkind
    rw [colonArms_elseif hkind]
    rfl
  · rename_i hkind
    rw [colonArms_else hkind]
    rfl
  · rename_i hkind
    rw [colonArms_endif hkind]
    rfl
  · rename_i helseif helse hendif
    rw [colonArms]
    split
    · exact absurd ‹_› helseif
    · exact absurd ‹_› helse
    · exact absurd ‹_› hendif
    · rfl

section Inside

variable {inner : Inner} (hinner : ∀ p, p < c.size → c.Reaches (p + 1) (inner p).next)
include hinner

theorem itemRound_goesOn {stop : Nat → Bool} (hstop : ∀ p, c.atEnd p → stop p) :
    GoesOn c (itemRound inner stop) := by
  intro p next value hmore
  rw [itemRound] at hmore
  split_ifs at hmore with hend
  cases hmore
  have hlt : p < c.size := by simpa [Code.atEnd] using mt (hstop p) hend
  exact ⟨hlt, (hinner p hlt).1⟩

theorem manyUntil_ends {stop : Nat → Bool} (hstop : ∀ p, c.atEnd p → stop p) (p : Nat) :
    Ends (itemRound inner stop) p (manyUntil inner stop (c.size + 1) p) :=
  .of_rounds (itemRound_goesOn hinner hstop) (manyUntil_round inner stop) p

variable (ho : c.Ordered)
include ho

theorem braceRound_goesOn : GoesOn c (braceRound c inner) := by
  intro p next value hmore
  rw [braceRound] at hmore
  split_ifs at hmore with helseif
  cases hmore
  have hlt : p + 1 ≤ c.size := lt_size_of_isAt helseif
  have hgroup := ho.groupEnd_reaches hlt
  exact ⟨hlt, (hgroup.trans (branch_reaches hinner hgroup.2)).1⟩

theorem colonRound_goesOn : GoesOn c (colonRound c inner) := by
  intro p next value hmore
  have harm {head : Nat} (hhead : c.Reaches (p + 1) head) :
      p < (statementsUntil c inner armWords (c.skip .colon head)).next := by
    have hskip := Code.skip_reaches .colon hhead.2
    exact (hhead.trans (hskip.trans (statementsUntil_reaches hinner armWords hskip.2))).1
  rw [colonRound] at hmore
  dsimp only at hmore
  split at hmore
  · rename_i hkind
    have hlt : p + 1 ≤ c.size := lt_size_of_kind? hkind
    cases hmore
    exact ⟨hlt, harm (ho.groupEnd_reaches hlt)⟩
  · rename_i hkind
    have hlt : p + 1 ≤ c.size := lt_size_of_kind? hkind
    cases hmore
    exact ⟨hlt, harm ⟨Nat.le_refl _, hlt⟩⟩
  · cases hmore
  · cases hmore

theorem braceArms_ends (p : Nat) : Ends (braceRound c inner) p (braceArms c inner (c.size + 1) p) :=
  .of_rounds (braceRound_goesOn hinner ho) (braceArms_round inner) p

theorem colonArms_ends (p : Nat) : Ends (colonRound c inner) p (colonArms c inner (c.size + 1) p) :=
  .of_rounds (colonRound_goesOn hinner ho) (colonArms_round inner) p

end Inside

section Later

-- Two ways to read statements that agree at the positions from `low` on.
variable {inner inner' : Inner} {low : Nat} (hinner : ∀ p, p < c.size → c.Reaches (p + 1) (inner p).next)
  (heq : ∀ p, low ≤ p → p < c.size → inner p = inner' p)
include heq

section Blocks

include hinner

theorem statementsUntil_later (kinds : List TokenKind) {p : Nat} (hp : low ≤ p) :
    statementsUntil c inner kinds p = statementsUntil c inner' kinds p := by
  have hstop : ∀ p, c.atEnd p → (c.atEnd p || c.isAtAny kinds p) := fun p hend => by simp [hend]
  refine Round.later (itemRound_goesOn hinner hstop) (manyUntil_round inner _) (manyUntil_round inner' _) (fun _ => rfl)
    (fun q hq => ?_) _ hp
  rw [itemRound, itemRound]
  split_ifs with hend
  · rfl
  · rw [heq q hq (by simpa [Code.atEnd] using mt (hstop q) hend)]

theorem block_later {p : Nat} (hp : low ≤ p) : block c inner p = block c inner' p := by
  rw [block, block, statementsUntil_later hinner heq [.rightBrace] hp]

theorem branch_later {p : Nat} (hp : low ≤ p) : branch c inner p = branch c inner' p := by
  rw [branch, branch, block_later hinner heq (Nat.le_succ_of_le hp)]
  split_ifs with hbrace hend
  · rfl
  · rfl
  · rw [heq p hp (lt_size_of_atEnd (by simpa using hend))]

theorem declareRest_later {p : Nat} (hp : low ≤ p) : declareRest c inner p = declareRest c inner' p := by
  rw [declareRest, declareRest, block_later hinner heq (Nat.le_succ_of_le hp),
    statementsUntil_later hinner heq _ (Nat.le_succ_of_le hp)]

end Blocks

variable (ho : c.Ordered)
include hinner ho

theorem braceArms_later (fuel : Nat) {p : Nat} (hp : low ≤ p) :
    braceArms c inner fuel p = braceArms c inner' fuel p := by
  refine Round.later (braceRound_goesOn hinner ho) (braceArms_round inner) (braceArms_round inner') (fun _ => rfl)
    (fun q hq => ?_) fuel hp
  rw [braceRound, braceRound, branch_later hinner heq (Nat.le_succ_of_le hq)]
  split_ifs with helseif
  · have hgroup := (ho.groupEnd_reaches (lt_size_of_isAt helseif)).1
    rw [branch_later hinner heq (Nat.le_trans hq (Nat.le_of_succ_le hgroup))]
  · rfl
  · rfl

theorem colonArms_later (fuel : Nat) {p : Nat} (hp : low ≤ p) :
    colonArms c inner fuel p = colonArms c inner' fuel p := by
  refine Round.later (colonRound_goesOn hinner ho) (colonArms_round inner) (colonArms_round inner') (fun _ => rfl)
    (fun q hq => ?_) fuel hp
  have harm {head : Nat} (hhead : c.Reaches (q + 1) head) :
      statementsUntil c inner armWords (c.skip .colon head) =
        statementsUntil c inner' armWords (c.skip .colon head) := by
    have hskip := (hhead.trans (Code.skip_reaches .colon hhead.2)).1
    exact statementsUntil_later hinner heq armWords (Nat.le_trans hq (Nat.le_of_succ_le hskip))
  rw [colonRound, colonRound]
  dsimp only
  split
  · rename_i hkind
    rw [harm (ho.groupEnd_reaches (lt_size_of_kind? hkind))]
  · rename_i hkind
    rw [harm ⟨Nat.le_refl _, lt_size_of_kind? hkind⟩]
  · rfl
  · rfl

theorem ifStatement_later {p : Nat} (hp : p < c.size) (hlow : low ≤ p + 1) :
    ifStatement c inner p = ifStatement c inner' p := by
  have hgroup := ho.groupEnd_reaches hp
  have hle : low ≤ c.groupEnd (p + 1) := Nat.le_trans hlow hgroup.1
  rw [ifStatement, ifStatement, ← branch_later hinner heq hle,
    ← statementsUntil_later hinner heq armWords (Nat.le_succ_of_le hle)]
  by_cases hcolon : c.isAt .colon (c.groupEnd (p + 1))
  · have hfirst := statementsUntil_reaches hinner armWords (lt_size_of_isAt hcolon)
    simp only [if_pos hcolon]
    rw [colonArms_later hinner heq ho _ (Nat.le_trans hle (Nat.le_of_succ_le hfirst.1))]
  · have hfirst := branch_reaches hinner hgroup.2
    simp only [if_neg hcolon]
    rw [braceArms_later hinner heq ho _ (Nat.le_trans hle hfirst.1)]

theorem declareStatement_later {p : Nat} (hopen : c.isAt .leftParen (p + 1)) (hlow : low ≤ p + 1) :
    declareStatement c inner p = declareStatement c inner' p := by
  have hgroup := (ho.groupEnd_reaches_succ (lt_size_of_isAt hopen)).1
  obtain ⟨close, hclose⟩ : ∃ close, c.groupEnd (p + 1) = close + 1 := ⟨c.groupEnd (p + 1) - 1, by omega⟩
  rw [declareStatement_eq hclose, declareStatement_eq hclose, declareRest_later hinner heq (by omega)]

theorem shape_later {p : Nat} (hp : p < c.size) (hlow : low ≤ p + 1) :
    shape c inner p = shape c inner' p := by
  rw [shape, shape]
  split
  case h_6 =>
    split
    · rename_i hopen
      exact declareStatement_later hinner heq ho hopen hlow
    · rfl
  case h_7 => exact ifStatement_later hinner heq ho hp hlow
  all_goals rfl

end Later

theorem statement_depth (ho : c.Ordered) {depth depth' p : Nat} (hp : p < c.size)
    (hdepth : c.size ≤ p + depth) (hdepth' : c.size ≤ p + depth') :
    statement c depth p = statement c depth' p := by
  induction depth generalizing p depth' with
  | zero => omega
  | succ depth ih =>
    obtain ⟨depth', rfl⟩ : ∃ d, depth' = d + 1 := ⟨depth' - 1, by omega⟩
    have heq (q : Nat) (hq : p + 1 ≤ q) (hlt : q < c.size) : statement c depth q = statement c depth' q :=
      ih hlt (by omega) (by omega)
    rw [statement, statement, shape_later (fun q hq => statement_reaches ho hq) heq ho hp (Nat.le_refl _)]

section Count

open Statement (Placed InRow)

mutual

theorem outline_length (above : List Level) (number : Nat) (s : Statement) {p n : Nat} (h : s.Placed c p n) :
    (outline above number s).length + p ≤ n := by
  match s with
  | ⟨kind, first, stop, doc?, children⟩ =>
    have := outlineAll_length above number ⟨kind, first, stop, doc?, children⟩ [] (number + 1) children
      h.children
    rw [outline, List.length_cons]
    omega

theorem outlineAll_length (above : List Level) (number : Nat) (parent : Statement)
    (earlier : List Statement) (next : Nat) (later : List Statement) {p n : Nat} (h : InRow c p n later) :
    (outlineAll above number parent earlier next later).length + p ≤ n := by
  match later, h with
  | [], .nil hpn => simpa [outlineAll] using hpn
  | s :: later, .cons (q := q) (m := m) hpq hs hlater =>
    have hfirst := outline_length (⟨number, parent, earlier⟩ :: above) next s hs
    have hrest := outlineAll_length above number parent (s :: earlier)
      (next + (outline (⟨number, parent, earlier⟩ :: above) next s).length) later hlater
    rw [outlineAll, List.length_append]
    omega

end

end Count

section Whole

/-- No rule of the grammar goes back or leaves the code. Statements and namespaces take a token. -/
structure GoesForward (c : Code) (inner : Inner) : Prop where
  skip_reaches : ∀ kind p, p ≤ c.size → c.Reaches p (c.skip kind p)
  groupEnd_reaches : ∀ p, p < c.size → c.Reaches (p + 1) (c.groupEnd p)
  terminator_reaches : ∀ p, p ≤ c.size → c.Reaches p (terminator c p).next
  skipStatement_reaches : ∀ p, p ≤ c.size → c.Reaches p (skipStatement c p).next
  groupItems_found : ∀ kind lead p, p ≤ c.size → FoundFrom c p (groupItems c kind lead (c.size + 1) p)
  importItems_found : ∀ kind p, p ≤ c.size → FoundFrom c p (importItems c kind (c.size + 1) p)
  malformedUse_reaches : ∀ found p, p ≤ c.size → c.Reaches p (malformedUse c found p).next
  afterModifiers_reaches : ∀ p, p ≤ c.size → c.Reaches p (afterModifiers c p)
  body_reaches : ∀ p, p ≤ c.size → c.Reaches p (body c p).next
  statementsUntil_reaches : ∀ kinds p, p ≤ c.size → c.Reaches p (statementsUntil c inner kinds p).next
  block_reaches : ∀ p, p ≤ c.size → c.Reaches p (block c inner p).next
  branch_reaches : ∀ p, p ≤ c.size → c.Reaches p (branch c inner p).next
  braceArms_reaches : ∀ p, p ≤ c.size → c.Reaches p (braceArms c inner (c.size + 1) p).next
  colonArms_reaches : ∀ p, p ≤ c.size → c.Reaches p (colonArms c inner (c.size + 1) p).next
  useStatement_reaches : ∀ p, p < c.size → c.Reaches (p + 1) (useStatement c p).next
  constStatement_reaches : ∀ p, p < c.size → c.Reaches (p + 1) (constStatement c p).next
  declaration_reaches : ∀ p, p < c.size → c.Reaches (p + 1) (declaration c p).next
  ifStatement_reaches : ∀ p, p < c.size → c.Reaches (p + 1) (ifStatement c inner p).next
  declareStatement_reaches : ∀ p, c.isAt .leftParen (p + 1) →
    c.Reaches (p + 1) (declareStatement c inner p).next
  defineStatement_reaches : ∀ p, isDefineCall c p → c.Reaches (p + 1) (defineStatement c p).next
  statement_reaches : ∀ p, p < c.size → c.Reaches (p + 1) (inner p).next
  namespaceStatement_reaches : ∀ p, isNamespaceHeader c p →
    c.Reaches (p + 1) (namespaceStatement c inner p).next
  topStatements_next : (topStatements c).next = c.size

/-- Every loop of the grammar ends. -/
structure LoopsEnd (c : Code) (inner : Inner) : Prop where
  topStatements_ends : Ends (itemRound (topItem c) c.atEnd) 0 (topStatements c)
  namespaceStatement_ends : ∀ p, Ends (itemRound inner fun q => c.atEnd q || isNamespaceHeader c q) p
    (manyUntil inner (fun q => c.atEnd q || isNamespaceHeader c q) (c.size + 1) p)
  statementsUntil_ends : ∀ kinds p, Ends (itemRound inner fun q => c.atEnd q || c.isAtAny kinds q) p
    (statementsUntil c inner kinds p)
  braceArms_ends : ∀ p, Ends (braceRound c inner) p (braceArms c inner (c.size + 1) p)
  colonArms_ends : ∀ p, Ends (colonRound c inner) p (colonArms c inner (c.size + 1) p)
  importItems_ends : ∀ kind p, Ends (importRound c kind) p (importItems c kind (c.size + 1) p)
  groupItems_ends : ∀ kind lead p,
    Ends (groupRound c kind lead) p (groupItems c kind lead (c.size + 1) p)
  directives_ends : ∀ close p, Ends (directiveRound c close) p (directives c close (c.size + 1) p)
  /-- The value of a directive. -/
  value_ends : ∀ close p, close ≤ c.size →
    Ends (stepRound (valueStep c close)) p (follow (valueStep c close) (c.size + 1) p)
  afterModifiers_ends : ∀ p, Ends (stepRound (stepBy c modifierStep)) p (afterModifiers c p)
  header_ends : ∀ p, Ends (stepRound (headerStep c)) p (follow (headerStep c) (c.size + 1) p)
  statementEnd_ends : ∀ start p, Ends (skipRound c start) p (statementEnd c start (c.size + 1) p)

/-- Nested statements come to an end: inside a statement only later positions are read, and the limit of the
nesting is never met. -/
structure NestingEnds (c : Code) : Prop where
  shape_later : ∀ (inner inner' : Inner) p, (∀ q, q < c.size → c.Reaches (q + 1) (inner q).next) →
    (∀ q, p < q → q < c.size → inner q = inner' q) → p < c.size → shape c inner p = shape c inner' p
  statement_eq : ∀ depth p, p < c.size → c.size ≤ p + depth →
    statement c depth p = node c p (shape c (statement c (c.size + 1)) p)

variable (ho : c.Ordered)
include ho

theorem goesForward : GoesForward c (statement c (c.size + 1)) := by
  have hinner : ∀ p, p < c.size → c.Reaches (p + 1) (statement c (c.size + 1) p).next :=
    fun p hp => statement_reaches ho hp
  have hitem : ∀ p, c.atEnd p = false → c.Reaches (p + 1) (topItem c p).next :=
    fun p hp => topItem_reaches ho (lt_size_of_atEnd hp)
  have htop := manyUntil_reaches hitem (c.size + 1) (Nat.zero_le c.size)
  have hend := manyUntil_stop hitem (show c.size < 0 + (c.size + 1) by omega) (Nat.zero_le c.size)
  rw [Code.atEnd, decide_eq_true_eq] at hend
  exact {
    skip_reaches := fun kind p hp => Code.skip_reaches kind hp
    groupEnd_reaches := fun p hp => ho.groupEnd_reaches_succ hp
    terminator_reaches := fun p hp => terminator_reaches hp
    skipStatement_reaches := fun p hp => skipStatement_reaches ho hp
    groupItems_found := fun kind lead p hp => groupItems_found kind lead _ hp
    importItems_found := fun kind p hp => importItems_found kind _ hp
    malformedUse_reaches := fun found p hp => malformedUse_reaches ho hp
    afterModifiers_reaches := fun p hp => afterModifiers_reaches ho hp
    body_reaches := fun p hp => body_reaches ho hp
    statementsUntil_reaches := fun kinds p hp => statementsUntil_reaches hinner kinds hp
    block_reaches := fun p hp => block_reaches hinner hp
    branch_reaches := fun p hp => branch_reaches hinner hp
    braceArms_reaches := fun p hp => braceArms_reaches ho hinner _ hp
    colonArms_reaches := fun p hp => colonArms_reaches ho hinner _ hp
    useStatement_reaches := fun p hp => (useStatement_found ho hp).1
    constStatement_reaches := fun p hp => skipStatement_reaches_succ ho hp
    declaration_reaches := fun p hp => declaration_reaches ho hp
    ifStatement_reaches := fun p hp => ifStatement_reaches ho hinner hp
    declareStatement_reaches := fun p hopen => declareStatement_reaches ho hinner hopen
    defineStatement_reaches := fun p hdefine => defineStatement_reaches ho hdefine
    statement_reaches := hinner
    namespaceStatement_reaches := fun p hheader => (namespaceStatement_reaches hinner hheader).1
    topStatements_next := Nat.le_antisymm htop.2 hend }

theorem loopsEnd : LoopsEnd c (statement c (c.size + 1)) := by
  have hinner : ∀ p, p < c.size → c.Reaches (p + 1) (statement c (c.size + 1) p).next :=
    fun p hp => statement_reaches ho hp
  exact {
    topStatements_ends := manyUntil_ends (fun p hp => topItem_reaches ho hp) (fun p hp => hp) 0
    namespaceStatement_ends := manyUntil_ends hinner fun p hp => by simp [hp]
    statementsUntil_ends := fun kinds p => manyUntil_ends hinner (fun p hp => by simp [hp]) p
    braceArms_ends := braceArms_ends hinner ho
    colonArms_ends := colonArms_ends hinner ho
    importItems_ends := importItems_ends
    groupItems_ends := groupItems_ends
    directives_ends := directives_ends
    value_ends := fun close p hclose => follow_ends (valueStep_goes hclose) p
    afterModifiers_ends := afterModifiers_ends ho
    header_ends := header_ends ho
    statementEnd_ends := statementEnd_ends ho }

theorem nestingEnds : NestingEnds c where
  shape_later inner inner' p hinner heq hp := shape_later hinner heq ho hp (Nat.le_refl _)
  statement_eq depth p hp hdepth := by
    rw [statement_depth ho hp hdepth (show c.size ≤ p + (c.size + 2) by omega)]
    rfl

end Whole

/-- Whatever the tokens are, the parser comes to its end. No rule goes back, each statement and each namespace
takes a token, the loops and the nesting end, and there is at most one statement for each token that is not
trivia, besides the file itself. -/
theorem topStatements_terminates (tokens : List Token) (byteSize : Nat) :
    let c := Code.ofTokens tokens byteSize
    let inner := statement c (c.size + 1)
    GoesForward c inner ∧ LoopsEnd c inner ∧ NestingEnds c ∧
      (outline [] 0 ⟨.sourceFile, 0, tokens.length, none, (topStatements c).value⟩).length ≤
        (tokens.filter (!·.kind.isTrivia)).length + 1 := by
  intro c inner
  have ho : c.Ordered := Code.ordered_ofTokens tokens byteSize
  have hsize : c.size = (tokens.filter (!·.kind.isTrivia)).length := by
    have hswap (swap : Token × Nat → Nat × Token) (h : ∀ entry, (swap entry).2 = entry.1) :
        ((tokens.zipIdx.map swap).filter (!·.2.kind.isTrivia)).map (·.2) =
          tokens.filter (!·.kind.isTrivia) := by
      have hfilter : (fun item : Nat × Token => !item.2.kind.isTrivia) ∘ swap =
          (!·.kind.isTrivia) ∘ Prod.fst := funext fun entry =>
          congrArg (fun token : Token => !token.kind.isTrivia) (h entry)
      rw [List.filter_map, List.map_map, hfilter, show (·.2) ∘ swap = Prod.fst from funext h,
        ← List.filter_map, List.zipIdx_map_fst]
    have hitems : (Code.itemsOf tokens).map (·.2) = tokens.filter (!·.kind.isTrivia) :=
      hswap _ fun _ => rfl
    rw [← hitems, List.length_map]
    exact Code.size_ofTokens tokens byteSize
  refine ⟨goesForward ho, loopsEnd ho, nestingEnds ho, ?_⟩
  have hrow := outlineAll_length [] 0 ⟨.sourceFile, 0, tokens.length, none, (topStatements c).value⟩ [] 1 _
    (topStatements_inRow ho)
  rw [outline, List.length_cons, ← hsize]
  exact Nat.succ_le_succ hrow

end Parser
end NamespaceMigration
