import NamespaceMigration.Proofs.References.States
import NamespaceMigration.Proofs.Statements.ImportKinds

/-! Types among their neighbours. Around the names in a type stand signs that stand around no other names,
and the groups of the type are all that it opens, so the search for its ends goes over the whole of it. -/
namespace NamespaceMigration

open Piece (IsBalanced)
open BracketMatching (Completes completes_nil_iff completes_opening completes_closing)

namespace TokenKind

/-- The kinds right before a type. -/
def leadsType : TokenKind → Bool
  | leftParen | comma | rightBracket | keyword | kwReadonly | kwStatic | colon => true
  | _ => false

/-- The kinds right after a type. -/
def followsType : TokenKind → Bool
  | .variable | ellipsis | ampersand | leftBrace | semicolon | closeTag | fatArrow => true
  | _ => false

/-- The kinds right before the names in a type. -/
def precedesTypeName (kind : TokenKind) : Bool :=
  kind.leadsType || kind == .question || kind == .pipe || kind == .ampersand

/-- The kinds right after the names in a type. -/
def followsTypeName (kind : TokenKind) : Bool := kind.followsType || kind == .pipe || kind == .rightParen

end TokenKind

open TokenKind (leadsType followsType precedesTypeName followsTypeName)

/-- A type at a position of a window, with what stands around it. -/
structure Window.TypeAt (w : Window) (p : Nat) (type : List Piece) : Prop where
  reads : w.Reads p type
  run : IsTypeRun (type.map Prod.fst)
  balanced : IsBalanced type
  allowed : ∀ q ∈ type, q.1.isName ∨ q.1.isTypeSign ∨ q.1 = .keyword ∨ q.1 = .kwStatic
  lead : ∃ kind, w.back? p 1 = some kind ∧ kind.leadsType
  follower : ∃ kind, w.kind? (p + type.length) = some kind ∧ kind.followsType

namespace Window.TypeAt

variable {w : Window} (inImport : Nat → Bool) {p j : Nat} {type : List Piece} {piece : Piece}
  (h : w.TypeAt p type)
include h

theorem mayPrecede {next : Piece} (hpiece : type[j]? = some piece) (hnext : type[j + 1]? = some next) :
    piece.1.MayPrecede next.1 := by
  have hget {i : Nat} {q : Piece} (hq : type[i]? = some q) : (type.map Prod.fst)[i]? = some q.1 := by
    rw [List.getElem?_map, hq]
    rfl
  obtain ⟨hlt, hkind⟩ := List.getElem?_eq_some_iff.mp (hget hpiece)
  obtain ⟨hlt', hkind'⟩ := List.getElem?_eq_some_iff.mp (hget hnext)
  have hchain := List.isChain_iff_getElem.mp h.run.chain j hlt'
  rwa [hkind, hkind'] at hchain

theorem back_cases (hj : j < type.length) :
    (j = 0 ∧ ∃ kind, w.back? (p + j) 1 = some kind ∧ kind.leadsType) ∨
      ∃ i previous, j = i + 1 ∧ type[i]? = some previous ∧ w.back? (p + j) 1 = some previous.1 := by
  cases j with
  | zero => exact .inl ⟨rfl, h.lead⟩
  | succ i =>
    obtain ⟨previous, hprevious⟩ : ∃ previous, type[i]? = some previous :=
      ⟨_, List.getElem?_eq_getElem (Nat.lt_of_succ_lt hj)⟩
    exact .inr ⟨i, previous, rfl, hprevious, (h.reads i previous hprevious).1⟩

theorem after_cases (hpiece : type[j]? = some piece) (hname : piece.1.isName) :
    (∃ kind, w.kind? (p + j + 1) = some kind ∧ (kind = .pipe ∨ kind = .ampersand ∨ kind = .rightParen)) ∨
      p + j + 1 = p + type.length := by
  have hlt : j < type.length := (List.getElem?_eq_some_iff.mp hpiece).1
  rcases Nat.eq_or_lt_of_le (Nat.succ_le_of_lt hlt) with heq | hlt'
  · exact .inr (by omega)
  · obtain ⟨next, hnext⟩ : ∃ next, type[j + 1]? = some next := ⟨_, List.getElem?_eq_getElem hlt'⟩
    exact .inl ⟨next.1, (h.reads (j + 1) next hnext).1, (h.mayPrecede hpiece hnext).after hname⟩

theorem before_cases (hpiece : type[j]? = some piece) (hname : piece.1.isName) :
    (∃ kind, w.back? (p + j) 1 = some kind ∧
      (kind = .question ∨ kind = .pipe ∨ kind = .ampersand ∨ kind = .leftParen)) ∨ j = 0 := by
  rcases h.back_cases (List.getElem?_eq_some_iff.mp hpiece).1 with ⟨rfl, -⟩ | ⟨i, previous, rfl, hprevious, hback⟩
  · exact .inr rfl
  · exact .inl ⟨previous.1, hback, (h.mayPrecede hprevious hpiece).before hname⟩

theorem exists_before (hpiece : type[j]? = some piece) (hname : piece.1.isName) :
    ∃ kind, w.back? (p + j) 1 = some kind ∧ kind.precedesTypeName := by
  rcases h.before_cases hpiece hname with ⟨kind, hback, hkind⟩ | rfl
  · exact ⟨kind, hback, by rcases hkind with rfl | rfl | rfl | rfl <;> rfl⟩
  · obtain ⟨kind, hback, hkind⟩ := h.lead
    exact ⟨kind, hback, by rw [precedesTypeName, hkind]; rfl⟩

theorem exists_after (hpiece : type[j]? = some piece) (hname : piece.1.isName) :
    ∃ kind, w.kind? (p + j + 1) = some kind ∧ kind.followsTypeName := by
  rcases h.after_cases hpiece hname with ⟨kind, hkind, hsign⟩ | heq
  · exact ⟨kind, hkind, by rcases hsign with rfl | rfl | rfl <;> rfl⟩
  · obtain ⟨kind, hkind, hfollows⟩ := h.follower
    exact ⟨kind, heq ▸ hkind, by rw [followsTypeName, hfollows]; rfl⟩

/-- An ampersand in a type does not come after `function`. -/
theorem not_byReference (hpiece : type[j]? = some piece) :
    ¬(w.back? (p + j) 1 = some .ampersand ∧ w.back? (p + j) 2 = some .kwFunction) := by
  rintro ⟨hback, hfunction⟩
  rcases h.back_cases (List.getElem?_eq_some_iff.mp hpiece).1 with
    ⟨rfl, kind, hlead, hkind⟩ | ⟨i, sign, rfl, hsign, hback'⟩
  · rw [← Option.some.inj (hback.symm.trans hlead)] at hkind
    cases hkind
  · have hkind : sign.1 = .ampersand := Option.some.inj (hback'.symm.trans hback)
    cases i with
    | zero =>
      -- No type begins with an ampersand.
      have hhead := h.run.head sign.1 (by rw [List.head?_eq_getElem?, List.getElem?_map, hsign]; rfl)
      rw [hkind] at hhead
      cases hhead
    | succ i =>
      obtain ⟨previous, hprevious⟩ : ∃ previous, type[i]? = some previous :=
        ⟨_, List.getElem?_eq_getElem (Nat.lt_of_succ_lt (List.getElem?_eq_some_iff.mp hsign).1)⟩
      have hkind' : previous.1 = .kwFunction := by
        have hread : w.kind? (p + i) = some previous.1 := (h.reads i previous hprevious).1
        have hback₂ : w.back? (p + (i + 1 + 1)) 2 = w.kind? (p + i) := rfl
        exact Option.some.inj (hread.symm.trans (hback₂.symm.trans hfunction))
      rcases h.allowed previous (List.mem_of_getElem? hprevious) with hno | hno | hno | hno <;>
      · rw [hkind'] at hno
        cases hno

theorem exists_other (hpiece : type[j]? = some piece) (hname : piece.1.isName)
    (hside : (∃ kind, w.back? p 1 = some kind ∧ kind.isOfImport = false) ∨
      ∃ kind, w.kind? (p + type.length) = some kind ∧ kind.isOfImport = false) :
    (∃ kind, w.back? (p + j) 1 = some kind ∧ kind.isOfImport = false) ∨
      ∃ kind, w.kind? (p + j + 1) = some kind ∧ kind.isOfImport = false := by
  rcases h.before_cases hpiece hname with ⟨kind, hback, hkind⟩ | rfl
  · exact .inl ⟨kind, hback, by rcases hkind with rfl | rfl | rfl | rfl <;> rfl⟩
  · rcases h.after_cases hpiece hname with ⟨kind, hkind, hsign⟩ | heq
    · exact .inr ⟨kind, hkind, by rcases hsign with rfl | rfl | rfl <;> rfl⟩
    · rw [heq]
      exact hside

omit h in
theorem parenRole_group {kind : TokenKind} (hback : w.back? p 1 = some kind) (hkind : kind.leadsType ∨ kind = .pipe)
    (s : ScanState) : w.parenRole s p = .group := by
  rw [parenRole, opensParameters, hback]
  cases kind <;> first | (rcases hkind with hkind | hkind <;> cases hkind; done) | simp

/-- What a type opens are groups. -/
theorem opens_group (hpiece : type[j]? = some piece) (hopening : piece.1.isOpeningBracket) :
    (w.stateAt inImport (p + j + 1)).stack = .group :: (w.stateAt inImport (p + j)).stack := by
  have hparen : piece.1 = .leftParen := by
    rcases h.allowed piece (List.mem_of_getElem? hpiece) with hkind | hkind | hkind | hkind
    · rw [isName_of_bracket (TokenKind.isBracket_of_opening hopening)] at hkind
      cases hkind
    · revert hkind hopening
      cases piece.1 <;> simp [TokenKind.isOpeningBracket, TokenKind.isTypeSign]
    · rw [hkind] at hopening
      cases hopening
    · rw [hkind] at hopening
      cases hopening
  have hkind := (h.reads j piece hpiece).1
  rw [hparen] at hkind
  obtain ⟨imported, hnext⟩ := stateAt_succ inImport hkind rfl
  have hrole (s : ScanState) : w.parenRole s (p + j) = .group := by
    rcases h.back_cases (List.getElem?_eq_some_iff.mp hpiece).1 with
      ⟨-, kind, hback, hkind⟩ | ⟨i, previous, rfl, hprevious, hback⟩
    · exact parenRole_group hback (.inl hkind) s
    · exact parenRole_group hback (.inr ((h.mayPrecede hprevious hpiece).group hparen)) s
  rw [hnext]
  exact congrArg (· :: _) (hrole _)

theorem stack_groups (hj : j ≤ type.length) : ∃ groups, (∀ role ∈ groups, role = .group) ∧
    (w.stateAt inImport (p + j)).stack = groups ++ (w.stateAt inImport p).stack := by
  obtain ⟨groups, hgroups, -, hstack⟩ := stack_inside (P := (· = .group)) inImport [] rfl h.reads rfl
    (List.forall_mem_nil _) (fun _ _ hpiece hopening => ⟨_, rfl, h.opens_group inImport hpiece hopening⟩)
    (show Completes [] _ from h.balanced) hj
  exact ⟨groups, hgroups, hstack⟩

theorem find?_stack (hj : j ≤ type.length) : (w.stateAt inImport (p + j)).stack.find? (· ≠ .group) =
    (w.stateAt inImport p).stack.find? (· ≠ .group) := by
  obtain ⟨groups, hgroups, hstack⟩ := h.stack_groups inImport hj
  rw [hstack, List.find?_append, List.find?_eq_none.mpr (by simpa using hgroups), Option.none_or]

theorem head?_stack (hj : j ≤ type.length) : (w.stateAt inImport (p + j)).stack.head? = some .group ∨
    (w.stateAt inImport (p + j)).stack.head? = (w.stateAt inImport p).stack.head? := by
  obtain ⟨groups, hgroups, hstack⟩ := h.stack_groups inImport hj
  rw [hstack]
  cases groups with
  | nil => exact .inr rfl
  | cons role groups => exact .inl (congrArg some (List.forall_mem_cons.mp hgroups).1)

end Window.TypeAt

namespace Window

/-- The search for the end of a type goes over all of these. -/
def Passed (kinds : List TokenKind) : Prop := ∀ depth rest,
  typeLength? depth (kinds ++ rest) = (typeLength? depth rest).map (· + kinds.length)

theorem passed_single {kind : TokenKind}
    (h : kind.isName ∨ kind = .pipe ∨ kind = .ampersand ∨ kind = .question) : Passed [kind] := by
  intro depth rest
  cases kind <;> first | rfl | (rcases h with h | h | h | h <;> cases h)

theorem Passed.append {kinds kinds' : List TokenKind} (h : Passed kinds) (h' : Passed kinds') :
    Passed (kinds ++ kinds') := by
  intro depth rest
  rw [List.append_assoc, h, h', Option.map_map, List.length_append]
  congr 1
  funext n
  exact (Nat.add_assoc ..).trans (congrArg (n + ·) (Nat.add_comm ..))

theorem Passed.group {kinds : List TokenKind} (h : Passed kinds) :
    Passed (.leftParen :: (kinds ++ [.rightParen])) := by
  intro depth rest
  rw [List.cons_append, List.append_assoc, typeLength?, h, List.singleton_append, typeLength?, if_neg (by omega),
    Nat.add_sub_cancel, Option.map_map, Option.map_map, List.length_cons, List.length_append]
  congr 1
  funext n
  simp only [Function.comp_apply, List.length_singleton]
  omega

end Window

section Grammar

open Window (Passed passed_single)

variable {isWord : Piece → Bool} {ps : List Piece}

theorem IsIntersection.passed (h : IsIntersection ps) : Passed (ps.map Prod.fst) := by
  induction h with
  | one hn => exact passed_single (.inl hn)
  | @more n sign ps hn hsign _ ih =>
    exact (passed_single (.inl hn)).append ((passed_single (.inr (.inr (.inl hsign)))).append ih)

theorem IsMember.passed (h : IsMember isWord ps) (hnone : ∀ p ∈ ps, ¬isWord p) : Passed (ps.map Prod.fst) := by
  cases h with
  | name hn => exact passed_single (.inl hn)
  | word hw => exact absurd hw (hnone _ List.mem_cons_self)
  | @group opening closing ps hopening hps hclosing =>
    rw [List.map_cons, List.map_append, List.map_singleton, hopening, hclosing]
    exact hps.passed.group

theorem IsType.passed (h : IsType isWord ps) (hnone : ∀ p ∈ ps, ¬isWord p) : Passed (ps.map Prod.fst) := by
  cases h with
  | @nullable mark p hmark hp =>
    have hname : p.1.isName := hp.resolve_right (hnone p (by simp))
    exact (passed_single (.inr (.inr (.inr hmark)))).append (passed_single (.inl hname))
  | intersection hps => exact hps.passed
  | union hps =>
    induction hps with
    | one hps => exact hps.passed hnone
    | @more ps rest sign hps hsign _ ih =>
      rw [List.forall_mem_append, List.forall_mem_cons] at hnone
      rw [List.map_append, List.map_cons]
      exact (hps.passed hnone.1).append ((passed_single (.inr (.inl hsign))).append (ih hnone.2.2))

end Grammar

namespace Window

variable {w : Window} {inParameters : Bool} {p j : Nat} {type ps : List Piece}
  {piece : Piece}

theorem reads_kinds (h : w.Reads p ps) : ∃ rest, (w.toList.drop p).map (·.2.kind) = ps.map (·.1) ++ rest := by
  obtain ⟨rest, hrest⟩ : ps.map (·.1) <+: (w.toList.drop p).map (·.2.kind) := by
    refine List.prefix_iff_getElem?.mpr fun i hi => ?_
    rw [List.length_map] at hi
    have hkind := (h i ps[i] (List.getElem?_eq_getElem hi)).1
    rw [List.getElem?_map, List.getElem?_drop, Array.getElem?_toList, List.getElem_map]
    exact hkind
  exact ⟨rest, hrest.symm⟩

/-- Where a type may begin, and the search for its beginning ends. -/
structure BeginsType (w : Window) (inParameters : Bool) (p : Nat) : Prop where
  lead : ∃ kind, w.back? p 1 = some kind ∧ kind.leadsType
  boundary : w.isTypeBoundary inParameters (p - 1)
  edge : w.typeReaches inParameters p = false

theorem beginsType_of_isModifier (hreads : w.Reads p [piece]) (hmodifier : piece.isModifier) :
    w.BeginsType inParameters (p + 1) := by
  obtain ⟨⟨hkind, htext⟩, -⟩ := reads_cons.mp hreads
  have hback : w.back? (p + 1) 1 = some piece.1 := hkind
  rw [Piece.isModifier] at hmodifier
  refine ⟨⟨piece.1, hback, ?_⟩, ?_, ?_⟩
  · split at hmodifier <;> first | (rename_i heq; rw [heq]; rfl) | cases hmodifier
  · rw [Nat.add_sub_cancel, isTypeBoundary, isVisibility, hkind, htext]
    split at hmodifier
    · rename_i heq
      rw [heq]
    · rename_i heq
      rw [heq]
    · rename_i heq
      rw [heq]
      exact hmodifier
    · cases hmodifier
  · rw [typeReaches, hback]
    split at hmodifier <;> first | (rename_i heq; rw [heq]; rfl) | cases hmodifier

theorem beginsType_of_separator {kind : TokenKind} (hkind : w.kind? p = some kind)
    (hseparator : kind = .comma ∨ kind = .rightBracket) : w.BeginsType true (p + 1) := by
  have hback : w.back? (p + 1) 1 = some kind := hkind
  refine ⟨⟨kind, hback, ?_⟩, ?_, ?_⟩
  · rcases hseparator with rfl | rfl <;> rfl
  · rw [Nat.add_sub_cancel, isTypeBoundary, hkind]
    rcases hseparator with rfl | rfl <;> rfl
  · rw [typeReaches, hback]
    rcases hseparator with rfl | rfl <;> rfl

theorem beginsType_of_leftParen {kind : TokenKind} (hword : w.kind? p = some kind)
    (hkind : kind = .kwFunction ∨ kind = .kwFn ∨ kind = .ident) (hparen : w.kind? (p + 1) = some .leftParen) :
    w.BeginsType true (p + 2) := by
  have hback : w.back? (p + 2) 1 = some .leftParen := hparen
  have hsecond : w.back? (p + 2) 2 = some kind := hword
  refine ⟨⟨.leftParen, hback, rfl⟩, ?_, ?_⟩
  · rw [show p + 2 - 1 = p + 1 by omega, isTypeBoundary, hparen]
  · rw [typeReaches, hback, hsecond, Nat.add_sub_cancel, isTypeBoundary, isVisibility, hword]
    rcases hkind with rfl | rfl | rfl <;> simp

/-- A type without words, from where one may begin to the variable of a parameter or a property. -/
structure VariableTypeAt (w : Window) (inParameters : Bool) (p : Nat) (type : List Piece) : Prop
    extends w.TypeAt p type where
  begins : w.BeginsType inParameters p
  plain : ∀ q ∈ type, q.1.isName ∨ q.1.isTypeSign
  passed : Passed (type.map Prod.fst)
  /-- The sign of a reference, before the dots or the variable. -/
  ends : ∃ (reference? : Option Piece) (last : Piece), (∀ a ∈ reference?, a.1 = .ampersand) ∧
    (last.1 = .variable ∨ last.1 = .ellipsis) ∧ w.Reads (p + type.length) (reference?.toList ++ [last])

theorem variableTypeAt (hbegins : w.BeginsType inParameters p) (htype : IsType Piece.isTypeWord type)
    (hwords : ∀ q ∈ type, q.1 ≠ .keyword) (hreads : w.Reads p type)
    (hends : ∃ (reference? : Option Piece) (last : Piece), (∀ a ∈ reference?, a.1 = .ampersand) ∧
      (last.1 = .variable ∨ last.1 = .ellipsis) ∧ w.Reads (p + type.length) (reference?.toList ++ [last])) :
    w.VariableTypeAt inParameters p type := by
  have hnone : ∀ q ∈ type, ¬Piece.isTypeWord q := fun q hq hword =>
    (areWords_isTypeWord q hword).elim (hwords q hq) fun hstatic => by
      rw [Piece.isTypeWord, hstatic] at hword
      cases hword
  have hplain : ∀ q ∈ type, q.1.isName ∨ q.1.isTypeSign := fun q hq =>
    (htype.allowed q hq).imp_right (Or.resolve_right · (hnone q hq))
  refine ⟨⟨hreads, htype.run areWords_isTypeWord, htype.isBalanced areWords_isTypeWord,
    fun q hq => (hplain q hq).imp_right .inl, hbegins.lead, ?_⟩, hbegins, hplain, htype.passed hnone, hends⟩
  obtain ⟨reference?, last, hreference, hlast, hends⟩ := hends
  cases reference? with
  | none => exact ⟨_, hends.kind?, by rcases hlast with heq | heq <;> rw [heq] <;> rfl⟩
  | some a => exact ⟨_, hends.kind?, by rw [hreference a rfl]; rfl⟩

namespace VariableTypeAt

variable (h : w.VariableTypeAt inParameters p type)
include h

theorem pos : 0 < p := by
  obtain ⟨kind, hback, -⟩ := h.lead
  by_contra hp
  obtain rfl : p = 0 := by omega
  cases hback

/-- Over a type the search for its beginning goes on. -/
theorem typeReaches_inside (hj : j < type.length) : w.typeReaches inParameters (p + j + 1) := by
  obtain ⟨piece, hpiece⟩ : ∃ piece, type[j]? = some piece := ⟨_, List.getElem?_eq_getElem hj⟩
  have hback : w.back? (p + j + 1) 1 = some piece.1 := (h.reads j piece hpiece).1
  have hpos := h.pos
  rw [typeReaches, hback]
  by_cases hparen : piece.1 = .leftParen
  · rw [hparen]
    have hsecond : w.back? (p + j + 1) 2 = w.back? (p + j) 1 := w.back?_succ (p + j) 1
    have hle : decide (2 ≤ p + j + 1) = true := decide_eq_true (by omega)
    dsimp only
    rw [hsecond, hle, Bool.true_and]
    rcases h.back_cases hj with ⟨rfl, -⟩ | ⟨i, previous, rfl, hprevious, hback'⟩
    · have hboundary := h.begins.boundary
      rw [show p + 0 + 1 - 2 = p - 1 by omega, hboundary, Bool.or_true]
    · rw [hback', (h.mayPrecede hprevious hpiece).group hparen]
      rfl
  · have hplain := h.plain piece (List.mem_of_getElem? hpiece)
    revert hparen hplain
    cases piece.1 <;> simp [TokenKind.isName, TokenKind.isTypeSign]

theorem typeStart_inside (hj : j ≤ type.length) : w.typeStart inParameters (p + j) = p := by
  induction j with
  | zero =>
    obtain ⟨q, rfl⟩ := Nat.exists_eq_add_one_of_ne_zero (Nat.ne_of_gt h.pos)
    rw [Nat.add_zero, typeStart, h.begins.edge]
    rfl
  | succ j ih =>
    rw [← Nat.add_assoc, typeStart, if_pos (h.typeReaches_inside hj)]
    exact ih (Nat.le_of_succ_le hj)

theorem endsType_last : endsType (w.back? (p + type.length) 1) := by
  have hne : type ≠ [] := by simpa using h.run.ne_nil
  obtain ⟨front, last, rfl⟩ : ∃ front last, type = front ++ [last] :=
    ⟨_, _, (List.dropLast_append_getLast hne).symm⟩
  have hkind : last.1.endsType := by
    refine h.run.last last.1 ?_
    rw [List.map_append, List.map_singleton, List.getLast?_append, List.getLast?_singleton]
    rfl
  have hback : w.back? (p + (front ++ [last]).length) 1 = some last.1 := by
    rw [List.length_append, List.length_singleton, ← Nat.add_assoc]
    exact h.reads.back?
  have hplain := h.plain last (by simp)
  rw [hback]
  revert hkind hplain
  cases last.1 <;> simp [TokenKind.endsType, endsType, TokenKind.isName, TokenKind.isTypeSign]

theorem inTypeRun (stack : List BracketRole)
    (hstack : (stack.find? (· ≠ .group) == some .parameters) = inParameters) (hj : j ≤ type.length) :
    w.inTypeRun stack (p + j) := by
  obtain ⟨reference?, last, hreference, hlast, hreads⟩ := h.ends
  obtain ⟨rest, hrest⟩ := reads_kinds (reads_append.mpr ⟨h.reads, hreads⟩)
  have hlast' (rest : List TokenKind) : typeLength? 0 (last.1 :: rest) = some 0 := by
    rcases hlast with heq | heq <;>
    · rw [heq]
      rfl
  have hpos := h.pos
  have hne : type.length ≠ 0 := by
    rw [Ne, List.length_eq_zero_iff]
    simpa using h.run.ne_nil
  rw [Window.inTypeRun, hstack]
  dsimp only
  rw [h.typeStart_inside hj, if_neg (by rw [h.begins.boundary]; simp; omega), hrest, List.map_append, List.append_assoc, h.passed]
  cases reference? with
  | none =>
    obtain ⟨n, hn⟩ := Nat.exists_eq_add_one_of_ne_zero hne
    rw [Option.toList_none, List.nil_append, List.map_singleton, List.singleton_append, hlast', Option.map_some,
      Nat.zero_add, List.length_map, hn]
    change (endsType (w.back? (p + (n + 1)) 1) || _) = true
    rw [← hn, h.endsType_last, Bool.true_or]
  | some a =>
    have hback : w.back? (p + type.length + 1) 1 = some .ampersand := by
      rw [← hreference a rfl]
      exact hreads.kind?
    have hsecond : w.back? (p + type.length + 1) 2 = w.back? (p + type.length) 1 := w.back?_succ _ 1
    rw [Option.toList_some, List.map_append, List.map_singleton, hreference a rfl, List.append_assoc,
      List.singleton_append, typeLength?, List.map_singleton, List.singleton_append, hlast', Option.map_some,
      Option.map_some, List.length_map, Nat.zero_add, Nat.add_comm 1]
    change (endsType (w.back? (p + type.length + 1) 1) || (w.back? (p + type.length + 1) 1 == some .ampersand &&
      endsType (w.back? (p + type.length + 1) 2))) = true
    rw [hback, hsecond, h.endsType_last]
    rfl

end VariableTypeAt
end Window
end NamespaceMigration
