import Mathlib.Data.List.Chain
import NamespaceMigration.Proofs.Brackets.Matching
import NamespaceMigration.Proofs.Lexing.Pieces

/-! Signatures and typed properties as they are written: the grammar of types, and what may stand around
them. The kinds in a type follow each other in few ways, and every part of a signature is balanced. -/
namespace NamespaceMigration

open BracketMatching (Balanced)

namespace Piece

/-- A word before a member or a promoted parameter. -/
def isModifier (p : Piece) : Bool :=
  match p.1 with
  | .kwReadonly | .kwStatic => true
  | .keyword => (["public", "protected", "private", "var"] : List Text).contains p.2.toLowerAscii
  | _ => false

/-- A type that is a word of the language. -/
def isTypeWord (p : Piece) : Bool :=
  p.1 == .keyword && (["array", "callable"] : List Text).contains p.2.toLowerAscii

/-- In a result type `static` is one, too. -/
def isResultWord (p : Piece) : Bool := p.isTypeWord || p.1 == .kwStatic

/-- Every opening bracket has its closing one. -/
def IsBalanced (ps : List Piece) : Prop := Balanced ((ps.map (·.1)).filter TokenKind.isBracket)

end Piece

open Piece (IsBalanced)

/-- Names with ampersands between them. -/
inductive IsIntersection : List Piece → Prop
  | one {n : Piece} (hn : n.1.isName) : IsIntersection [n]
  | more {n sign : Piece} {ps : List Piece} (hn : n.1.isName) (hsign : sign.1 = .ampersand)
      (hps : IsIntersection ps) : IsIntersection (n :: sign :: ps)

/-- One member of a union: a name, a word of the language, or an intersection in parentheses. -/
inductive IsMember (isWord : Piece → Bool) : List Piece → Prop
  | name {n : Piece} (hn : n.1.isName) : IsMember isWord [n]
  | word {w : Piece} (hw : isWord w) : IsMember isWord [w]
  | group {opening closing : Piece} {ps : List Piece} (hopening : opening.1 = .leftParen)
      (hps : IsIntersection ps) (hclosing : closing.1 = .rightParen) :
      IsMember isWord (opening :: (ps ++ [closing]))

/-- Members with bars between them. -/
inductive IsUnion (isWord : Piece → Bool) : List Piece → Prop
  | one {ps : List Piece} (hps : IsMember isWord ps) : IsUnion isWord ps
  | more {ps rest : List Piece} {sign : Piece} (hps : IsMember isWord ps) (hsign : sign.1 = .pipe)
      (hrest : IsUnion isWord rest) : IsUnion isWord (ps ++ sign :: rest)

/-- A type: one with a question mark, a union, or an intersection. -/
inductive IsType (isWord : Piece → Bool) : List Piece → Prop
  | nullable {mark p : Piece} (hmark : mark.1 = .question) (hp : p.1.isName ∨ isWord p) : IsType isWord [mark, p]
  | union {ps : List Piece} (hps : IsUnion isWord ps) : IsType isWord ps
  | intersection {ps : List Piece} (hps : IsIntersection ps) : IsType isWord ps

/-- Attributes and modifiers. -/
inductive IsLead : List Piece → Prop
  | nil : IsLead []
  | modifier {m : Piece} {ps : List Piece} (hm : m.isModifier) (hps : IsLead ps) : IsLead (m :: ps)
  | attributes {opening closing : Piece} {inside ps : List Piece} (hopening : opening.1 = .attributeOpen)
      (hinside : IsBalanced inside) (hclosing : closing.1 = .rightBracket) (hps : IsLead ps) :
      IsLead (opening :: (inside ++ closing :: ps))

structure Parameter where
  lead : List Piece
  /-- Without a type this is empty. -/
  type : List Piece
  reference? : Option Piece
  dots? : Option Piece
  target : Piece
  /-- The sign before the value, and the value. -/
  default? : Option (Piece × List Piece)
  isLead : IsLead lead
  isType : type = [] ∨ IsType Piece.isTypeWord type
  isReference : ∀ a ∈ reference?, a.1 = .ampersand
  isDots : ∀ d ∈ dots?, d.1 = .ellipsis
  isVariable : target.1 = .variable
  isDefault : ∀ d ∈ default?, d.1.1 = .equals ∧ IsBalanced d.2

namespace Parameter

/-- What stands before the variable and after the type. -/
def signs (p : Parameter) : List Piece := p.reference?.toList ++ p.dots?.toList

def pieces (p : Parameter) : List Piece :=
  p.lead ++ p.type ++ (p.signs ++ p.target :: p.default?.elim [] fun d => d.1 :: d.2)

def followed (ps : List Parameter) : List Piece := ps.flatMap fun p => p.pieces ++ [(.comma, [','])]

/-- Parameters with commas between them. -/
def separated : List Parameter → List Piece
  | [] => []
  | [p] => p.pieces
  | p :: ps => p.pieces ++ (.comma, [',']) :: separated ps

end Parameter

/-- The signature of a function, a method, a closure or an arrow function, with what comes after it. -/
structure Signature where
  /-- The word `function` or `fn`. -/
  keyword : Piece
  reference? : Option Piece
  name? : Option Piece
  parameters : List Parameter
  /-- A comma after the last parameter. -/
  lastComma? : Option Piece
  /-- The word `use` of a closure, and the variables in the parentheses after it. -/
  captured? : Option (Piece × List Piece)
  result? : Option (List Piece)
  /-- The brace, the end of the statement or the arrow after the signature. -/
  follower : Piece
  isKeyword : keyword.1 = .kwFunction ∨ keyword.1 = .kwFn ∧ name? = none
  isReference : ∀ a ∈ reference?, a.1 = .ampersand
  isLastComma : ∀ a ∈ lastComma?, a.1 = .comma
  isCaptured : ∀ c ∈ captured?, c.1.1 = .kwUse ∧ IsBalanced c.2
  isResult : ∀ ps ∈ result?, IsType Piece.isResultWord ps
  isFollower : follower.1 ∈ ([.leftBrace, .semicolon, .closeTag, .fatArrow] : List TokenKind)

namespace Signature

/-- The signature up to the parenthesis that opens the parameters. -/
def head (g : Signature) : List Piece :=
  g.keyword :: (g.reference?.toList ++ g.name?.toList ++ [(.leftParen, ['('])])

/-- What a closure captures. -/
def captured (g : Signature) : List Piece :=
  g.captured?.elim [] fun c => c.1 :: (.leftParen, ['(']) :: (c.2 ++ [(.rightParen, [')'])])

/-- The signature up to its result type. -/
def front (g : Signature) : List Piece :=
  g.head ++ Parameter.separated g.parameters ++ g.lastComma?.toList ++ (.rightParen, [')']) :: g.captured

def pieces (g : Signature) : List Piece :=
  g.front ++ (g.result?.elim [] fun type => (.colon, [':']) :: type) ++ [g.follower]

end Signature

/-- A property with a type, from the modifier right before the type on. -/
structure Property where
  modifier : Piece
  type : List Piece
  target : Piece
  isModifier : modifier.isModifier
  isType : IsType Piece.isTypeWord type
  isVariable : target.1 = .variable

def Property.pieces (p : Property) : List Piece := p.modifier :: (p.type ++ [p.target])

namespace TokenKind

/-- The kinds of signs in a type. -/
def isTypeSign : TokenKind → Bool
  | pipe | ampersand | question | leftParen | rightParen => true
  | _ => false

/-- How kinds follow each other in a type. -/
structure MayPrecede (kind next : TokenKind) : Prop where
  after : kind.isName → next = .pipe ∨ next = .ampersand ∨ next = .rightParen
  before : next.isName → kind = .question ∨ kind = .pipe ∨ kind = .ampersand ∨ kind = .leftParen
  group : next = .leftParen → kind = .pipe

/-- The kinds that a type may begin with. -/
def beginsType (kind : TokenKind) : Bool :=
  kind.isName || kind == .question || kind == .leftParen || kind == .keyword || kind == .kwStatic

/-- The kinds that a type may end with. -/
def endsType (kind : TokenKind) : Bool :=
  kind.isName || kind == .rightParen || kind == .keyword || kind == .kwStatic

end TokenKind

open TokenKind

/-- The kinds of a type, or of a part of one, in their order. -/
structure IsTypeRun (kinds : List TokenKind) : Prop where
  ne_nil : kinds ≠ []
  chain : kinds.IsChain MayPrecede
  head : ∀ kind ∈ kinds.head?, kind.beginsType
  last : ∀ kind ∈ kinds.getLast?, kind.endsType

namespace IsTypeRun

variable {kinds rest : List TokenKind} {kind sign : TokenKind}

theorem single (hkind : kind.isName ∨ kind = .keyword ∨ kind = .kwStatic) : IsTypeRun [kind] := by
  have hall : kind.beginsType ∧ kind.endsType := by
    rcases hkind with h | rfl | rfl
    · rw [beginsType, endsType, h]
      exact ⟨rfl, rfl⟩
    · exact ⟨rfl, rfl⟩
    · exact ⟨rfl, rfl⟩
  exact ⟨List.cons_ne_nil _ _, .singleton _, fun _ h => Option.some.inj h ▸ hall.1,
    fun _ h => Option.some.inj h ▸ hall.2⟩

theorem join (h : IsTypeRun kinds) (h' : IsTypeRun rest) (hsign : sign = .pipe ∨ sign = .ampersand)
    (hnext : ∀ kind ∈ rest.head?, sign.MayPrecede kind) : IsTypeRun (kinds ++ sign :: rest) := by
  obtain ⟨first, more, rfl⟩ := List.exists_cons_of_ne_nil h'.ne_nil
  refine ⟨List.append_ne_nil_of_left_ne_nil h.ne_nil _, List.isChain_append.mpr
    ⟨h.chain, List.isChain_cons_cons.mpr ⟨hnext first rfl, h'.chain⟩, ?_⟩, ?_, ?_⟩
  · intro last _ _ hsame
    obtain rfl := Option.some.inj hsame
    rcases hsign with rfl | rfl
    · exact ⟨fun _ => .inl rfl, nofun, nofun⟩
    · exact ⟨fun _ => .inr (.inl rfl), nofun, nofun⟩
  · rw [List.head?_append_of_ne_nil _ h.ne_nil]
    exact h.head
  · rw [List.getLast?_append_of_ne_nil _ (List.cons_ne_nil _ _), List.getLast?_cons_cons]
    exact h'.last

theorem group (h : IsTypeRun kinds) (hhead : ∀ kind ∈ kinds.head?, kind.isName)
    (hlast : ∀ kind ∈ kinds.getLast?, kind.isName) : IsTypeRun (.leftParen :: (kinds ++ [.rightParen])) := by
  obtain ⟨first, more, rfl⟩ := List.exists_cons_of_ne_nil h.ne_nil
  refine ⟨List.cons_ne_nil _ _, List.isChain_cons_cons.mpr ⟨⟨nofun, fun _ => .inr (.inr (.inr rfl)), fun heq => ?_⟩,
      List.isChain_append.mpr ⟨h.chain, .singleton _, ?_⟩⟩, fun _ hsame => Option.some.inj hsame ▸ rfl, ?_⟩
  · have hname := hhead first rfl
    rw [heq] at hname
    cases hname
  · intro last hmem _ hsame
    obtain rfl := Option.some.inj hsame
    exact ⟨fun _ => .inr (.inr rfl), nofun, nofun⟩
  · intro last hmem
    rw [← List.cons_append, List.getLast?_append_of_ne_nil _ (List.cons_ne_nil _ _)] at hmem
    obtain rfl := Option.some.inj hmem
    rfl

end IsTypeRun

section Grammar

variable {isWord : Piece → Bool} {ps : List Piece}

theorem IsIntersection.allowed (h : IsIntersection ps) : ∀ p ∈ ps, p.1.isName ∨ p.1 = .ampersand := by
  induction h with
  | one hn => exact List.forall_mem_singleton.mpr (.inl hn)
  | more hn hsign _ ih => exact List.forall_mem_cons.mpr ⟨.inl hn, List.forall_mem_cons.mpr ⟨.inr hsign, ih⟩⟩

theorem IsMember.allowed (h : IsMember isWord ps) : ∀ p ∈ ps, p.1.isName ∨ p.1.isTypeSign ∨ isWord p := by
  cases h with
  | name hn => exact List.forall_mem_singleton.mpr (.inl hn)
  | word hw => exact List.forall_mem_singleton.mpr (.inr (.inr hw))
  | group hopening hps hclosing =>
    refine List.forall_mem_cons.mpr ⟨.inr (.inl (by rw [hopening]; rfl)), List.forall_mem_append.mpr
      ⟨fun p hp => ?_, List.forall_mem_singleton.mpr (.inr (.inl (by rw [hclosing]; rfl)))⟩⟩
    exact (hps.allowed p hp).imp_right fun heq => .inl (by rw [heq]; rfl)

theorem IsType.allowed (h : IsType isWord ps) : ∀ p ∈ ps, p.1.isName ∨ p.1.isTypeSign ∨ isWord p := by
  cases h with
  | nullable hmark hp =>
    exact List.forall_mem_cons.mpr ⟨.inr (.inl (by rw [hmark]; rfl)),
      List.forall_mem_singleton.mpr (hp.imp_right .inr)⟩
  | intersection hps => exact fun p hp => (hps.allowed p hp).imp_right fun heq => .inl (by rw [heq]; rfl)
  | union hps =>
    induction hps with
    | one hps => exact hps.allowed
    | more hps hsign _ ih =>
      exact List.forall_mem_append.mpr ⟨hps.allowed,
        List.forall_mem_cons.mpr ⟨.inr (.inl (by rw [hsign]; rfl)), ih⟩⟩

theorem IsIntersection.run (h : IsIntersection ps) : IsTypeRun (ps.map Prod.fst) ∧
    (∀ kind ∈ (ps.map Prod.fst).head?, kind.isName) ∧
    ∀ kind ∈ (ps.map Prod.fst).getLast?, kind.isName := by
  induction h with
  | one hn =>
    exact ⟨.single (.inl hn), fun _ h => Option.some.inj h ▸ hn, fun _ h => Option.some.inj h ▸ hn⟩
  | @more n sign ps hn hsign _ ih =>
    obtain ⟨hrun, hhead, hlast⟩ := ih
    rw [List.map_cons, List.map_cons, hsign]
    refine ⟨(IsTypeRun.single (.inl hn)).join hrun (.inr rfl) fun kind hkind => ?_,
      fun _ h => Option.some.inj h ▸ hn, ?_⟩
    · have hname := hhead kind hkind
      exact ⟨nofun, fun _ => .inr (.inr (.inl rfl)), fun heq => by rw [heq] at hname; cases hname⟩
    · obtain ⟨first, more, heq⟩ := List.exists_cons_of_ne_nil hrun.ne_nil
      rw [heq] at hlast ⊢
      rw [List.getLast?_cons_cons, List.getLast?_cons_cons]
      exact hlast

/-- The words of a grammar are kinds of words. -/
def AreWords (isWord : Piece → Bool) : Prop := ∀ p, isWord p → p.1 = .keyword ∨ p.1 = .kwStatic

theorem areWords_isTypeWord : AreWords Piece.isTypeWord := by
  intro p hp
  rw [Piece.isTypeWord, Bool.and_eq_true, beq_iff_eq] at hp
  exact .inl hp.1

theorem areWords_isResultWord : AreWords Piece.isResultWord := by
  intro p hp
  rw [Piece.isResultWord, Bool.or_eq_true, beq_iff_eq] at hp
  exact hp.elim (areWords_isTypeWord p) .inr

variable (hwords : AreWords isWord)
include hwords

theorem IsMember.run (h : IsMember isWord ps) : IsTypeRun (ps.map Prod.fst) := by
  cases h with
  | name hn => exact .single (.inl hn)
  | word hw => exact .single (.inr (hwords _ hw))
  | @group opening closing ps hopening hps hclosing =>
    obtain ⟨hrun, hhead, hlast⟩ := hps.run
    rw [List.map_cons, List.map_append, List.map_singleton, hopening, hclosing]
    exact hrun.group hhead hlast

theorem IsUnion.run (h : IsUnion isWord ps) : IsTypeRun (ps.map Prod.fst) := by
  induction h with
  | one hps => exact hps.run hwords
  | @more ps rest sign hps hsign _ ih =>
    rw [List.map_append, List.map_cons, hsign]
    refine (hps.run hwords).join ih (.inl rfl) fun kind hkind => ?_
    exact ⟨nofun, fun _ => .inr (.inl rfl), fun _ => rfl⟩

theorem IsType.run (h : IsType isWord ps) : IsTypeRun (ps.map Prod.fst) := by
  cases h with
  | @nullable mark p hmark hp =>
    have hkind : p.1.isName ∨ p.1 = .keyword ∨ p.1 = .kwStatic := hp.imp_right (hwords p)
    have hrun := IsTypeRun.single hkind
    have hparen : p.1 ≠ .leftParen := by
      intro heq
      rw [heq] at hkind
      rcases hkind with h | h | h <;> cases h
    rw [List.map_cons, List.map_singleton, hmark]
    exact ⟨List.cons_ne_nil _ _,
      List.isChain_cons_cons.mpr ⟨⟨nofun, fun _ => .inl rfl, fun heq => absurd heq hparen⟩, .singleton _⟩,
      fun _ h => Option.some.inj h ▸ rfl, hrun.last⟩
  | union hps => exact hps.run hwords
  | intersection hps => exact hps.run.1

end Grammar

theorem BracketMatching.Balanced.append {xs ys : List TokenKind} (h : Balanced xs) (h' : Balanced ys) :
    Balanced (xs ++ ys) := by
  induction h with
  | nil => exact h'
  | group hcloses hinside _ _ ih =>
    rw [List.cons_append, List.append_assoc, List.cons_append]
    exact .group hcloses hinside ih

namespace Piece

variable {ps qs : List Piece}

theorem IsBalanced.append (h : IsBalanced ps) (h' : IsBalanced qs) : IsBalanced (ps ++ qs) := by
  rw [IsBalanced, List.map_append, List.filter_append]
  exact BracketMatching.Balanced.append h h'

theorem isBalanced_of_plain (h : ∀ p ∈ ps, p.1.isBracket = false) : IsBalanced ps := by
  have hnone : (ps.map (·.1)).filter TokenKind.isBracket = [] := by
    rw [List.filter_eq_nil_iff, List.forall_mem_map]
    exact fun p hp => by simp [h p hp]
  rw [IsBalanced, hnone]
  exact .nil

theorem isBalanced_single {p : Piece} (h : p.1.isBracket = false) : IsBalanced [p] :=
  isBalanced_of_plain (List.forall_mem_singleton.mpr h)

theorem isBalanced_group {opening closing : Piece} (hcloses : BracketMatching.closes opening.1 closing.1)
    (h : IsBalanced ps) (h' : IsBalanced qs) : IsBalanced (opening :: (ps ++ closing :: qs)) := by
  obtain ⟨hopening, hclosing⟩ := BracketMatching.brackets_of_closes hcloses
  rw [IsBalanced, List.map_cons, List.map_append, List.map_cons,
    List.filter_cons_of_pos (TokenKind.isBracket_of_opening hopening), List.filter_append,
    List.filter_cons_of_pos (TokenKind.isBracket_of_closing hclosing)]
  exact .group hcloses h h'

theorem isBracket_of_isModifier {p : Piece} (h : p.isModifier) : p.1.isBracket = false := by
  rw [isModifier] at h
  split at h
  · rename_i hkind
    rw [hkind]
    rfl
  · rename_i hkind
    rw [hkind]
    rfl
  · rename_i hkind
    rw [hkind]
    rfl
  · cases h

end Piece

open Piece (isBalanced_of_plain isBalanced_single isBalanced_group)

theorem TokenKind.isBracket_of_isName {kind : TokenKind} (h : kind.isName) : kind.isBracket = false := by
  cases kind <;> first | rfl | cases h

section Grammar

variable {isWord : Piece → Bool} {ps : List Piece}

theorem IsIntersection.isBalanced (h : IsIntersection ps) : IsBalanced ps := by
  refine isBalanced_of_plain fun p hp => ?_
  rcases h.allowed p hp with hname | heq
  · exact isBracket_of_isName hname
  · rw [heq]
    rfl

theorem isBalanced_word (hwords : AreWords isWord) {p : Piece} (hp : p.1.isName ∨ isWord p) : IsBalanced [p] := by
  refine isBalanced_single ?_
  rcases hp with hp | hp
  · exact isBracket_of_isName hp
  · rcases hwords p hp with heq | heq <;>
    · rw [heq]
      rfl

theorem IsMember.isBalanced (hwords : AreWords isWord) (h : IsMember isWord ps) : IsBalanced ps := by
  cases h with
  | name hn => exact isBalanced_word hwords (.inl hn)
  | word hw => exact isBalanced_word hwords (.inr hw)
  | group hopening hps hclosing =>
    refine isBalanced_group ?_ hps.isBalanced (isBalanced_of_plain (List.forall_mem_nil _))
    rw [hopening, hclosing]
    rfl

theorem IsType.isBalanced (hwords : AreWords isWord) (h : IsType isWord ps) : IsBalanced ps := by
  cases h with
  | nullable hmark hp =>
    exact (isBalanced_single (by rw [hmark]; rfl)).append (isBalanced_word hwords hp)
  | intersection hps => exact hps.isBalanced
  | union hps =>
    induction hps with
    | one hps => exact hps.isBalanced hwords
    | more hps hsign _ ih =>
      exact (hps.isBalanced hwords).append ((isBalanced_single (by rw [hsign]; rfl)).append ih)

theorem IsLead.isBalanced (h : IsLead ps) : IsBalanced ps := by
  induction h with
  | nil => exact isBalanced_of_plain (List.forall_mem_nil _)
  | modifier hm _ ih => exact (isBalanced_single (Piece.isBracket_of_isModifier hm)).append ih
  | attributes hopening hinside hclosing _ ih =>
    refine isBalanced_group ?_ hinside ih
    rw [hopening, hclosing]
    rfl

/-- A lead is empty, or ends with a modifier or the bracket of an attribute. -/
theorem IsLead.cases_last (h : IsLead ps) :
    ps = [] ∨ ∃ front last, ps = front ++ [last] ∧ (last.isModifier ∨ last.1 = .rightBracket) := by
  have hstep (front : List Piece) {rest : List Piece} {last : Piece}
      (hlast : last.isModifier ∨ last.1 = .rightBracket)
      (ih : rest = [] ∨ ∃ front last, rest = front ++ [last] ∧ (last.isModifier ∨ last.1 = .rightBracket)) :
      ∃ front' last', front ++ last :: rest = front' ++ [last'] ∧
        (last'.isModifier ∨ last'.1 = .rightBracket) := by
    rcases ih with rfl | ⟨front', last', rfl, hlast'⟩
    · exact ⟨front, last, rfl, hlast⟩
    · exact ⟨front ++ last :: front', last', by simp, hlast'⟩
  induction h with
  | nil => exact .inl rfl
  | modifier hm _ ih =>
    obtain ⟨front, last, heq, hlast⟩ := hstep [] (.inl hm) ih
    exact .inr ⟨front, last, heq, hlast⟩
  | @attributes opening closing inside ps _ _ hclosing _ ih =>
    obtain ⟨front, last, heq, hlast⟩ := hstep (opening :: inside) (.inr hclosing) ih
    exact .inr ⟨front, last, heq, hlast⟩

end Grammar

theorem Piece.isBalanced_option {o : Option Piece} {kind : TokenKind} (ho : ∀ a ∈ o, a.1 = kind)
    (hkind : kind.isBracket = false) : IsBalanced o.toList := by
  refine isBalanced_of_plain fun a ha => ?_
  rw [ho a (Option.mem_toList.mp ha)]
  exact hkind

namespace Parameter

theorem isBalanced (p : Parameter) : IsBalanced p.pieces := by
  have htype : IsBalanced p.type := by
    rcases p.isType with heq | htype
    · rw [heq]
      exact isBalanced_of_plain (List.forall_mem_nil _)
    · exact htype.isBalanced areWords_isTypeWord
  have hvalue : IsBalanced (p.default?.elim [] fun d => d.1 :: d.2) := by
    cases hdefault : p.default? with
    | none => exact isBalanced_of_plain (List.forall_mem_nil _)
    | some d =>
      obtain ⟨hsign, hvalue⟩ := p.isDefault d hdefault
      exact (isBalanced_single (by rw [hsign]; rfl)).append hvalue
  have hsigns : IsBalanced p.signs :=
    (Piece.isBalanced_option p.isReference rfl).append (Piece.isBalanced_option p.isDots rfl)
  exact (p.isLead.isBalanced.append htype).append
    (hsigns.append ((isBalanced_single (by rw [p.isVariable]; rfl)).append hvalue))

theorem followed_isBalanced (ps : List Parameter) : IsBalanced (followed ps) := by
  induction ps with
  | nil => exact isBalanced_of_plain (List.forall_mem_nil _)
  | cons p ps ih => exact (p.isBalanced.append (isBalanced_single rfl)).append ih

theorem separated_split (front : List Parameter) (p : Parameter) (back : List Parameter) :
    ∃ rest, separated (front ++ p :: back) = followed front ++ p.pieces ++ rest := by
  induction front with
  | nil =>
    cases back with
    | nil => exact ⟨[], (List.append_nil _).symm⟩
    | cons q qs => exact ⟨(.comma, [',']) :: separated (q :: qs), rfl⟩
  | cons q front ih =>
    obtain ⟨rest, hrest⟩ := ih
    refine ⟨rest, ?_⟩
    obtain ⟨first, more, hmore⟩ := List.exists_cons_of_ne_nil (l := front ++ p :: back) (by simp)
    rw [List.cons_append, hmore, separated, ← hmore, hrest, followed, followed, List.flatMap_cons]
    · simp
    · nofun

theorem separated_isBalanced (ps : List Parameter) : IsBalanced (separated ps) := by
  induction ps with
  | nil => exact isBalanced_of_plain (List.forall_mem_nil _)
  | cons p ps ih =>
    cases ps with
    | nil => exact p.isBalanced
    | cons q qs => exact p.isBalanced.append ((isBalanced_single rfl).append ih)

end Parameter

end NamespaceMigration
