import NamespaceMigration.Proofs.References.TypeNames

/-! The types of signatures and properties. The parentheses of a signature are remembered as those of its
parameters, so the scan finds the types of the parameters, and after them the type of the result. -/
namespace NamespaceMigration

open Piece (IsBalanced isBalanced_of_plain isBalanced_single)

variable {w : Window} (inImport : Nat → Bool) {p : Nat}

namespace Signature

variable {g : Signature}

def words (g : Signature) : List Piece := g.keyword :: (g.reference?.toList ++ g.name?.toList)

theorem head_eq (g : Signature) : g.head = g.words ++ [(.leftParen, ['('])] := rfl

variable (hname : ∀ n ∈ g.name?, n.1 = .ident)
include hname

theorem mem_words {q : Piece} (hq : q ∈ g.words) :
    q = g.keyword ∨ q.1 = .ampersand ∨ q.1 = .ident := by
  rcases List.mem_cons.mp hq with rfl | hq
  · exact .inl rfl
  · rcases List.mem_append.mp hq with hq | hq
    · exact .inr (.inl (g.isReference q (Option.mem_toList.mp hq)))
    · exact .inr (.inr (hname q (Option.mem_toList.mp hq)))

theorem opensParameters_words (hreads : w.Reads p g.words) : w.opensParameters (p + g.words.length) := by
  have hkeyword : g.keyword.1 = .kwFunction ∨ g.keyword.1 = .kwFn ∧ g.name? = none := g.isKeyword
  have hreference := g.isReference
  rw [words] at hreads ⊢
  cases hr : g.reference? with
  | none =>
    cases hn : g.name? with
    | none =>
      rw [hr, hn] at hreads
      have hback : w.back? (p + 1) 1 = some g.keyword.1 := hreads.kind?
      change w.opensParameters (p + 1)
      rw [Window.opensParameters, hback]
      rcases hkeyword with heq | ⟨heq, -⟩ <;> rw [heq]
    | some n =>
      rw [hr, hn] at hreads
      rw [hn] at hkeyword hname
      have hback : w.back? (p + 2) 1 = some n.1 := (Window.reads_cons.mp hreads).2.kind?
      have hsecond : w.back? (p + 2) 2 = some g.keyword.1 := hreads.kind?
      change w.opensParameters (p + 2)
      rw [Window.opensParameters, hback, hsecond, hname n rfl, hkeyword.resolve_right (fun h => by cases h.2)]
      rfl
  | some a =>
    rw [hr] at hreference
    cases hn : g.name? with
    | none =>
      rw [hr, hn] at hreads
      have hback : w.back? (p + 2) 1 = some a.1 := (Window.reads_cons.mp hreads).2.kind?
      have hsecond : w.back? (p + 2) 2 = some g.keyword.1 := hreads.kind?
      change w.opensParameters (p + 2)
      rw [Window.opensParameters, hback, hsecond, hreference a rfl]
      rcases hkeyword with heq | ⟨heq, -⟩ <;>
      · rw [heq]
        rfl
    | some n =>
      rw [hr, hn] at hreads
      rw [hn] at hkeyword hname
      have hrest := (Window.reads_cons.mp hreads).2
      have hback : w.back? (p + 3) 1 = some n.1 := (Window.reads_cons.mp hrest).2.kind?
      have hsecond : w.back? (p + 3) 2 = some a.1 := hrest.kind?
      have hthird : w.back? (p + 3) 3 = some g.keyword.1 := hreads.kind?
      change w.opensParameters (p + 3)
      rw [Window.opensParameters, hback, hsecond, hthird, hname n rfl, hreference a rfl,
        hkeyword.resolve_right (fun h => by cases h.2)]
      rfl

/-- The parenthesis after the words of a signature opens its parameters. -/
theorem stack_head (hreads : w.Reads p g.head) : (w.stateAt inImport (p + g.head.length)).stack =
    .parameters :: (w.stateAt inImport p).stack := by
  rw [head_eq, Window.reads_append] at hreads
  obtain ⟨hwords, hparen⟩ := hreads
  have hplain : ∀ q ∈ g.words, q.1.isBracket = false := by
    intro q hq
    rcases g.mem_words hname hq with rfl | heq | heq
    · rcases g.isKeyword with heq | ⟨heq, -⟩ <;> rw [heq] <;> rfl
    · rw [heq]
      rfl
    · rw [heq]
      rfl
  have hresult : (w.stateAt inImport (p + g.words.length)).resultType = false := by
    obtain ⟨⟨hkind, -⟩, hrest⟩ := Window.reads_cons.mp hwords
    have hstart : (w.stateAt inImport (p + 1)).resultType = false := by
      rcases g.isKeyword with heq | ⟨heq, -⟩ <;>
      · rw [heq] at hkind
        exact Window.resultType_ended _ hkind nofun rfl
    have hrun := Window.resultType_run inImport hrest fun q hq => by
      rcases List.mem_append.mp hq with hq | hq
      · rw [g.isReference q (Option.mem_toList.mp hq)]
        exact ⟨nofun, rfl⟩
      · rw [hname q (Option.mem_toList.mp hq)]
        exact ⟨nofun, rfl⟩
    rw [words, List.length_cons, Nat.add_comm _ 1, ← Nat.add_assoc, hrun, hstart]
  have hstack := Window.stack_balanced inImport hwords (isBalanced_of_plain hplain)
  rw [head_eq, List.length_append, List.length_singleton, ← Nat.add_assoc,
    Window.stack_parameters _ hparen.kind? (g.opensParameters_words hname hwords) hresult, hstack]

/-- Where the last parenthesis of a signature stands, that of its parameters or of what it captures is open. -/
theorem exists_closing (hreads : w.Reads p g.front) : ∃ inside, g.front = inside ++ [(.rightParen, [')'])] ∧
    (w.stateAt inImport (p + inside.length)).stack.head? = some .parameters := by
  have hlast : IsBalanced g.lastComma?.toList := Piece.isBalanced_option g.isLastComma rfl
  rw [front, List.append_assoc, List.append_assoc, Window.reads_append] at hreads
  obtain ⟨hhead, hreads⟩ := hreads
  rw [← List.append_assoc, Window.reads_append] at hreads
  obtain ⟨hinside, hreads⟩ := hreads
  have hstack := Window.stack_balanced inImport hinside
    ((Parameter.separated_isBalanced g.parameters).append hlast)
  rw [g.stack_head _ hname hhead] at hstack
  cases hcaptured : g.captured? with
  | none =>
    refine ⟨g.head ++ (Parameter.separated g.parameters ++ g.lastComma?.toList), ?_, ?_⟩
    · rw [front, captured, hcaptured, Option.elim_none, List.append_assoc g.head]
    · rw [List.length_append, ← Nat.add_assoc, hstack]
      rfl
  | some c =>
    obtain ⟨huse, hbalanced⟩ := g.isCaptured c hcaptured
    rw [captured, hcaptured, Option.elim_some, Window.reads_cons, Window.reads_cons, Window.reads_cons] at hreads
    obtain ⟨-, ⟨hkind, -⟩, ⟨hparen, -⟩, hvariables⟩ := hreads
    refine ⟨g.head ++ (Parameter.separated g.parameters ++ g.lastComma?.toList) ++
      ((.rightParen, [')']) :: c.1 :: (.leftParen, ['(']) :: c.2), ?_, ?_⟩
    · rw [front, captured, hcaptured, Option.elim_some]
      simp
    · have hlength : p + (g.head ++ (Parameter.separated g.parameters ++ g.lastComma?.toList) ++
          ((.rightParen, [')']) :: c.1 :: (.leftParen, ['(']) :: c.2)).length =
          p + g.head.length + (Parameter.separated g.parameters ++ g.lastComma?.toList).length + 1 + 1 + 1 +
            c.2.length := by
        simp only [List.length_append, List.length_cons]
        omega
      rw [hlength, Window.stack_balanced _ (Window.reads_append.mp hvariables).1 hbalanced]
      rw [huse] at hkind
      rw [Window.stack_parameters _ hparen ?_ (Window.resultType_ended _ hkind nofun rfl)]
      · rfl
      · have hback : w.back? (p + g.head.length +
            (Parameter.separated g.parameters ++ g.lastComma?.toList).length + 1 + 1) 1 = some .kwUse := hkind
        rw [Window.opensParameters, hback]

end Signature

namespace Parameter

/-- The type of a parameter, if one may begin where the parameter does, is one before a variable. -/
theorem variableTypeAt {q : Parameter} (hreads : w.Reads p q.pieces) (htype : q.type ≠ [])
    (hwords : ∀ x ∈ q.type, x.1 ≠ .keyword) (hbegins : q.lead = [] → w.BeginsType true p) :
    w.VariableTypeAt true (p + q.lead.length) q.type := by
  rw [pieces, List.append_assoc, Window.reads_append, Window.reads_append] at hreads
  obtain ⟨hlead, hreads, htail⟩ := hreads
  refine Window.variableTypeAt ?_ (q.isType.resolve_left htype) hwords hreads ?_
  · rcases q.isLead.cases_last with hnil | ⟨front, last, heq, hlast⟩
    · rw [hnil]
      exact hbegins hnil
    · rw [heq] at hlead ⊢
      have hlast' := (Window.reads_append.mp hlead).2
      rw [List.length_append, List.length_singleton, ← Nat.add_assoc]
      rcases hlast with hmodifier | hbracket
      · exact Window.beginsType_of_isModifier hlast' hmodifier
      · exact Window.beginsType_of_separator hlast'.kind? (.inr hbracket)
  · have htarget := q.isVariable
    have hdots := q.isDots
    rw [signs] at htail
    cases hd : q.dots? with
    | none =>
      rw [hd, Option.toList_none, List.append_nil] at htail
      refine ⟨q.reference?, q.target, q.isReference, .inl htarget, ?_⟩
      rw [← List.singleton_append, ← List.append_assoc] at htail
      exact (Window.reads_append.mp htail).1
    | some d =>
      rw [hd, Option.toList_some] at htail
      exact ⟨q.reference?, d, q.isReference, .inr (hdots d hd), (Window.reads_append.mp htail).1⟩

end Parameter

theorem Property.variableTypeAt {q : Property} (inParameters : Bool) (hreads : w.Reads p q.pieces)
    (hwords : ∀ x ∈ q.type, x.1 ≠ .keyword) : w.VariableTypeAt inParameters (p + 1) q.type := by
  rw [pieces, ← List.singleton_append, Window.reads_append, Window.reads_append] at hreads
  obtain ⟨hmodifier, hreads, htarget⟩ := hreads
  exact Window.variableTypeAt (Window.beginsType_of_isModifier hmodifier q.isModifier) q.isType hwords hreads
    ⟨none, q.target, nofun, .inl q.isVariable, htarget⟩

namespace Signature

variable {g : Signature}

/-- A type may begin right where the parameters do, unless they come right after the sign of a reference. -/
theorem beginsType (hname : ∀ n ∈ g.name?, n.1 = .ident) (hreference : g.reference? = none ∨ g.name?.isSome)
    (hreads : w.Reads p g.head) : w.BeginsType true (p + g.head.length) := by
  obtain ⟨front, last, heq, hlast⟩ : ∃ front last, g.words = front ++ [last] ∧
      (last.1 = .kwFunction ∨ last.1 = .kwFn ∨ last.1 = .ident) := by
    cases hn : g.name? with
    | some n =>
      rw [hn] at hname
      exact ⟨g.keyword :: g.reference?.toList, n, by rw [words, hn]; rfl, .inr (.inr (hname n rfl))⟩
    | none =>
      have hnone : g.reference? = none := hreference.resolve_right (by rw [hn]; nofun)
      refine ⟨[], g.keyword, by rw [words, hn, hnone]; rfl, ?_⟩
      exact g.isKeyword.imp_right fun h => .inl h.1
  rw [head_eq, heq, List.append_assoc, Window.reads_append] at hreads
  obtain ⟨-, hreads⟩ := hreads
  have hparen := (Window.reads_cons.mp hreads).2.kind?
  rw [head_eq, heq, List.length_append, List.length_append, List.length_singleton, List.length_singleton,
    Nat.add_assoc, ← Nat.add_assoc]
  exact Window.beginsType_of_leftParen hreads.kind? hlast hparen

end Signature

namespace SourceFile

variable {t : Text} {first stop p : Nat}

section Signatures

variable {g : Signature} (hname : ∀ n ∈ g.name?, n.1 = .ident)
include hname

theorem reportsType_parameter (hreads : ((parse t).window first stop).Reads p g.pieces)
    {front back : List Parameter} {q : Parameter} (hparameters : g.parameters = front ++ q :: back)
    (hwords : ∀ x ∈ q.type, x.1 ≠ .keyword)
    (hplace : g.reference? = none ∨ g.name?.isSome ∨ front ≠ [] ∨ q.lead ≠ []) :
    (parse t).ReportsType first stop (p + (g.head ++ Parameter.followed front ++ q.lead).length) q.type := by
  obtain ⟨rest, hrest⟩ := Parameter.separated_split front q back
  rw [Signature.pieces, Signature.front, hparameters, hrest] at hreads
  simp only [List.append_assoc, Window.reads_append] at hreads
  obtain ⟨hhead, hfollowed, hq, -⟩ := hreads
  have hlength : p + (g.head ++ Parameter.followed front ++ q.lead).length =
      p + g.head.length + (Parameter.followed front).length + q.lead.length := by
    simp only [List.length_append]
    omega
  by_cases htype : q.type = []
  · intro j piece hpiece
    rw [htype] at hpiece
    cases hpiece
  have hbegins (hlead : q.lead = []) : ((parse t).window first stop).BeginsType true
      (p + g.head.length + (Parameter.followed front).length) := by
    rcases List.eq_nil_or_concat front with rfl | ⟨front', last, rfl⟩
    · refine g.beginsType hname ?_ hhead
      simpa [hlead] using hplace
    · rw [Parameter.followed, List.concat_eq_append, List.flatMap_append, List.flatMap_singleton,
        ← List.append_assoc, Window.reads_append] at hfollowed
      rw [Parameter.followed, List.concat_eq_append, List.flatMap_append, List.flatMap_singleton,
        ← List.append_assoc, List.length_append, List.length_singleton, ← Nat.add_assoc]
      exact Window.beginsType_of_separator hfollowed.2.kind? (.inl rfl)
  have hsite := q.variableTypeAt hq htype hwords hbegins
  have hstack : ((parse t).scanState first stop (p + g.head.length + (Parameter.followed front).length +
      q.lead.length)).stack = .parameters :: ((parse t).scanState first stop p).stack := by
    rw [Parameter.pieces, List.append_assoc, Window.reads_append] at hq
    rw [scanState, Window.stack_balanced _ hq.1 q.isLead.isBalanced,
      Window.stack_balanced _ hfollowed (Parameter.followed_isBalanced front), g.stack_head _ hname hhead]
    rfl
  rw [hlength]
  refine reportsType_variable hsite ?_ ?_ <;> rw [hstack]
  · rfl
  · exact fun h => by cases h

theorem reportsType_resultOf (hreads : ((parse t).window first stop).Reads p g.pieces) {type : List Piece}
    (htype : g.result? = some type) : (parse t).ReportsType first stop (p + g.front.length + 1)
      (type.takeWhile fun q => q.1 != .keyword) := by
  have hresult := g.isResult type htype
  rw [Signature.pieces, htype, Option.elim_some, Window.reads_append, Window.reads_append,
    Window.reads_cons] at hreads
  obtain ⟨⟨hfront, ⟨hcolon, -⟩, htypeReads⟩, hfollower⟩ := hreads
  obtain ⟨inside, heq, hstack⟩ := g.exists_closing (parse t).isImported hname hfront
  have hclosing : ((parse t).window first stop).kind? (p + inside.length) = some .rightParen := by
    rw [heq, Window.reads_append] at hfront
    exact hfront.2.kind?
  have hlength : p + g.front.length = p + inside.length + 1 := by
    rw [heq, List.length_append, List.length_singleton, Nat.add_assoc]
  rw [hlength] at hcolon htypeReads ⊢
  refine reportsType_result ⟨htypeReads, hresult.run areWords_isResultWord,
    hresult.isBalanced areWords_isResultWord, fun q hq => ?_, ⟨.colon, hcolon, rfl⟩, g.follower.1, ?_, ?_⟩
    hcolon (Window.resultType_colon _ hclosing hcolon hstack)
  · exact (hresult.allowed q hq).imp_right (Or.imp_right (areWords_isResultWord q))
  · rw [List.length_append, List.length_cons, ← Nat.add_assoc, hlength, Nat.add_comm type.length,
      ← Nat.add_assoc] at hfollower
    exact hfollower.kind?
  · have hfollowers : ∀ kind ∈ ([.leftBrace, .semicolon, .closeTag, .fatArrow] : List TokenKind),
        kind.followsType := by decide
    exact hfollowers _ g.isFollower

end Signatures

theorem reportsType_property {q : Property} (hreads : ((parse t).window first stop).Reads p q.pieces)
    (hwords : ∀ x ∈ q.type, x.1 ≠ .keyword)
    (hrules : ((parse t).scanState first stop p).stack.head? ≠ some .traitRules) :
    (parse t).ReportsType first stop (p + 1) q.type := by
  have hstack : ((parse t).scanState first stop (p + 1)).stack = ((parse t).scanState first stop p).stack :=
    Window.stack_plain _ hreads.kind? (Piece.isBracket_of_isModifier q.isModifier)
  exact reportsType_variable (q.variableTypeAt _ hreads hwords) rfl (hstack ▸ hrules)

/-- Names in types are types: in a signature those of every parameter whose type has no words of the language,
and those of the result up to the first such word. -/
theorem signature_types (t : Text) (first stop : Nat) :
    let f := parse t
    let w := f.window first stop
    (∀ (g : Signature) (before after : List Piece), w.pieces = before ++ g.pieces ++ after →
      (∀ n ∈ g.name?, n.1 = .ident) →
        (∀ front p back, g.parameters = front ++ p :: back → (∀ q ∈ p.type, q.1 ≠ .keyword) →
          (g.reference? = none ∨ g.name?.isSome ∨ front ≠ [] ∨ p.lead ≠ []) → f.ReportsType first stop
            (before.length + (g.head ++ Parameter.followed front ++ p.lead).length) p.type) ∧
        (∀ type, g.result? = some type → f.ReportsType first stop (before.length + g.front.length + 1)
          (type.takeWhile fun q => q.1 != .keyword))) ∧
    (∀ (p : Property) (before after : List Piece), w.pieces = before ++ p.pieces ++ after →
      (∀ q ∈ p.type, q.1 ≠ .keyword) → (f.scanState first stop before.length).stack.head? ≠ some .traitRules →
        f.ReportsType first stop (before.length + 1) p.type) := by
  intro f w
  refine ⟨fun g before after hpieces hname => ⟨fun front p back hparameters hwords hplace => ?_,
    fun type htype => ?_⟩, fun p before after hpieces hwords hrules => ?_⟩
  · exact reportsType_parameter hname (Window.reads_of_pieces hpieces) hparameters hwords hplace
  · exact reportsType_resultOf hname (Window.reads_of_pieces hpieces) htype
  · exact reportsType_property (Window.reads_of_pieces hpieces) hwords hrules

/-- A class that has a property with a type, and a method with a union for its parameter and a nullable
result. -/
def unionType : List Piece := [(.ident, ['A']), (.pipe, ['|']), (.nameQualified, "B\\C".toList)]

def nullableType : List Piece := [(.question, ['?']), (.ident, ['D'])]

def unionParameter : Parameter where
  lead := []
  type := unionType
  reference? := some (.ampersand, ['&'])
  dots? := none
  target := (.variable, "$x".toList)
  default? := none
  isLead := .nil
  isType := .inr (.union (.more (.name rfl) rfl (.one (.name rfl))))
  isReference := by simp
  isDots := nofun
  isVariable := rfl
  isDefault := nofun

def typedMethod : Signature where
  keyword := (.kwFunction, "function".toList)
  reference? := none
  name? := some (.ident, ['f'])
  parameters := [unionParameter]
  lastComma? := none
  captured? := none
  result? := some nullableType
  follower := (.leftBrace, ['\x7b'])
  isKeyword := .inl rfl
  isReference := nofun
  isLastComma := nofun
  isCaptured := nofun
  isResult := fun _ h => Option.some.inj h ▸ .nullable rfl (.inl rfl)
  isFollower := by decide

def typedProperty : Property where
  modifier := (.keyword, "public".toList)
  type := [(.ident, ['E'])]
  target := (.variable, "$e".toList)
  isModifier := by decide
  isType := .intersection (.one rfl)
  isVariable := rfl

def typedClass : Text := "<?php class K \x7b public E $e; function f(A|B\\C &$x): ?D \x7b\x7d \x7d".toList

/-- The code of the class up to its property, and from there to its method. -/
def beforeProperty : List Piece := [(.kwClass, "class".toList), (.ident, ['K']), (.leftBrace, ['\x7b'])]

def beforeMethod : List Piece := beforeProperty ++ typedProperty.pieces ++ [(.semicolon, [';'])]

theorem typedClass_types : (parse typedClass).ReportsType 0 35 (3 + 1) typedProperty.type ∧
    (parse typedClass).ReportsType 0 35 (7 + 3) unionType ∧
      (parse typedClass).ReportsType 0 35 (7 + 9 + 1) nullableType := by
  obtain ⟨hmethod, hproperty, hrules⟩ : ((parse typedClass).window 0 35).pieces = beforeMethod ++ typedMethod.pieces ++
      [(.rightBrace, ['\x7d']), (.rightBrace, ['\x7d'])] ∧
      ((parse typedClass).window 0 35).pieces = beforeProperty ++ typedProperty.pieces ++
        ((.semicolon, [';']) :: (typedMethod.pieces ++ [(.rightBrace, ['\x7d']), (.rightBrace, ['\x7d'])])) ∧
      ((parse typedClass).scanState 0 35 beforeProperty.length).stack.head? ≠ some .traitRules := by
    decide +kernel
  obtain ⟨hparameters, hresult⟩ := (signature_types typedClass 0 35).1 typedMethod beforeMethod _ hmethod (by decide)
  exact ⟨(signature_types typedClass 0 35).2 typedProperty beforeProperty _ hproperty (by decide) hrules,
    hparameters [] unionParameter [] rfl (by decide) (.inl rfl), hresult nullableType rfl⟩

end SourceFile
end NamespaceMigration
