import NamespaceMigration.Proofs.Moving.Cutting
import NamespaceMigration.Proofs.Relocation.Spaces

/-! Code at the end of a file. Statements that are a file of their own are the same statements at the end of
another file, and a step of moving code leaves them what they are. -/
namespace NamespaceMigration

open Lexer (pieces Lexes)
open SourceFile (parse)
open NamespaceMigration.Parser (manyUntil Parsed topItem isNamespaceHeader statement)

theorem Parser.isNamespaceHeader_of_isPlain {c : Code} {p : Nat} (h : (topItem c p).value.IsPlain) :
    isNamespaceHeader c p = false := by
  by_contra hheader
  obtain ⟨name?, token?, braced, hkind⟩ := namespaceStatement_space c (statement c (c.size + 1)) p
  rw [topItem, if_pos (by simpa using hheader)] at h
  exact h _ _ _ hkind

namespace Alongside

variable {a b : Code.Place} {n : Nat} (h : Alongside a b n) (ha : a.code.size = a.first + n)
  (hb : b.code.size = b.first + n)
include h ha hb

/-- Statements up to the end of the code, none of which is a namespace, are read at both places. -/
theorem manyUntil_eq {item : Nat → Parsed Statement} {stop : Nat → Bool}
    (hitem : ∀ p, isNamespaceHeader b.code p = false → item p = statement b.code (b.code.size + 1) p)
    (hstop : ∀ p, isNamespaceHeader b.code p = false → stop p = b.code.atEnd p)
    {fuel fuel' i : Nat} (hi : i ≤ n) (hfuel : a.code.size < a.first + i + fuel)
    (hfuel' : b.code.size < b.first + i + fuel')
    (herrors : (manyUntil (topItem a.code) a.code.atEnd fuel (a.first + i)).errors = [])
    (hplain : ∀ s ∈ (manyUntil (topItem a.code) a.code.atEnd fuel (a.first + i)).value, s.IsPlain) :
    ∃ vs : List Statement,
      (manyUntil (topItem a.code) a.code.atEnd fuel (a.first + i)).value = vs.map (Statement.move a.token) ∧
      manyUntil item stop fuel' (b.first + i) = ⟨vs.map (Statement.move b.token), b.code.size, []⟩ := by
  have hend : isNamespaceHeader b.code (b.first + n) = false := by
    have hnone : b.code.isAt .kwNamespace (b.first + n) = false := by
      rw [Code.isAt, Code.kind?_past (Nat.le_of_eq hb)]
      rfl
    rw [isNamespaceHeader, hnone, Bool.false_and]
  induction fuel generalizing fuel' i with
  | zero => omega
  | succ fuel ih =>
    obtain ⟨fuel', rfl⟩ := Nat.exists_eq_add_of_le' (show 1 ≤ fuel' by omega)
    by_cases hat : a.code.atEnd (a.first + i)
    · obtain ⟨rfl, -⟩ := h.size_of_atEnd hi hat
      have hlast : stop (b.first + i) := by
        rw [hstop _ hend, Code.atEnd, hb]
        exact decide_eq_true (Nat.le_refl _)
      rw [manyUntil, manyUntil, if_pos hat, if_pos hlast, ← hb]
      exact ⟨[], rfl, rfl⟩
    · have hlt : i < n := by
        rw [Code.atEnd, decide_eq_true_eq] at hat
        omega
      rw [Parser.manyUntil_succ hat] at herrors hplain ⊢
      obtain ⟨hfirst, hrest⟩ := List.append_eq_nil_iff.mp herrors
      have hheader := Parser.isNamespaceHeader_of_isPlain (hplain _ (List.mem_append_left _ (List.mem_singleton_self _)))
      have hread := Parser.topItem_of_plain hheader
      have hreach : a.code.Reaches (a.first + i + 1) (statement a.code (a.code.size + 1) (a.first + i)).next :=
        Parser.statement_reaches h.ordered.1 (h.lt_size hlt)
      have htracks : Parser.Tracks a b n Statement.move (statement a.code (a.code.size + 1) (a.first + i))
          (statement b.code (b.code.size + 1) (b.first + i)) :=
        Parser.statement_tracks h hlt (by omega) (by omega)
      dsimp only [Parsed.single] at hfirst hrest hplain ⊢
      rw [hread] at hfirst hrest hplain ⊢
      obtain ⟨hnone, ⟨q, hq, hnext, hnext'⟩, v, hv, hv'⟩ := htracks hfirst (by rw [← ha]; exact hreach.2)
      have hheader' := (Parser.isNamespaceHeader_eq h ha hb i).trans hheader
      have hgo : ¬stop (b.first + i) := by
        rw [hstop _ hheader', h.atEnd_lt hlt]
        exact Bool.false_ne_true
      have hle := hreach.1
      rw [hnext] at hle hrest
      dsimp only [Parsed.andThen] at hplain ⊢
      rw [hnext] at hplain ⊢
      obtain ⟨vs, hvs, hvs'⟩ := ih hq (by omega) (show b.code.size < b.first + q + fuel' by omega) hrest
        fun s hs => hplain s (List.mem_append_right _ hs)
      refine ⟨v :: vs, by rw [hv, hvs]; rfl, ?_⟩
      rw [Parser.manyUntil_succ hgo, hitem _ hheader', Parsed.andThen]
      dsimp only [Parsed.single]
      rw [hnone, hnext', hvs', hv']
      rfl

end Alongside

/-- Code at the end of a file: after an open tag it is a file of some statements, none of them a namespace,
without problems. -/
structure IsTail (ps : List Piece) (ss : List Statement) : Prop where
  lexes : Lexes .between ps
  errors : (parse ("<?php\n" ++ Piece.print ps)).errors = []
  children : (parse ("<?php\n" ++ Piece.print ps)).root.children = ss.map (Statement.move 1)
  plain : ∀ s ∈ ss, s.IsPlain
  visible : ∀ p ∈ ps.head?, p.1 ≠ .whitespace
  begins : ∀ p, (Piece.code ps).head? = some p → p.1.isContinuation = false
  halts : ∀ p ∈ ps, p.1 ≠ .kwHaltCompiler

theorem Lexer.Lexes.visible_head {ps : List Piece} (h : Lexes .between ps) (hhead : ∀ p ∈ ps.head?, p.1 ≠ .whitespace) :
    (Piece.print ps).head?.any isSpace = false := by
  cases h with
  | nil => rfl
  | @cons _ kind text ps hne hscan hrest =>
    rw [Piece.print_cons, List.head?_append_of_ne_nil _ hne]
    exact (Lexes.cons hne hscan hrest).visible rfl (hhead _ rfl)

theorem Statement.isPlain_move (k : Nat) {s : Statement} (h : s.IsPlain) : (s.move k).IsPlain := by
  intro name? token? braced hkind
  rw [kind_move] at hkind
  cases hs : s.kind with
  | space => exact h _ _ _ hs
  | _ => rw [hs] at hkind; cases hkind

theorem Statement.isPlain_of_move {k : Nat} {s : Statement} (h : (s.move k).IsPlain) : s.IsPlain := by
  intro name? token? braced hkind
  refine h name? (token?.map (k + ·)) braced ?_
  rw [kind_move, hkind]
  rfl

namespace IsTail

variable {ps : List Piece} {ss : List Statement} (h : IsTail ps ss)
include h

theorem pieces : pieces ("<?php\n" ++ Piece.print ps) = [(.openTag, "<?php\n".toList)] ++ ps ++ [] := by
  rw [List.append_nil]
  exact Lexer.pieces_openTag h.lexes

theorem faults : (Code.ofText ("<?php\n" ++ Piece.print ps)).matching.faults = [] :=
  SourceFile.faults_of_errors h.errors

/-- At the end of another file the statements are the same. -/
theorem reads {t : Text} {before : List Piece} (ht : Lexer.pieces t = before ++ ps)
    (hdoc : (Code.ofText t).leadingDoc? before.length = none) {item : Nat → Parsed Statement} {stop : Nat → Bool}
    (hitem : ∀ p, isNamespaceHeader (.ofText t) p = false →
      item p = statement (.ofText t) ((Code.ofText t).size + 1) p)
    (hstop : ∀ p, isNamespaceHeader (.ofText t) p = false → stop p = (Code.ofText t).atEnd p)
    {fuel : Nat} (hfuel : (Code.ofText t).size < (Piece.code before).length + fuel) :
    manyUntil item stop fuel (Piece.code before).length =
      ⟨ss.map (Statement.move before.length), (Code.ofText t).size, []⟩ := by
  have ht' : Lexer.pieces t = before ++ ps ++ [] := by rw [ht, List.append_nil]
  have hsize := Code.size_stretch h.pieces
  have hsize' := Code.size_stretch ht'
  have halong := Alongside.of_pieces h.pieces ht' h.faults
    (.inr ⟨Code.leadingDoc?_openTag h.pieces, hdoc⟩) (.inl rfl)
  have htop := (SourceFile.children_parse _).symm.trans h.children
  have hplain : ∀ s ∈ (Parser.topStatements (.ofText ("<?php\n" ++ Piece.print ps))).value, s.IsPlain := by
    rw [htop]
    exact List.forall_mem_map.mpr fun s hs => Statement.isPlain_move 1 (h.plain s hs)
  have henough : (Code.ofText ("<?php\n" ++ Piece.print ps)).size <
      0 + 0 + ((Code.ofText ("<?php\n" ++ Piece.print ps)).size + 1) := Nat.lt_add_left _ (Nat.lt_succ_self _)
  obtain ⟨vs, hvs, hvs'⟩ := halong.manyUntil_eq (i := 0) hsize hsize' hitem hstop (Nat.zero_le _) henough hfuel
    (SourceFile.topErrors h.errors) hplain
  obtain rfl := Statement.map_move_inj _ _ (htop.symm.trans hvs)
  exact hvs'

end IsTail

theorem SourceFile.exists_children {t : Text} {ps : List Piece}
    (ht : pieces t = [(.openTag, "<?php\n".toList)] ++ ps ++ []) (herrors : (parse t).errors = [])
    (hplain : ∀ s ∈ (parse t).root.children, s.IsPlain) :
    ∃ ss : List Statement, (parse t).root.children = ss.map (Statement.move 1) := by
  have hsize := Code.size_stretch ht
  have hdoc := Code.leadingDoc?_openTag ht
  have halong := Alongside.of_pieces ht ht (faults_of_errors herrors) (.inr ⟨hdoc, hdoc⟩) (.inl rfl)
  have hfuel : (Code.ofText t).size < 0 + 0 + ((Code.ofText t).size + 1) := Nat.lt_add_left _ (Nat.lt_succ_self _)
  obtain ⟨ss, hss, -⟩ := halong.manyUntil_eq (i := 0) hsize hsize (fun q hq => Parser.topItem_of_plain hq)
    (fun _ _ => rfl) (Nat.zero_le _) hfuel hfuel (topErrors herrors) hplain
  exact ⟨ss, hss⟩

theorem exists_isTail {ps : List Piece} (hlexes : Lexes .between ps)
    (herrors : (parse ("<?php\n" ++ Piece.print ps)).errors = [])
    (hplain : ∀ s ∈ (parse ("<?php\n" ++ Piece.print ps)).root.children, s.IsPlain)
    (hvisible : ∀ p ∈ ps.head?, p.1 ≠ .whitespace)
    (hbegins : ∀ p, (Piece.code ps).head? = some p → p.1.isContinuation = false)
    (hhalts : ∀ p ∈ ps, p.1 ≠ .kwHaltCompiler) : ∃ ss, IsTail ps ss := by
  have hpieces := Lexer.pieces_openTag hlexes
  obtain ⟨ss, hss⟩ := SourceFile.exists_children (hpieces.trans (List.append_nil _).symm) herrors hplain
  refine ⟨ss, hlexes, herrors, hss, fun s hs => ?_, hvisible, hbegins, hhalts⟩
  rw [hss] at hplain
  exact Statement.isPlain_of_move (hplain _ (List.mem_map_of_mem hs))

theorem Piece.Matches.eq_or_full {p q : Piece} (h : p.Matches q) (hcode : p.1.isTrivia = false) :
    q.1 = p.1 ∨ q.1 = .nameFullyQualified := by
  rcases h with rfl | ⟨-, hfull⟩ | ⟨hdoc, -⟩
  · exact .inl rfl
  · exact .inr hfull
  · rw [hdoc] at hcode
    cases hcode

namespace Piece.MatchAll

variable {ps qs : List Piece} (h : MatchAll ps qs)
include h

theorem visible (hvisible : ∀ p ∈ ps.head?, p.1 ≠ .whitespace) : ∀ q ∈ qs.head?, q.1 ≠ .whitespace := by
  intro q hq
  cases h with
  | nil => cases hq
  | @cons p _ ps' _ hp _ =>
    obtain rfl := Option.some.inj hq
    have hvisible := hvisible p rfl
    rcases hp with rfl | ⟨-, hfull⟩ | ⟨-, hdoc⟩
    · exact hvisible
    · rw [hfull]
      exact TokenKind.noConfusion
    · rw [hdoc]
      exact TokenKind.noConfusion

theorem begins (hbegins : ∀ p, (Piece.code ps).head? = some p → p.1.isContinuation = false) :
    ∀ q, (Piece.code qs).head? = some q → q.1.isContinuation = false := by
  intro q hq
  rw [List.head?_eq_getElem?] at hq
  rcases h.code.getElem? 0 with ⟨-, hnone⟩ | ⟨p, q', hp, hq', hmatches⟩
  · rw [hnone] at hq
    cases hq
  · obtain rfl := Option.some.inj (hq'.symm.trans hq)
    have htrivia : p.1.isTrivia = false := by simpa using (List.mem_filter.mp (List.mem_of_getElem? hp)).2
    rcases hmatches.eq_or_full htrivia with hsame | hfull
    · rw [hsame]
      exact hbegins p (by rw [List.head?_eq_getElem?, hp])
    · rw [hfull]
      rfl

theorem halts (hhalts : ∀ p ∈ ps, p.1 ≠ .kwHaltCompiler) : ∀ q ∈ qs, q.1 ≠ .kwHaltCompiler := by
  intro q hq hhalt
  obtain ⟨p, hp, hmatches⟩ := h.exists_of_mem hq
  rcases hmatches with rfl | ⟨-, hfull⟩ | ⟨-, hdoc⟩
  · exact hhalts q hp hhalt
  · rw [hfull] at hhalt
    cases hhalt
  · rw [hdoc] at hhalt
    cases hhalt

end Piece.MatchAll

theorem Statement.isPlain_of_bare {ss ss' : List Statement} (h : ss'.map bare = ss.map bare)
    (hplain : ∀ s ∈ ss, s.IsPlain) : ∀ s ∈ ss', s.IsPlain := by
  intro s hs name? token? braced hspace
  have hmem : s.bare ∈ ss.map bare := h ▸ List.mem_map_of_mem hs
  obtain ⟨v, hv, hsame⟩ := List.mem_map.mp hmem
  have hkind := congrArg Statement.kind hsame
  rw [bare_kind, bare_kind, hspace] at hkind
  cases hvkind : v.kind with
  | space => exact hplain v hv _ _ _ hvkind
  | _ => rw [hvkind] at hkind; cases hkind

/-- What is free at the end of one file is free at the end of another one. -/
theorem Code.IsFree.of_end {t t' : Text} {before before' ps after : List Piece}
    (ht : pieces t = before ++ ps ++ after) (ht' : pieces t' = before' ++ ps ++ after)
    (hstart : Piece.code before' = []) {i : Nat} (h : (ofText t).IsFree ((Piece.code before).length + i)) :
    (ofText t').IsFree i := by
  have hat (j : Nat) : (Piece.code (pieces t'))[j]? = (Piece.code (pieces t))[(Piece.code before).length + j]? := by
    rw [ht, ht', List.append_assoc, List.append_assoc, Piece.code_append, Piece.code_append _ (ps ++ after), hstart,
      List.nil_append, List.getElem?_append_right (Nat.le_add_right _ _), Nat.add_sub_cancel_left]
  have hkind (j : Nat) : (ofText t').kind? j = (ofText t).kind? ((Piece.code before).length + j) := by
    rw [kind?_ofText, kind?_ofText, hat]
  have htext (j : Nat) : (ofText t').text j = (ofText t).text ((Piece.code before).length + j) := by
    rw [text_ofText, text_ofText, hat]
  constructor
  · intro q kind hq hq'
    exact h.declared _ kind (by omega) (hkind q ▸ hq')
  · intro q hq hfunction hampersand
    exact h.byReference _ (by omega) (hkind q ▸ hfunction) (hkind (q + 1) ▸ hampersand)
  · intro hident henum hnext
    exact h.enumeration (hkind i ▸ hident) (htext i ▸ henum) (hkind (i + 1) ▸ hnext)
  · intro q hq hident henum hname
    exact h.enumerated _ (by omega) (hkind q ▸ hident) (htext q ▸ henum) (hkind i ▸ hname)
  · intro q hq hcomma hident hequals
    exact h.constant _ (by omega) (hkind q ▸ hcomma) (hkind i ▸ hident) (hkind (i + 1) ▸ hequals)
  · intro q hq hdeclare hparen hident hequals
    exact h.directive _ (by omega) (hkind q ▸ hdeclare) (hkind (q + 1) ▸ hparen) (hkind i ▸ hident)
      (hkind (i + 1) ▸ hequals)

namespace IsTail

variable {ps : List Piece} {ss : List Statement} (h : IsTail ps ss)
include h

/-- With names in full and other comments the end of a file is read as the statements that it was, if what is
respelled is free and in no import. -/
theorem respell {qs : List Piece} (hrespells : Lexer.Respells ps qs)
    (hfree : ∀ i, (Piece.code ps)[i]? ≠ (Piece.code qs)[i]? →
      (Code.ofText ("<?php\n" ++ Piece.print ps)).IsFree i)
    (himports : ∀ s ∈ ss, (s.move 1).Everywhere (Parser.ImportsFree (.ofText ("<?php\n" ++ Piece.print ps))
      fun i => (Piece.code ps)[i]? ≠ (Piece.code qs)[i]?)) :
    ∃ ss', IsTail qs ss' ∧ ss'.map Statement.bare = ss.map Statement.bare := by
  have hlexes := hrespells.lexes h.lexes
  have hmatch : Piece.MatchAll (Lexer.pieces ("<?php\n" ++ Piece.print ps))
      (Lexer.pieces ("<?php\n" ++ Piece.print qs)) := by
    rw [Lexer.pieces_openTag h.lexes, Lexer.pieces_openTag hlexes]
    exact .cons (.refl _) hrespells.matchAll
  have hdiffers : Code.Differs ("<?php\n" ++ Piece.print ps) ("<?php\n" ++ Piece.print qs) =
      fun i => (Piece.code ps)[i]? ≠ (Piece.code qs)[i]? := by
    funext i
    rw [Code.Differs, Lexer.pieces_openTag h.lexes, Lexer.pieces_openTag hlexes]
    rfl
  have ho : (Code.ofText ("<?php\n" ++ Piece.print ps)).Ordered := Code.ordered_ofTokens _ _
  have hcode := Code.respelled_of_matchAll hmatch (by rw [hdiffers]; exact hfree)
  rw [hdiffers] at hcode
  have hnone := SourceFile.topErrors h.errors
  have hchildren := (SourceFile.children_parse _).symm.trans h.children
  have hfine : Parser.Fine (.ofText ("<?php\n" ++ Piece.print ps))
      (fun i => (Piece.code ps)[i]? ≠ (Piece.code qs)[i]?)
      (Parser.topStatements (.ofText ("<?php\n" ++ Piece.print ps))) := by
    constructor
    · rw [hnone]
      exact fun e he => absurd he List.not_mem_nil
    · rw [hchildren]
      exact List.forall_mem_map.mpr himports
  obtain ⟨-, hvalue⟩ := Parser.topStatements_like ho hcode hfine
  have hclears := Parser.topStatements_clears ho hcode hfine hnone
  have herrors : (parse ("<?php\n" ++ Piece.print qs)).errors = [] := by
    refine SourceFile.errors_eq_nil_iff.mpr ⟨?_, hclears⟩
    exact (congrArg _ (Code.matching_of_matchAll hmatch)).trans h.faults
  rw [hchildren, ← SourceFile.children_parse] at hvalue
  have hplain : ∀ s ∈ (parse ("<?php\n" ++ Piece.print qs)).root.children, s.IsPlain := by
    refine Statement.isPlain_of_bare hvalue ?_
    exact List.forall_mem_map.mpr fun s hs => Statement.isPlain_move 1 (h.plain s hs)
  obtain ⟨ss', hss'⟩ := exists_isTail hlexes herrors hplain (hrespells.matchAll.visible h.visible)
    (hrespells.matchAll.begins h.begins) (hrespells.matchAll.halts h.halts)
  refine ⟨ss', hss', Statement.map_move_inj (k := 1) _ _ ?_⟩
  rw [← Statement.map_bare_move, ← Statement.map_bare_move, ← hss'.children]
  exact hvalue

end IsTail

section Adapt

open SourceFile (writtenSlice writtenFrom)

variable {t : Text} {renames : Prop} {edits : List TextEdit}

/-- Where no imported name is renamed, a step leaves the statements at the end of a file what they were. -/
theorem IsTail.adapt {ps : List Piece} {ss : List Statement} (h : IsTail ps ss)
    (hedits : (parse t).AdaptEdits renames edits) {before : List Piece} (ht : Lexer.pieces t = before ++ ps)
    {l : Located} (hl : l ∈ (parse t).outline)
    (hstands : ∀ s ∈ ss, s.move before.length ∈ l.statement.children)
    (hplain : renames → ∀ i, before.length ≤ i → ¬(parse t).ImportsAt i) :
    ∃ qs ss', IsTail qs ss' ∧ Piece.MatchAll ps qs ∧ Piece.print qs = writtenFrom t edits before.length ∧
      ss'.map Statement.bare = ss.map Statement.bare := by
  have ht' : Lexer.pieces t = before ++ ps ++ [] := by rw [ht, List.append_nil]
  have hsize := Code.size_stretch ht'
  obtain ⟨qs, hrespells, hprint, hdiffers⟩ :=
    SourceFile.exists_respelled hedits ht' fun hrenames i hi _ => hplain hrenames i hi
  rw [SourceFile.writtenFrom_eq_writtenSlice ht, ← hprint]
  have hfree : ∀ i, (Piece.code ps)[i]? ≠ (Piece.code qs)[i]? →
      (Code.ofText ("<?php\n" ++ Piece.print ps)).IsFree i := by
    intro i hi
    obtain ⟨hlt, s, hs, r, hr, hindex⟩ := hdiffers i hi
    obtain ⟨item, hitem⟩ := Code.exists_item (show (Piece.code before).length + i < (Code.ofText t).size by omega)
    have htoken : item.1 = r.token := by rw [hindex, Code.tokenIndex_eq hitem]
    exact .of_end ht' h.pieces rfl (SourceFile.isFree_of_reference hs hr hitem htoken)
  obtain ⟨ss', hss', hbare⟩ := h.respell hrespells hfree fun s hs =>
    Statement.importsFree_of_stands ht' h.pieces rfl hdiffers hl (hstands s hs)
  exact ⟨qs, ss', hss', hrespells.matchAll, rfl, hbare⟩

end Adapt

end NamespaceMigration
