import Mathlib.Logic.Relation
import NamespaceMigration.Proofs.Rendering.Alone
import NamespaceMigration.Proofs.Rewriting.Respelled
import NamespaceMigration.Proofs.Statements.Faultless

/-! Respelled text stands alone. It has the same words apart from names and comments, so it is one
statement as it was, with the same statements inside. -/
namespace NamespaceMigration

open Lexer (pieces Lexes Respelling)

namespace Piece

/-- One piece in the place of another, as the parser sees it: the same, a name in full in the place of
a name, or a comment in the place of a comment. -/
def Matches (p q : Piece) : Prop :=
  q = p ∨ p.1.isName ∧ q.1 = .nameFullyQualified ∨ p.1 = .docComment ∧ q.1 = .docComment

theorem Matches.refl (p : Piece) : p.Matches p := .inl rfl

theorem Matches.trans {p q r : Piece} (h : p.Matches q) (h' : q.Matches r) : p.Matches r := by
  rcases h with rfl | ⟨hname, hfull⟩ | ⟨hdoc, hdoc'⟩
  · exact h'
  · rcases h' with rfl | ⟨-, hfull'⟩ | ⟨hdoc, -⟩
    · exact .inr (.inl ⟨hname, hfull⟩)
    · exact .inr (.inl ⟨hname, hfull'⟩)
    · rw [hfull] at hdoc
      cases hdoc
  · rcases h' with rfl | ⟨hname, -⟩ | ⟨-, hdoc''⟩
    · exact .inr (.inr ⟨hdoc, hdoc'⟩)
    · rw [hdoc'] at hname
      cases hname
    · exact .inr (.inr ⟨hdoc, hdoc''⟩)

theorem Matches.isTrivia {p q : Piece} (h : p.Matches q) : q.1.isTrivia = p.1.isTrivia := by
  rcases h with rfl | ⟨hname, hfull⟩ | ⟨hdoc, hdoc'⟩
  · rfl
  · rw [hfull]
    cases hkind : p.1 <;> first | rfl | (rw [hkind] at hname; cases hname)
  · rw [hdoc, hdoc']

theorem matches_of_respelling {p q : Piece} (h : Respelling p q) : p.Matches q := by
  cases h with
  | same => exact .refl _
  | name hname => exact .inr (.inl ⟨hname, rfl⟩)
  | comment => exact .inr (.inr ⟨rfl, rfl⟩)

/-- Pieces in the place of others, one by one. -/
abbrev MatchAll : List Piece → List Piece → Prop := List.Forall₂ Matches

namespace MatchAll

variable {ps qs rs : List Piece}

theorem refl (ps : List Piece) : MatchAll ps ps := List.forall₂_same.mpr fun p _ => .refl p

theorem trans (h : MatchAll ps qs) (h' : MatchAll qs rs) : MatchAll ps rs := by
  induction h generalizing rs with
  | nil => exact h'
  | cons hp _ ih =>
    cases h' with
    | cons hp' hps' => exact .cons (hp.trans hp') (ih hps')

theorem between (before after : List Piece) (h : MatchAll ps qs) :
    MatchAll (before ++ ps ++ after) (before ++ qs ++ after) :=
  List.rel_append (List.rel_append (refl before) h) (refl after)

theorem code (h : MatchAll ps qs) : MatchAll (Piece.code ps) (Piece.code qs) :=
  List.rel_filter (fun p q hp => by simp only [Matches.isTrivia hp]) h

theorem places (h : MatchAll ps qs) (k : Nat) : Piece.places k qs = Piece.places k ps := by
  induction h generalizing k with
  | nil => rfl
  | cons hp _ ih => rw [Piece.places, Piece.places, hp.isTrivia, ih]

theorem getElem? (h : MatchAll ps qs) (i : Nat) : (ps[i]? = none ∧ qs[i]? = none) ∨
    ∃ p q, ps[i]? = some p ∧ qs[i]? = some q ∧ p.Matches q := forall₂_getElem? h i

theorem exists_of_mem (h : MatchAll ps qs) {q : Piece} (hq : q ∈ qs) : ∃ p ∈ ps, p.Matches q := by
  obtain ⟨i, hi⟩ := List.mem_iff_getElem?.mp hq
  rcases h.getElem? i with ⟨-, hnone⟩ | ⟨p, q', hp, hq', hmatches⟩
  · rw [hnone] at hi
    cases hi
  · obtain rfl := Option.some.inj (hq'.symm.trans hi)
    exact ⟨p, List.mem_of_getElem? hp, hmatches⟩

end MatchAll
end Piece

theorem SourceFile.all_tokens_iff {t : Text} {kind : TokenKind} :
    (parse t).tokens.all (·.kind != kind) ↔ ∀ p ∈ pieces t, p.1 ≠ kind := by
  rw [Array.all_eq_true', pieces, List.forall_mem_map]
  simp only [bne_iff_ne, ne_eq]
  exact forall_congr' fun token => by rw [← List.mem_toArray]; rfl

namespace Lexer

/-- Pieces respelled step by step. -/
abbrev Respells : List Piece → List Piece → Prop := Relation.ReflTransGen (List.Forall₂ Respelling)

namespace Respells

variable {ps qs : List Piece}

theorem matchAll (h : Respells ps qs) : Piece.MatchAll ps qs := by
  induction h with
  | refl => exact .refl ps
  | tail _ hstep ih => exact ih.trans (hstep.imp fun _ _ => Piece.matches_of_respelling)

theorem between (before after : List Piece) (h : Respells ps qs) :
    Respells (before ++ ps ++ after) (before ++ qs ++ after) := by
  have hsame (rs : List Piece) : List.Forall₂ Respelling rs rs :=
    List.forall₂_same.mpr fun p _ => .same p
  induction h with
  | refl => exact .refl
  | tail _ hstep ih =>
    exact ih.tail (List.rel_append (List.rel_append (hsame before) hstep) (hsame after))

theorem lexes {s : State} (h : Respells ps qs) (hps : Lexes s ps) : Lexes s qs := by
  induction h with
  | refl => exact hps
  | tail _ hstep ih => exact ih.respell ⟨rfl, rfl, rfl⟩ hstep

theorem pieces {t : Text} (ht : Lexer.pieces t = ps) (h : Respells ps qs) :
    Lexer.pieces (Piece.print qs) = qs :=
  Lexer.pieces_print (h.lexes (ht ▸ lexes_pieces t))

end Respells
end Lexer

theorem getElem?_append_ne_iff {α : Type} {as bs : List α} (h : bs.length = as.length) (cs : List α)
    (i : Nat) : (as ++ cs)[i]? ≠ (bs ++ cs)[i]? ↔ as[i]? ≠ bs[i]? := by
  by_cases hi : i < as.length
  · rw [List.getElem?_append_left hi, List.getElem?_append_left (h ▸ hi)]
  · have hle := Nat.le_of_not_lt hi
    have hle' : bs.length ≤ i := h ▸ hle
    rw [List.getElem?_append_right hle, List.getElem?_append_right hle', h]
    simp only [List.getElem?_eq_none hle, List.getElem?_eq_none hle', ne_eq, not_true_eq_false]

namespace Code

variable {t t' : Text}

/-- The token at a position of the code is not the same in two texts. -/
def Differs (t t' : Text) (p : Nat) : Prop :=
  (Piece.code (pieces t))[p]? ≠ (Piece.code (pieces t'))[p]?

theorem leadingDoc?_of_matchAll (h : Piece.MatchAll (pieces t) (pieces t')) (index : Nat) :
    (ofText t').leadingDoc? index = (ofText t).leadingDoc? index := by
  induction index with
  | zero => rfl
  | succ index ih =>
    rw [leadingDoc?_succ, leadingDoc?_succ, ih]
    rcases h.getElem? index with ⟨hnone, hnone'⟩ | ⟨p, q, hp, hq, hmatches⟩
    · rw [hnone, hnone']
    · rw [hp, hq, Option.map_some, Option.map_some]
      rcases hmatches with rfl | ⟨hname, hfull⟩ | ⟨hdoc, hdoc'⟩
      · rfl
      · rw [hfull]
        cases hkind : p.1 <;> first | rfl | (rw [hkind] at hname; cases hname)
      · rw [hdoc, hdoc']

theorem matching_of_matchAll (h : Piece.MatchAll (pieces t) (pieces t')) :
    (ofText t').matching = (ofText t).matching := by
  rw [matching_ofText, matching_ofText]
  refine BracketMatching.ofKindsFrom_congr ?_ 0 []
  rw [List.forall₂_map_left_iff, List.forall₂_map_right_iff]
  refine h.code.imp fun p q hp => ?_
  rcases hp with rfl | ⟨hname, hfull⟩ | ⟨hdoc, hdoc'⟩
  · exact .inl rfl
  · exact .inr ⟨hname, by rw [hfull]; rfl⟩
  · exact .inl (hdoc'.trans hdoc.symm)

/-- Code with other pieces, of which those that differ are free names, is respelled code. -/
theorem respelled_of_matchAll (h : Piece.MatchAll (pieces t) (pieces t'))
    (hfree : ∀ p, Differs t t' p → (ofText t).IsFree p) :
    (ofText t).Respelled (ofText t') (Differs t t') := by
  have hsize : (ofText t').size = (ofText t).size := by
    rw [size_ofText, size_ofText]
    exact h.code.length_eq.symm
  refine ⟨hsize, fun p => ?_, fun p => ?_, fun p hp => ?_, fun p hp => ?_, hfree⟩
  · by_cases hp : p < (ofText t).size
    · have hindex := tokenIndex_ofText hp
      have hindex' := tokenIndex_ofText (hsize.symm ▸ hp)
      rw [h.places] at hindex'
      exact Option.some.inj (hindex'.symm.trans hindex)
    · have hnone {u : Text} (hu : (ofText u).size ≤ p) : (ofText u).tokenIndex p = (pieces u).length := by
        rw [tokenIndex, Array.getElem?_eq_none hu, Option.map_none, Option.getD_none]
        exact SourceFile.size_tokens u
      rw [hnone (Nat.le_of_not_lt hp), hnone (hsize ▸ Nat.le_of_not_lt hp), h.length_eq]
  · rw [groupEnd, groupEnd, matching_of_matchAll h, hsize]
  · rw [Differs, ne_eq, not_not] at hp
    rw [kind?_ofText, kind?_ofText, text_ofText, text_ofText, hp]
    exact ⟨rfl, rfl⟩
  · rw [Differs] at hp
    rcases h.code.getElem? p with ⟨hnone, hnone'⟩ | ⟨a, b, ha, hb, hmatches⟩
    · exact absurd (hnone.trans hnone'.symm) hp
    · rw [kind?_ofText, kind?_ofText, ha, hb]
      rcases hmatches with rfl | ⟨hname, hfull⟩ | ⟨hdoc, -⟩
      · exact absurd (ha.trans hb.symm) hp
      · exact ⟨a.1, rfl, hname, congrArg some hfull⟩
      · have htrivia := (List.mem_filter.mp (List.mem_of_getElem? ha)).2
        rw [hdoc] at htrivia
        cases htrivia

end Code

namespace ReadAlone

variable {t : Text} {s : Statement} {ps : List Piece} (h : ReadAlone t s ps)
include h

/-- The semicolon after the text is a statement of its own. -/
theorem topStatements_eq : ∃ e, Parser.topStatements (.ofText ("<?php\n" ++ t ++ ";")) =
    ⟨[s, e], (Piece.code ps).length + 1, []⟩ := by
  have hsize := h.size
  have hheader := h.header
  have hread := h.read
  have hpos := h.pos
  have hkind : (Code.ofText ("<?php\n" ++ t ++ ";")).kind? (Piece.code ps).length = some .semicolon :=
    (Code.token_at h.pieces rfl).1
  generalize Code.ofText ("<?php\n" ++ t ++ ";") = c at *
  generalize (Piece.code ps).length = n at *
  have hfirst : Parser.topItem c 0 = ⟨s, n, []⟩ := by
    rw [Parser.topItem, hheader, if_neg Bool.false_ne_true, hsize]
    exact hread
  have hlast : ∃ e, Parser.topItem c n = ⟨e, n + 1, []⟩ := by
    have hplain : Parser.isNamespaceHeader c n = false := by
      rw [Parser.isNamespaceHeader, Code.isAt, hkind]
      rfl
    rw [Parser.topItem, hplain, if_neg Bool.false_ne_true, Parser.statement, Parser.shape, hkind]
    exact ⟨_, rfl⟩
  obtain ⟨e, he⟩ := hlast
  have hgo {p : Nat} (hp : p < n + 1) : ¬c.atEnd p := by
    rw [Code.atEnd, hsize, decide_eq_true_eq]
    omega
  have hstop : Parser.manyUntil (Parser.topItem c) c.atEnd n (n + 1) = ⟨[], n + 1, []⟩ := by
    obtain ⟨m, rfl⟩ := Nat.exists_eq_succ_of_ne_zero (Nat.pos_iff_ne_zero.mp hpos)
    rw [Parser.manyUntil, if_pos (by rw [Code.atEnd, hsize]; simp)]
  refine ⟨e, ?_⟩
  rw [Parser.topStatements_eq, hsize, Parser.manyUntil_succ (hgo (Nat.succ_pos n)), hfirst,
    Parser.Parsed.andThen]
  dsimp only [Parser.Parsed.single]
  rw [Parser.manyUntil_succ (hgo (Nat.lt_succ_self n)), he, Parser.Parsed.andThen]
  dsimp only [Parser.Parsed.single]
  rw [hstop]
  rfl

theorem standsAlone (hstart : s.doc?.getD s.first = 1)
    (hends : ((alone t).kind? (s.stop - 1)).any TokenKind.isStop)
    (hbegins : ((alone t).kind? s.first).any TokenKind.isContinuation = false)
    (hspace : ∀ name? token? braced, s.kind ≠ .space name? token? braced)
    (hhalts : (alone t).tokens.all (·.kind != .kwHaltCompiler)) : StandsAlone t s := by
  obtain ⟨e, htop⟩ := h.topStatements_eq
  refine ⟨?_, ?_, hstart, ?_, hends, ?_, hbegins, hspace, hhalts⟩
  · exact SourceFile.errors_eq_nil_iff.mpr ⟨h.faults, congrArg Parser.Parsed.errors htop⟩
  · rw [alone, SourceFile.children_parse, htop]
    rfl
  · rw [h.stop, alone, SourceFile.size_tokens, h.pieces]
    simp
  · rw [h.stop, alone, SourceFile.kind?_parse, h.pieces]
    simp

section Respell

variable {qs : List Piece} (hrespells : Lexer.Respells ps qs)
include hrespells

theorem pieces_respell : Lexer.pieces ("<?php\n" ++ Piece.print qs ++ ";") =
    [(.openTag, "<?php\n".toList)] ++ qs ++ [(.semicolon, [';'])] := by
  have hpieces := (hrespells.between [(.openTag, "<?php\n".toList)] [(.semicolon, [';'])]).pieces h.pieces
  rw [Piece.print_append, Piece.print_append] at hpieces
  exact hpieces

theorem matchAll_respell : Piece.MatchAll (Lexer.pieces ("<?php\n" ++ t ++ ";"))
    (Lexer.pieces ("<?php\n" ++ Piece.print qs ++ ";")) := by
  rw [h.pieces, h.pieces_respell hrespells]
  exact hrespells.matchAll.between _ _

theorem differs_respell : Code.Differs ("<?php\n" ++ t ++ ";") ("<?php\n" ++ Piece.print qs ++ ";") =
    fun i => (Piece.code ps)[i]? ≠ (Piece.code qs)[i]? := by
  funext i
  have hcode (rs : List Piece) : Piece.code ([(.openTag, "<?php\n".toList)] ++ rs ++ [(.semicolon, [';'])]) =
      Piece.code rs ++ [(.semicolon, [';'])] := by
    rw [Piece.code_append, Piece.code_append]
    rfl
  rw [Code.Differs, h.pieces, h.pieces_respell hrespells, hcode, hcode, eq_iff_iff]
  exact getElem?_append_ne_iff hrespells.matchAll.code.length_eq.symm _ i

/-- A respelled text is read as the statement that it was, if what is respelled in it is free and in no
import. -/
theorem respell (hfree : ∀ i, (Piece.code ps)[i]? ≠ (Piece.code qs)[i]? →
      (Code.ofText ("<?php\n" ++ t ++ ";")).IsFree i)
    (himports : s.Everywhere (Parser.ImportsFree (.ofText ("<?php\n" ++ t ++ ";")) fun i =>
      (Piece.code ps)[i]? ≠ (Piece.code qs)[i]?)) :
    ∃ s', ReadAlone (Piece.print qs) s' qs ∧ s'.bare = s.bare ∧ s'.doc? = s.doc? := by
  have hmatch := h.matchAll_respell hrespells
  have hlen : (Piece.code qs).length = (Piece.code ps).length := hrespells.matchAll.code.length_eq.symm
  have ho : (Code.ofText ("<?php\n" ++ t ++ ";")).Ordered := Code.ordered_ofTokens _ _
  have hcode := Code.respelled_of_matchAll hmatch (by rw [h.differs_respell hrespells]; exact hfree)
  rw [h.differs_respell hrespells] at hcode
  have hfine : Parser.Fine (.ofText ("<?php\n" ++ t ++ ";")) (fun i => (Piece.code ps)[i]? ≠ (Piece.code qs)[i]?)
      (Parser.statement (.ofText ("<?php\n" ++ t ++ ";")) ((Piece.code ps).length + 2) 0).single := by
    rw [h.read]
    refine ⟨nofun, fun s' hs' => ?_⟩
    obtain rfl := List.mem_singleton.mp hs'
    exact himports
  obtain ⟨hnext, hvalue⟩ := Parser.statement_like ho hcode _ 0 hfine
  have herrors := (Parser.statement_clears ho hcode _).clears 0 hfine
  have hdoc := Parser.doc?_statement (.ofText ("<?php\n" ++ Piece.print qs ++ ";")) ((Piece.code ps).length + 1) 0
  obtain ⟨hfirst, hdoc'⟩ := StandsAlone.eq_node h
  rw [h.read] at hnext hvalue herrors
  rw [Code.leadingDoc?_of_matchAll hmatch, hcode.tokenIndex, ← hfirst, ← hdoc'] at hdoc
  generalize hs' : Parser.statement (.ofText ("<?php\n" ++ Piece.print qs ++ ";"))
    ((Piece.code ps).length + 2) 0 = found at hnext hvalue herrors hdoc
  obtain ⟨s', next, errors⟩ := found
  dsimp only at hnext hvalue hdoc
  obtain rfl : errors = [] := herrors rfl
  refine ⟨s', ⟨h.pieces_respell hrespells, rfl, ?_, ?_, hlen ▸ h.pos, ?_, ?_⟩, hvalue, hdoc⟩
  · rw [Code.matching_of_matchAll hmatch]
    exact h.faults
  · rw [Parser.isNamespaceHeader_respelled hcode]
    exact h.header
  · rw [← Statement.bare_stop, hvalue, Statement.bare_stop, h.stop, hrespells.matchAll.length_eq]
  · rw [hlen, hs', hnext]

end Respell
end ReadAlone

theorem SourceFile.kind?_of_matchAll {t t' : Text} (h : Piece.MatchAll (pieces t) (pieces t')) (i : Nat) :
    (parse t').kind? i = (parse t).kind? i ∨ ∃ kind, (parse t).kind? i = some kind ∧ kind.isName ∧
      (parse t').kind? i = some .nameFullyQualified := by
  rw [kind?_parse, kind?_parse]
  rcases h.getElem? i with ⟨hnone, hnone'⟩ | ⟨p, q, hp, hq, hmatches⟩
  · rw [hnone, hnone']
    exact .inl rfl
  · rw [hp, hq]
    rcases hmatches with rfl | ⟨hname, hfull⟩ | ⟨hdoc, hdoc'⟩
    · exact .inl rfl
    · exact .inr ⟨p.1, rfl, hname, congrArg some hfull⟩
    · exact .inl (congrArg some (hdoc'.trans hdoc.symm))

/-- Respelled text stands alone as the statement that it was, if what is respelled in it is free and in
no import. -/
theorem StandsAlone.respell {t : Text} {s : Statement} {ps qs : List Piece} (h : StandsAlone t s)
    (hread : ReadAlone t s ps) (hrespells : Lexer.Respells ps qs)
    (hfree : ∀ i, (Piece.code ps)[i]? ≠ (Piece.code qs)[i]? →
      (Code.ofText ("<?php\n" ++ t ++ ";")).IsFree i)
    (himports : s.Everywhere (Parser.ImportsFree (.ofText ("<?php\n" ++ t ++ ";")) fun i =>
      (Piece.code ps)[i]? ≠ (Piece.code qs)[i]?)) :
    ∃ s', StandsAlone (Piece.print qs) s' ∧ s'.bare = s.bare := by
  obtain ⟨s', hread', hbare, hdoc⟩ := hread.respell hrespells hfree himports
  have hmatch := hread.matchAll_respell hrespells
  have hfirst : s'.first = s.first := by rw [← Statement.bare_first, hbare, Statement.bare_first]
  have hstop : s'.stop = s.stop := by rw [← Statement.bare_stop, hbare, Statement.bare_stop]
  refine ⟨s', hread'.standsAlone ?_ ?_ ?_ ?_ ?_, hbare⟩
  · rw [hdoc, hfirst]
    exact h.start
  · have hends := h.ends
    rw [hstop]
    rcases SourceFile.kind?_of_matchAll hmatch (s.stop - 1) with hsame | ⟨kind, hname, hisName, -⟩
    · rw [alone, hsame]
      exact hends
    · rw [alone, hname] at hends
      cases kind <;> first | (cases hisName; done) | cases hends
  · rw [hfirst]
    rcases SourceFile.kind?_of_matchAll hmatch s.first with hsame | ⟨kind, -, -, hfull⟩
    · rw [alone, hsame]
      exact h.begins
    · rw [alone, hfull]
      rfl
  · intro name? token? braced hspace
    have hkind := congrArg Statement.kind hbare
    rw [Statement.bare_kind, Statement.bare_kind, hspace] at hkind
    cases hs : s.kind with
    | space => exact h.space _ _ _ hs
    | _ => rw [hs] at hkind; cases hkind
  · have hhalts := h.halts
    rw [alone, SourceFile.all_tokens_iff] at hhalts ⊢
    intro q hq hhalt
    obtain ⟨p, hp, hmatches⟩ := hmatch.exists_of_mem hq
    rcases hmatches with rfl | ⟨-, hfull⟩ | ⟨-, hdoc⟩
    · exact hhalts q hp hhalt
    · rw [hfull] at hhalt
      cases hhalt
    · rw [hdoc] at hhalt
      cases hhalt

end NamespaceMigration
