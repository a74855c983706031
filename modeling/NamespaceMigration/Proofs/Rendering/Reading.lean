import NamespaceMigration.Proofs.Lexing.Joining
import NamespaceMigration.Proofs.Relocation.Blocks
import NamespaceMigration.Proofs.Relocation.Pieces
import NamespaceMigration.Proofs.Rewriting.Qualified
import NamespaceMigration.Proofs.Statements.Outline
import NamespaceMigration.Statement.Basic

/-! Statements in a row are read one by one. -/
namespace NamespaceMigration

section Rows

open Lexer (Lexes Closed isSpace runLength)

/-- The code of one statement, the statement if it is read from the first piece of it on, and the
blanks that come before it in a row. -/
structure Part where
  lead : Text
  content : List Piece
  statement : Statement

namespace Part

/-- Code that can stand in a row: it begins after blanks and ends with the end of a statement. -/
structure IsClosed (part : Part) : Prop where
  lead : part.lead.all isSpace
  closed : Closed part.content
  visible : (Piece.print part.content).head?.any isSpace = false
  ends : ∃ init q, part.content = init ++ [q] ∧ q.1.isStop

def blanks (w : Text) : List Piece := if w.isEmpty then [] else [(.whitespace, w)]

/-- Parts in a row, each with a line of its own. -/
def row (gap : Text) : List Part → List Piece
  | [] => blanks gap
  | part :: parts => blanks (gap ++ part.lead) ++ part.content ++ row ['\n'] parts

/-- A file that is a row of parts. -/
def file (parts : List Part) : List Piece := (.openTag, "<?php\n") :: row [] parts

@[simp] theorem print_blanks (w : Text) : Piece.print (blanks w) = w := by
  cases w <;> simp [blanks]

theorem print_row (gap : Text) (parts : List Part) : Piece.print (row gap parts) =
    gap ++ parts.flatMap fun part => part.lead ++ Piece.print part.content ++ ['\n'] := by
  induction parts generalizing gap with
  | nil => simp [row]
  | cons part parts ih =>
    rw [row, Piece.print_append, Piece.print_append, print_blanks, ih, List.flatMap_cons]
    simp only [List.append_assoc]

theorem lexes_blanks {w : Text} {ps : List Piece} (hw : w.all isSpace)
    (hps : (Piece.print ps).head?.any isSpace = false) (h : Lexes .between ps) :
    Lexes .between (blanks w ++ ps) := by
  cases w with
  | nil => exact h
  | cons c w =>
    rw [List.all_cons, Bool.and_eq_true] at hw
    refine .cons (by simp) ?_ h
    change Lexer.scanCode none (c :: (w ++ Piece.print ps)) = _
    rw [Lexer.scanCode, if_pos hw.1, Lexer.runLength_append hw.2 hps, List.length_cons, Nat.add_comm]

/-- The pieces of the parts that a row begins with. -/
def rowHead (gap : Text) : List Part → List Piece
  | [] => []
  | part :: parts => blanks (gap ++ part.lead) ++ part.content ++ rowHead ['\n'] parts

/-- The blanks after the parts that a row begins with. -/
def gapAfter (gap : Text) (parts : List Part) : Text := if parts.isEmpty then gap else ['\n']

theorem gapAfter_cons (gap : Text) (part : Part) (parts : List Part) :
    gapAfter gap (part :: parts) = gapAfter ['\n'] parts := by
  cases parts <;> rfl

theorem row_append (gap : Text) (pre rest : List Part) :
    row gap (pre ++ rest) = rowHead gap pre ++ row (gapAfter gap pre) rest := by
  induction pre generalizing gap with
  | nil => rfl
  | cons part pre ih =>
    rw [List.cons_append, row, ih, rowHead, gapAfter_cons]
    simp only [List.append_assoc]

theorem row_eq (gap : Text) (parts : List Part) : row gap parts = rowHead gap parts ++ blanks (gapAfter gap parts) := by
  have hrow := row_append gap parts []
  rwa [List.append_nil] at hrow

/-- The pieces that a row begins with are the tokens of its text, whatever comes after them. -/
theorem lexes_rowHead {gap : Text} {parts : List Part} {rest : List Piece} (hgap : gap.all isSpace)
    (h : ∀ part ∈ parts, part.IsClosed) (hrest : Lexes .between rest) :
    Lexes .between (rowHead gap parts ++ rest) := by
  induction parts generalizing gap with
  | nil => exact hrest
  | cons part parts ih =>
    rw [List.forall_mem_cons] at h
    obtain ⟨init, q, hq, -⟩ := h.1.ends
    have hnext : Lexes .between (rowHead ['\n'] parts ++ rest) := ih (by decide) h.2
    have hrest := h.1.closed .between _ ⟨rfl, rfl, rfl⟩ hnext
    rw [rowHead, List.append_assoc, List.append_assoc]
    refine lexes_blanks ?_ ?_ hrest
    · rw [List.all_append, hgap, h.1.lead, Bool.and_self]
    · have hvisible := h.1.visible
      have hne : Piece.print part.content ≠ [] := by
        have := hrest.ne_nil q (by simp [hq])
        rw [hq, Piece.print_append]
        simp [this]
      rw [Piece.print_append, List.head?_append_of_ne_nil _ hne]
      exact hvisible

theorem gapAfter_isSpace {gap : Text} (hgap : gap.all isSpace) (parts : List Part) :
    (gapAfter gap parts).all isSpace := by
  cases parts with
  | nil => exact hgap
  | cons part parts => rfl

theorem lexes_row {gap : Text} {parts : List Part} (hgap : gap.all isSpace)
    (h : ∀ part ∈ parts, part.IsClosed) : Lexes .between (row gap parts) := by
  have hblanks := lexes_blanks (gapAfter_isSpace hgap parts) rfl (.nil .between)
  rw [List.append_nil] at hblanks
  rw [row_eq]
  exact lexes_rowHead hgap h hblanks

theorem lexes_file {parts : List Part} (h : ∀ part ∈ parts, part.IsClosed) :
    Lexes .initial (file parts) :=
  .cons (by decide) rfl (lexes_row rfl h)

theorem pieces_file {parts : List Part} (h : ∀ part ∈ parts, part.IsClosed) :
    Lexer.pieces (Piece.print (file parts)) = file parts := Lexer.pieces_print (lexes_file h)

end Part

end Rows

open Lexer (pieces)
open NamespaceMigration.Parser (manyUntil Parsed)

namespace Piece

theorem place_append (offset : Nat) (ps qs : List Piece) :
    place offset (ps ++ qs) = place offset ps ++ place (offset + Text.byteSize (print ps)) qs := by
  induction ps generalizing offset with
  | nil => rfl
  | cons p ps ih =>
    rw [List.cons_append, place, ih, place, print_cons, Text.byteSize_append, Nat.add_assoc]
    rfl

end Piece

namespace SourceFile

variable {t : Text} {before ps after : List Piece}

theorem tokenRange_pieces {p : Piece} (ht : pieces t = before ++ p :: after) :
    (parse t).tokenRange before.length = ⟨Text.byteSize (Piece.print before),
      Text.byteSize (Piece.print before) + Text.byteSize p.2⟩ := by
  have htoken : (parse t).tokens[before.length]? =
      some ⟨p.1, p.2, Text.byteSize (Piece.print before)⟩ := by
    rw [tokens_parse, Lexer.tokenize_eq_place, ht, Piece.place_append, Nat.zero_add,
      List.getElem?_append_right (by rw [Piece.length_place]), Piece.length_place, Nat.sub_self]
    rfl
  exact tokenRange_eq htoken

/-- A statement over some pieces of a text, with the comment that documents it, is their text. -/
theorem rangeWithDoc_pieces (ht : pieces t = before ++ ps ++ after) {s : Statement}
    (hstart : s.doc?.getD s.first = before.length) (hlt : s.first < s.stop)
    (hstop : s.stop = before.length + ps.length) (hne : ps ≠ []) :
    ((parse t).rangeWithDoc s).of t = Piece.print ps := by
  have hrange : (parse t).rangeWithDoc s = ⟨((parse t).tokenRange before.length).start,
      ((parse t).tokenRange (before.length + (ps.length - 1))).stop⟩ := by
    have hpos := List.length_pos_iff.mpr hne
    have hlast : s.stop - 1 = before.length + (ps.length - 1) := by omega
    rw [rangeWithDoc, range, if_neg (Nat.not_le.mpr hlt), hlast, ← hstart]
    cases s.doc? <;> rfl
  have hfirst : ((parse t).tokenRange before.length).start =
      Text.byteSize (Piece.print before) := by
    obtain ⟨p, rest, rfl⟩ := List.exists_cons_of_ne_nil hne
    have hhead : pieces t = before ++ p :: (rest ++ after) := by rw [ht, List.append_assoc]; rfl
    rw [tokenRange_pieces hhead]
  have hend : ((parse t).tokenRange (before.length + (ps.length - 1))).stop =
      Text.byteSize (Piece.print before) + Text.byteSize (Piece.print ps) := by
    have hsplit := List.dropLast_append_getLast hne
    have hlast : pieces t = (before ++ ps.dropLast) ++ ps.getLast hne :: after := by
      conv_lhs => rw [ht, ← hsplit]
      simp only [List.append_assoc, List.singleton_append]
    rw [← List.length_dropLast, ← List.length_append, tokenRange_pieces hlast]
    conv_rhs => rw [← hsplit]
    simp only [Piece.print_append, Piece.print_cons, Piece.print_nil, List.append_nil,
      Text.byteSize_append, Nat.add_assoc]
  rw [hrange, hfirst, hend, TextRange.of]
  conv_lhs => rw [← Lexer.print_pieces t, ht, Piece.print_append, Piece.print_append]
  exact Text.slice_append _ _ _

end SourceFile

namespace Code

section At

variable {t : Text} {before ps after : List Piece} (ht : pieces t = before ++ ps ++ after)
include ht

theorem piece_at {i : Nat} {p : Piece} (h : (Piece.code ps)[i]? = some p) :
    (ofText t).kind? ((Piece.code before).length + i) = some p.1 ∧
      (ofText t).text ((Piece.code before).length + i) = p.2 := by
  have hi := (List.getElem?_eq_some_iff.mp h).1
  rw [kind?_ofText, text_ofText, getElem?_stretch ht hi, h]
  exact ⟨rfl, rfl⟩

theorem tokenIndex_at {i m : Nat} (h : (Piece.places 0 ps)[i]? = some m) :
    (ofText t).tokenIndex ((Piece.code before).length + i) = before.length + m := by
  have hi := (List.getElem?_eq_some_iff.mp h).1
  rw [Piece.length_places] at hi
  obtain ⟨m', hm', hindex⟩ := tokenIndex_stretch ht hi
  rw [h, Option.some.injEq] at hm'
  rw [hindex, hm']

end At

theorem token_at {t : Text} {before after : List Piece} {p : Piece}
    (ht : pieces t = before ++ p :: after) (hp : p.1.isTrivia = false) :
    (ofText t).kind? (Piece.code before).length = some p.1 ∧
      (ofText t).text (Piece.code before).length = p.2 ∧
      (ofText t).tokenIndex (Piece.code before).length = before.length := by
  have ht' : pieces t = before ++ [p] ++ after := by rw [ht, List.append_assoc]; rfl
  have hcode : (Piece.code [p])[0]? = some p := by rw [Piece.code_cons, hp]; rfl
  have hplaces : (Piece.places 0 [p])[0]? = some 0 := by rw [Piece.places, hp]; rfl
  obtain ⟨hkind, htext⟩ := piece_at ht' hcode
  exact ⟨hkind, htext, tokenIndex_at ht' hplaces⟩

end Code

namespace Piece

theorem places_first {p : Piece} (hp : p.1.isTrivia = false) (k : Nat) (ps : List Piece) :
    (places k (p :: ps))[0]? = some k := by
  rw [places, hp]
  rfl

theorem places_last {q : Piece} (hq : q.1.isTrivia = false) (ps : List Piece) :
    (places 0 (ps ++ [q]))[(code (ps ++ [q])).length - 1]? = some ((ps ++ [q]).length - 1) := by
  have hcode : code [q] = [q] := by
    rw [code_cons, hq]
    rfl
  have hplaces : places ps.length [q] = [ps.length] := by
    rw [places, hq]
    rfl
  rw [places_append, code_append, hcode, List.length_append, List.length_append, List.length_singleton,
    Nat.add_sub_cancel, Nat.add_sub_cancel, Nat.zero_add, ← length_places 0 ps, hplaces,
    List.getElem?_append_right (Nat.le_refl _), Nat.sub_self]
  rfl

end Piece

/-- A statement without a comment over the whole of some pieces. -/
theorem Parser.node_at {t : Text} {before ps after : List Piece}
    (ht : pieces t = before ++ ps ++ after) (hdoc : (Code.ofText t).leadingDoc? before.length = none)
    (hfirst : (Piece.places 0 ps)[0]? = some 0)
    (hlast : (Piece.places 0 ps)[(Piece.code ps).length - 1]? = some (ps.length - 1))
    {found : Parsed (StatementKind × List Statement)}
    (hnext : found.next = (Piece.code (before ++ ps)).length) :
    (node (.ofText t) (Piece.code before).length found).value =
      ⟨found.value.1, before.length, before.length + ps.length, none, found.value.2⟩ := by
  have hpos : 0 < (Piece.code ps).length := by
    rw [← Piece.length_places 0]
    exact (List.getElem?_eq_some_iff.mp hfirst).1
  have hlength : 0 < ps.length := Nat.lt_of_lt_of_le hpos (List.length_filter_le _ _)
  have hstart := Code.tokenIndex_at ht hfirst
  have hend := Code.tokenIndex_at ht hlast
  rw [Nat.add_zero, Nat.add_zero] at hstart
  rw [Piece.code_append, List.length_append] at hnext
  have hpred : found.next - 1 = (Piece.code before).length + ((Piece.code ps).length - 1) := by omega
  rw [node]
  dsimp only
  rw [if_neg (by omega), hpred, hstart, hend, hdoc]
  congr 1
  omega

namespace Part

theorem code_blanks (w : Text) : Piece.code (blanks w) = [] := by cases w <;> rfl

/-- Pieces up to an opening tag or up to the end of a statement. -/
def Ended (before : List Piece) : Prop :=
  ∃ init q, before = init ++ [q] ∧ (q.1 = .openTag ∨ q.1.isStop)

/-- No comment before the end of a statement documents what comes after it. -/
theorem leadingDoc?_eq_none {t w : Text} {before rest : List Piece}
    (ht : pieces t = before ++ blanks w ++ rest) (h : Ended before) :
    (Code.ofText t).leadingDoc? (before ++ blanks w).length = none := by
  obtain ⟨init, q, rfl, hq⟩ := h
  have hdirect : (Code.ofText t).leadingDoc? (init.length + 1) = none := by
    have hpiece : (pieces t)[init.length]? = some q := by
      rw [ht, List.append_assoc, List.append_assoc, List.getElem?_append_right (Nat.le_refl _),
        Nat.sub_self]
      rfl
    rw [Code.leadingDoc?_succ, hpiece]
    rcases hq with hq | hq
    · rw [Option.map_some, hq]
    · cases hkind : q.1 <;> simp_all [TokenKind.isStop]
  cases w with
  | nil => simpa [blanks] using hdirect
  | cons c w =>
    have hpiece : (pieces t)[init.length + 1]? = some (.whitespace, c :: w) := by
      rw [ht, List.append_assoc, List.getElem?_append_right (by simp)]
      simp [blanks]
    rw [show (init ++ [q] ++ blanks (c :: w)).length = init.length + 1 + 1 by simp [blanks],
      Code.leadingDoc?_succ, hpiece]
    exact hdirect

/-- What the parser finds at a part of a text that begins after some pieces. -/
def readAfter (part : Part) (before : List Piece) : Parsed Statement :=
  ⟨part.statement.move before.length, (Piece.code (before ++ part.content)).length, []⟩

/-- The first word of a part goes on with no statement before it. -/
def Starts (part : Part) : Prop :=
  ∃ p rest, Piece.code part.content = p :: rest ∧ p.1.isContinuation = false

/-- A part that is read as its statement wherever it stands in a row. -/
structure IsRead (part : Part) : Prop extends part.IsClosed where
  first : part.statement.doc?.getD part.statement.first = 0
  first_lt : part.statement.first < part.content.length
  last : part.statement.stop = part.content.length
  start : part.Starts
  plain : ∀ name? token? braced, part.statement.kind ≠ .space name? token? braced
  header : ∀ p q rest, Piece.code part.content = p :: q :: rest → p.1 = .kwNamespace →
    q.1 ≠ .ident ∧ q.1 ≠ .nameQualified ∧ q.1 ≠ .leftBrace
  reads : ∀ t before after, pieces t = before ++ part.content ++ after →
    (Code.ofText t).leadingDoc? before.length = none →
    (∀ p, (Piece.code after).head? = some p → p.1.isContinuation = false) →
    Parser.statement (.ofText t) ((Code.ofText t).size + 1) (Piece.code before).length =
      part.readAfter before

/-- A statement of a text that a part of it is read as. -/
def Stands (t : Text) (part : Part) (s : Statement) : Prop :=
  ∃ before after, pieces t = before ++ part.content ++ after ∧ s = part.statement.move before.length

/-- The statements of a row after `n` pieces, each at its place. -/
def rowStatements (n : Nat) (gap : Text) : List Part → List Statement
  | [] => []
  | part :: parts =>
    part.statement.move (n + (blanks (gap ++ part.lead)).length) ::
      rowStatements (n + (blanks (gap ++ part.lead)).length + part.content.length) ['\n'] parts

theorem rowStatements_cons (before : List Piece) (gap : Text) (part : Part) (parts : List Part) :
    rowStatements before.length gap (part :: parts) =
      part.statement.move (before ++ blanks (gap ++ part.lead)).length ::
        rowStatements (before ++ blanks (gap ++ part.lead) ++ part.content).length ['\n'] parts := by
  simp only [rowStatements, List.length_append]

theorem IsClosed.ended {part : Part} (h : part.IsClosed) (before : List Piece) :
    Ended (before ++ part.content) := by
  obtain ⟨init, q, hq, hstop⟩ := h.ends
  exact ⟨before ++ init, q, by rw [hq, List.append_assoc], .inr hstop⟩

/-- A part that starts with code is read as its statement if that is what starts there. -/
theorem IsClosed.read_of_shape {part : Part} (h : part.IsClosed) {kind : StatementKind}
    (hpart : part.statement = ⟨kind, 0, part.content.length, none, []⟩)
    (hfirst : ∃ p rest, part.content = p :: rest ∧ p.1.isTrivia = false) {t : Text}
    {before after : List Piece} (ht : pieces t = before ++ part.content ++ after)
    (hdoc : (Code.ofText t).leadingDoc? before.length = none)
    (hshape : ∀ inner, Parser.shape (.ofText t) inner (Piece.code before).length =
      ⟨(kind.move before.length, []), (Piece.code (before ++ part.content)).length, []⟩) :
    Parser.statement (.ofText t) ((Code.ofText t).size + 1) (Piece.code before).length =
      part.readAfter before := by
  obtain ⟨p, rest, hp, htrivia⟩ := hfirst
  obtain ⟨init, q, hq, hstop⟩ := h.ends
  have hlast : q.1.isTrivia = false := by
    cases hkind : q.1 <;> simp_all [TokenKind.isStop, TokenKind.isTrivia]
  have hnode : (Parser.node (.ofText t) (Piece.code before).length ⟨(kind.move before.length, []),
      (Piece.code (before ++ part.content)).length, []⟩).value =
        ⟨kind.move before.length, before.length, before.length + part.content.length, none, []⟩ :=
    Parser.node_at ht hdoc (by rw [hp]; exact Piece.places_first htrivia 0 rest)
      (by rw [hq]; exact Piece.places_last hlast init) rfl
  rw [Parser.statement, hshape, readAfter, hpart, Statement.move]
  exact congrArg (⟨·, _, []⟩ : Statement → Parsed Statement) hnode

section Row

variable {t gap : Text} {before : List Piece} {part : Part} {parts : List Part}

theorem code_getLast? (h : part.IsClosed) :
    ∃ init q, Piece.code part.content = init ++ [q] ∧ q.1.isStop := by
  obtain ⟨init, q, hq, hstop⟩ := h.ends
  refine ⟨Piece.code init, q, ?_, hstop⟩
  rw [hq, Piece.code_append]
  cases hkind : q.1 <;> simp_all [TokenKind.isStop, Piece.code_cons, TokenKind.isTrivia]

/-- No part is taken for the header of a namespace. -/
theorem IsRead.isNamespaceHeader (h : part.IsRead) {after : List Piece}
    (ht : pieces t = before ++ part.content ++ after) :
    Parser.isNamespaceHeader (.ofText t) (Piece.code before).length = false := by
  obtain ⟨p, rest, hcode, -⟩ := h.start
  have hkind : (Code.ofText t).kind? (Piece.code before).length = some p.1 := by
    have := Code.getElem?_stretch ht (i := 0) (by rw [hcode]; exact Nat.succ_pos _)
    rw [Nat.add_zero, hcode] at this
    rw [Code.kind?_ofText, this]
    rfl
  by_cases hp : p.1 = .kwNamespace
  · cases rest with
    | nil =>
      obtain ⟨init, q, hlast, hstop⟩ := code_getLast? h.toIsClosed
      rw [hcode] at hlast
      have : p = q := by cases init <;> simp_all
      rw [← this, hp] at hstop
      cases hstop
    | cons q rest =>
      obtain ⟨h1, h2, h3⟩ := h.header p q rest hcode hp
      have hnext : (Code.ofText t).kind? ((Piece.code before).length + 1) = some q.1 := by
        have := Code.getElem?_stretch ht (i := 1) (by rw [hcode]; simp)
        rw [hcode] at this
        rw [Code.kind?_ofText, this]
        rfl
      simp [Parser.isNamespaceHeader, Code.isAtAny, hnext, h1, h2, h3]
  · simp [Parser.isNamespaceHeader, Code.isAt, hkind, hp]

theorem head?_rowHead {rest : List Piece} (h : ∀ part ∈ parts, part.Starts)
    (hrest : ∀ p, (Piece.code rest).head? = some p → p.1.isContinuation = false) :
    ∀ p, (Piece.code (rowHead gap parts ++ rest)).head? = some p → p.1.isContinuation = false := by
  cases parts with
  | nil => exact hrest
  | cons part parts =>
    obtain ⟨p, rest, hcode, hp⟩ := h part (by simp)
    simp [rowHead, code_blanks, hcode, hp]

theorem head?_blanks (w : Text) : ∀ p, (Piece.code (blanks w)).head? = some p → p.1.isContinuation = false := by
  rw [code_blanks]
  intro p hp
  cases hp

theorem rowHead_cons {rest : List Piece} (ht : pieces t = before ++ rowHead gap (part :: parts) ++ rest) :
    pieces t = (before ++ blanks (gap ++ part.lead) ++ part.content) ++ rowHead ['\n'] parts ++ rest := by
  rw [ht, rowHead]
  simp only [List.append_assoc]

theorem stands_rowStatements {rest : List Piece} (ht : pieces t = before ++ rowHead gap parts ++ rest) :
    List.Forall₂ (Stands t) parts (rowStatements before.length gap parts) := by
  induction parts generalizing before gap with
  | nil => exact .nil
  | cons part parts ih =>
    have hnext := rowHead_cons ht
    rw [rowStatements_cons]
    exact .cons ⟨_, _, hnext.trans (List.append_assoc _ _ _), rfl⟩ (ih hnext)

theorem IsRead.read_between (h : part.IsRead) {lead : Text} {after : List Piece}
    (ht : pieces t = before ++ blanks lead ++ part.content ++ after) (hbefore : Ended before)
    (hnext : ∀ p, (Piece.code after).head? = some p → p.1.isContinuation = false) :
    Parser.isNamespaceHeader (.ofText t) (Piece.code before).length = false ∧
      (Piece.code before).length < (Code.ofText t).size ∧
      Parser.statement (.ofText t) ((Code.ofText t).size + 1) (Piece.code before).length =
        part.readAfter (before ++ blanks lead) := by
  have hcode : Piece.code (before ++ blanks lead) = Piece.code before := by
    rw [Piece.code_append, code_blanks, List.append_nil]
  obtain ⟨p, rest, hp, -⟩ := h.start
  have hsize := Code.size_stretch ht
  rw [hcode, hp, List.length_cons] at hsize
  refine ⟨hcode ▸ h.isNamespaceHeader ht, by omega, ?_⟩
  have hdoc := leadingDoc?_eq_none (ht.trans (List.append_assoc ..)) hbefore
  exact hcode ▸ h.reads t _ _ ht hdoc hnext

/-- A loop over parts reads their statements without problems, and goes on after them. -/
theorem manyUntil_rowHead {item : Nat → Parsed Statement} {stop : Nat → Bool}
    (hitem : ∀ p, Parser.isNamespaceHeader (.ofText t) p = false →
      item p = Parser.statement (.ofText t) ((Code.ofText t).size + 1) p)
    (hstop : ∀ p, Parser.isNamespaceHeader (.ofText t) p = false → stop p = (Code.ofText t).atEnd p)
    (h : ∀ part ∈ parts, part.IsRead) {rest : List Piece} (ht : pieces t = before ++ rowHead gap parts ++ rest)
    (hbefore : Ended before)
    (hnext : ∀ p, (Piece.code rest).head? = some p → p.1.isContinuation = false) {ss : List Statement}
    (hrest : ∀ fuel, (Code.ofText t).size < (Piece.code (before ++ rowHead gap parts)).length + fuel →
      manyUntil item stop fuel (Piece.code (before ++ rowHead gap parts)).length = ⟨ss, (Code.ofText t).size, []⟩)
    {fuel : Nat} (hfuel : (Code.ofText t).size < (Piece.code before).length + fuel) :
    manyUntil item stop fuel (Piece.code before).length =
      ⟨rowStatements before.length gap parts ++ ss, (Code.ofText t).size, []⟩ := by
  induction parts generalizing before gap fuel with
  | nil =>
    rw [rowHead, List.append_nil] at hrest
    exact hrest fuel hfuel
  | cons part parts ih =>
    rw [List.forall_mem_cons] at h
    have hrow := rowHead_cons ht
    have hbetween := hrow.trans (List.append_assoc _ _ _)
    have hstarts : ∀ p, (Piece.code (rowHead ['\n'] parts ++ rest)).head? = some p → p.1.isContinuation = false :=
      head?_rowHead (fun part hpart => (h.2 part hpart).start) hnext
    obtain ⟨hheader, hlt, hread⟩ := h.1.read_between hbetween hbefore hstarts
    obtain ⟨fuel, rfl⟩ := Nat.exists_eq_add_of_le' (show 1 ≤ fuel by omega)
    have hgo : stop (Piece.code before).length = false := by
      rw [hstop _ hheader, Code.atEnd, decide_eq_false_iff_not]
      omega
    have hpos : 0 < (Piece.code part.content).length := by
      obtain ⟨p, rest, hp, -⟩ := h.1.start
      rw [hp]
      exact Nat.succ_pos _
    have hlength : (Piece.code (before ++ blanks (gap ++ part.lead) ++ part.content)).length =
        (Piece.code before).length + (Piece.code part.content).length := by
      rw [Piece.code_append, Piece.code_append, code_blanks, List.append_nil, List.length_append]
    have hwhole : before ++ rowHead gap (part :: parts) =
        before ++ blanks (gap ++ part.lead) ++ part.content ++ rowHead ['\n'] parts := by
      rw [rowHead]
      simp only [List.append_assoc]
    have hlater := ih h.2 hrow (h.1.toIsClosed.ended _) (hwhole ▸ hrest)
      (show (Code.ofText t).size < (Piece.code _).length + fuel by omega)
    rw [manyUntil, if_neg (by rw [hgo]; simp), hitem _ hheader, hread]
    dsimp only [readAfter]
    rw [hlater, rowStatements_cons]
    rfl

/-- A loop over a row reads the statements of its parts and has no problems. -/
theorem manyUntil_row {item : Nat → Parsed Statement} {stop : Nat → Bool}
    (hitem : ∀ p, Parser.isNamespaceHeader (.ofText t) p = false →
      item p = Parser.statement (.ofText t) ((Code.ofText t).size + 1) p)
    (hstop : ∀ p, Parser.isNamespaceHeader (.ofText t) p = false →
      stop p = (Code.ofText t).atEnd p)
    (h : ∀ part ∈ parts, part.IsRead) (ht : pieces t = before ++ row gap parts)
    (hbefore : Ended before) {fuel : Nat}
    (hfuel : (Code.ofText t).size < (Piece.code before).length + fuel) :
    manyUntil item stop fuel (Piece.code before).length =
      ⟨rowStatements before.length gap parts, (Code.ofText t).size, []⟩ := by
  rw [row_eq, ← List.append_assoc] at ht
  have hsize : (Code.ofText t).size = (Piece.code (before ++ rowHead gap parts)).length := by
    rw [Code.size_ofText, ht, Piece.code_append, code_blanks, List.append_nil]
  rw [← List.append_nil (rowStatements _ _ _)]
  refine manyUntil_rowHead hitem hstop h ht hbefore (head?_blanks _) (fun fuel hfuel => ?_) hfuel
  obtain ⟨fuel, rfl⟩ := Nat.exists_eq_add_of_le' (show 1 ≤ fuel by omega)
  have hkind : (Code.ofText t).kind? (Piece.code (before ++ rowHead gap parts)).length = none := by
    rw [Code.kind?_ofText, ht, Piece.code_append, code_blanks, List.append_nil]
    simp
  generalize (Piece.code (before ++ rowHead gap parts)).length = n at *
  have hend : stop n := by
    rw [hstop _ ?_, Code.atEnd, decide_eq_true_iff, hsize]
    simp [Parser.isNamespaceHeader, Code.isAt, hkind]
  rw [manyUntil, if_pos hend, hsize]

end Row

end Part
end NamespaceMigration
