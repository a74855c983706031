import NamespaceMigration.Proofs.Moving.Declared

/-! One declaration at the end of a file. It stands before a line break, from the comment that documents it or its
first word to the sign that ends it, and stays one statement when code is moved. -/
namespace NamespaceMigration

open Lexer (pieces Lexes Closed)
open SourceFile (parse writtenFrom)
open NamespaceMigration.Parser (Parsed isNamespaceHeader statement)

def lineBreak : Piece := (.whitespace, ['\n'])

/-- Pieces that are one statement before the line break at the end of a file. -/
structure IsFinal (ps : List Piece) (s : Statement) : Prop where
  tail : IsTail (ps ++ [lineBreak]) [s]
  ends : ∃ init q, ps = init ++ [q] ∧ q.1.isStop
  start : s.start = 0
  first_lt : s.first < s.stop
  stop : s.stop = ps.length

theorem Piece.code_lineBreak (ps : List Piece) : code (ps ++ [lineBreak]) = code ps := by
  rw [code_append]
  exact List.append_nil _

theorem SourceFile.parse_of_single {t : Text} {s : Statement} (hfaults : (Code.ofText t).matching.faults = [])
    (hheader : isNamespaceHeader (.ofText t) 0 = false) (hpos : 0 < (Code.ofText t).size)
    (h : statement (.ofText t) ((Code.ofText t).size + 1) 0 = ⟨s, (Code.ofText t).size, []⟩) :
    (parse t).errors = [] ∧ (parse t).root.children = [s] := by
  have htop := Parser.topStatements_of_single hheader hpos h
  exact ⟨errors_eq_nil_iff.mpr ⟨hfaults, congrArg Parsed.errors htop⟩,
    (children_parse _).trans (congrArg Parsed.value htop)⟩

theorem Piece.Matches.eq {p q : Piece} (h : p.Matches q) (hname : p.1.isName = false) (hdoc : p.1 ≠ .docComment) :
    q = p := by
  rcases h with hsame | ⟨hkind, -⟩ | ⟨hkind, -⟩
  · exact hsame
  · rw [hname] at hkind
    cases hkind
  · exact absurd hkind hdoc

namespace Piece.MatchAll

variable {ps qs : List Piece}

theorem exists_concat {p : Piece} (h : MatchAll (ps ++ [p]) qs) :
    ∃ qs' q, MatchAll ps qs' ∧ p.Matches q ∧ qs = qs' ++ [q] := by
  have hfirst := List.forall₂_take ps.length h
  have hlast := List.forall₂_drop ps.length h
  rw [List.take_left] at hfirst
  rw [List.drop_left] at hlast
  obtain ⟨q, hq, hrest⟩ : ∃ q, p.Matches q ∧ qs.drop ps.length = [q] := by
    generalize qs.drop ps.length = rest at hlast
    cases hlast with
    | cons hq hnil =>
      cases hnil
      exact ⟨_, hq, rfl⟩
  exact ⟨_, q, hfirst, hq, by rw [← hrest, List.take_append_drop]⟩

theorem openTag (h : MatchAll ps qs) (hps : Lexes .between ps) (hqs : Lexes .between qs) :
    MatchAll (Lexer.pieces ("<?php\n" ++ Piece.print ps)) (Lexer.pieces ("<?php\n" ++ Piece.print qs)) := by
  rw [Lexer.pieces_openTag hps, Lexer.pieces_openTag hqs]
  exact .cons (.refl _) h

end Piece.MatchAll

namespace SourceFile.IsCutOut

variable {t : Text} {s : Statement} {p n : Nat} {before ps after : List Piece}
  (h : IsCutOut t s p n before ps after)
include h

/-- Before the line break at the end of a file the declaration is the statement that it was. -/
theorem exists_isFinal (hplain : s.IsPlain) (hfaults : (Code.ofText t).matching.faults = [])
    (hhalts : ∀ p ∈ Lexer.pieces t, p.1 ≠ .kwHaltCompiler) :
    ∃ v : Statement, s = v.move before.length ∧ IsFinal ps v := by
  have hlexes : Lexes .between (ps ++ [lineBreak]) :=
    h.closed .between [lineBreak] ⟨rfl, rfl, rfl⟩ (.cons (by simp) rfl (.nil _))
  have hpieces : Lexer.pieces ("<?php\n" ++ Piece.print (ps ++ [lineBreak])) =
      [(.openTag, "<?php\n".toList)] ++ ps ++ [lineBreak] := Lexer.pieces_openTag hlexes
  have hstarts := h.slice.starts h.covers h.doc rfl
  have hne := h.slice.ne_nil h.covers
  have hpos := h.slice.pos h.covers
  obtain ⟨v, hv, hread⟩ := h.slice.exists_read hfaults h.read (hstarts.imp_right And.right) hpieces rfl hpos
  obtain ⟨first, hfirst, hgoes, hspace⟩ := h.begins
  have hhead : (Piece.code ps).head?.map (·.1) = some first := by
    rw [Code.kind?_ofText, ← h.slice.start] at hfirst
    rw [← hfirst, List.head?_eq_getElem?, ← Code.getElem?_stretch h.slice.pieces hpos, Nat.add_zero]
  have hkind : (Code.ofText ("<?php\n" ++ Piece.print (ps ++ [lineBreak]))).kind? 0 = some first := by
    obtain ⟨piece, hpiece, rfl⟩ := Option.map_eq_some_iff.mp hhead
    rw [List.head?_eq_getElem?] at hpiece
    exact (Code.piece_at hpieces hpiece).1
  have hheader : isNamespaceHeader (.ofText ("<?php\n" ++ Piece.print (ps ++ [lineBreak]))) 0 = false := by
    rw [isNamespaceHeader, Code.isAt, hkind, beq_false_of_ne (by simpa using hspace), Bool.false_and]
  have hsize : 0 < (Code.ofText ("<?php\n" ++ Piece.print (ps ++ [lineBreak]))).size := by
    rw [Code.size_stretch hpieces]
    omega
  have hnone : (Code.ofText ("<?php\n" ++ Piece.print (ps ++ [lineBreak]))).matching.faults = [] := by
    rw [Code.matching_stretch hpieces]
    have hbalanced := h.balanced
    rwa [← List.append_nil ((Piece.code ps).map (·.1)), ← List.nil_append ((Piece.code ps).map (·.1))] at hbalanced
  obtain ⟨herrors, hchildren⟩ := SourceFile.parse_of_single hnone hheader hsize hread
  refine ⟨v, hv, ⟨hlexes, herrors, hchildren, ?_, ?_, ?_, ?_⟩, h.cut.ends, ?_, ?_, ?_⟩
  · rw [List.forall_mem_singleton]
    exact Statement.isPlain_of_move (hv ▸ hplain)
  · intro q hq
    rw [List.head?_append_of_ne_nil _ hne] at hq
    rcases hstarts with ⟨text, rest, rfl⟩ | ⟨hsame, -⟩
    · obtain rfl := Option.some.inj hq
      exact TokenKind.noConfusion
    · obtain ⟨q', rest, rfl, htrivia, -⟩ := h.slice.exists_first h.covers hsame
      obtain rfl := Option.some.inj hq
      intro hblank
      rw [hblank] at htrivia
      cases htrivia
  · intro q hq
    rw [Piece.code_lineBreak] at hq
    rw [hq] at hhead
    have hsame : q.1 = first := Option.some.inj hhead
    rw [hsame]
    exact hgoes
  · intro q hq
    rcases List.mem_append.mp hq with hq | hq
    · exact hhalts q (h.slice.pieces ▸ by simp [hq])
    · rw [List.mem_singleton.mp hq]
      exact TokenKind.noConfusion
  · have hstart := h.slice.first
    rw [hv, Statement.start, Statement.start_move] at hstart
    exact Nat.add_left_cancel hstart.symm
  · have hlt := h.covers.first_lt_stop (Code.ordered_ofTokens _ _)
    rw [hv, Statement.first_move, Statement.stop_move] at hlt
    omega
  · have hstop := h.slice.stop
    rw [hv, Statement.stop_move] at hstop
    exact (Nat.add_left_cancel hstop).symm

end SourceFile.IsCutOut

namespace IsFinal

variable {ps : List Piece} {s : Statement} (h : IsFinal ps s)
include h

theorem ne_nil : ps ≠ [] := by
  obtain ⟨init, q, rfl, -⟩ := h.ends
  simp

theorem text {t : Text} {before : List Piece} (ht : Lexer.pieces t = before ++ (ps ++ [lineBreak])) :
    ((parse t).rangeWithDoc (s.move before.length)).of t = Piece.print ps := by
  have hstart : (s.move before.length).start = before.length := by
    rw [Statement.start, Statement.start_move]
    exact congrArg _ h.start
  have hlt := h.first_lt
  refine SourceFile.rangeWithDoc_pieces (ht.trans (List.append_assoc _ _ _).symm) hstart ?_ ?_ h.ne_nil
  · rw [Statement.first_move, Statement.stop_move]
    omega
  · rw [Statement.stop_move, h.stop]

/-- Without the line break it is a file of its own, too. -/
theorem parse_print : (parse ("<?php\n" ++ Piece.print ps)).errors = [] ∧
    (parse ("<?php\n" ++ Piece.print ps)).root.children = [s.move 1] := by
  obtain ⟨hheader, hpos, hread⟩ := h.tail.statement_eq
  have hends := h.ends
  have hclosed : Closed ps := by
    obtain ⟨init, q, rfl, hstop⟩ := hends
    have hlexes := h.tail.lexes
    rw [List.append_assoc, List.singleton_append] at hlexes
    have hmem {p : Piece} (hp : p ∈ init) : p ∈ init ++ [q] ++ [lineBreak] := by simp [hp]
    exact hlexes.closed ⟨rfl, rfl, rfl⟩ hstop (fun p hp => h.tail.ne_error p (hmem hp))
      fun p hp => h.tail.halts p (hmem hp)
  have hpieces := hclosed.pieces_last
  have hpieces' : Lexer.pieces ("<?php\n" ++ Piece.print (ps ++ [lineBreak])) =
      [(.openTag, "<?php\n".toList)] ++ ps ++ [lineBreak] := Lexer.pieces_openTag h.tail.lexes
  have hcode (after : List Piece) : (Piece.code ([(.openTag, "<?php\n".toList)] ++ ps ++ after)).length =
      (Piece.code ps).length + (Piece.code after).length := by
    rw [Piece.code_append, Piece.code_append, List.length_append, List.length_append]
    exact Nat.add_assoc 0 _ _ ▸ Nat.zero_add _
  have hsize : (Code.ofText ("<?php\n" ++ Piece.print (ps ++ [lineBreak]))).size = (Piece.code ps).length := by
    rw [Code.size_ofText, hpieces', hcode]
    rfl
  have hsize' : (Code.ofText ("<?php\n" ++ Piece.print ps)).size = (Piece.code ps).length := by
    rw [Code.size_ofText, hpieces, hcode]
    rfl
  have hslice : IsSlice ("<?php\n" ++ Piece.print (ps ++ [lineBreak])) (s.move 1) 1 0
      (Code.ofText ("<?php\n" ++ Piece.print (ps ++ [lineBreak]))).size [(.openTag, "<?php\n".toList)] ps
      [lineBreak] := by
    refine ⟨hpieces', rfl, ?_, rfl, ?_⟩
    · rw [Statement.stop_move, h.stop]
      rfl
    · rw [hsize]
      exact Nat.zero_add _
  obtain ⟨v, hv, hread'⟩ := hslice.exists_read h.tail.faults hread
    (.inr (Code.leadingDoc?_openTag hpieces')) hpieces rfl (hsize ▸ hpos)
  obtain rfl := Statement.move_inj s v hv
  have hkind : (Code.ofText ("<?php\n" ++ Piece.print ps)).kind? =
      (Code.ofText ("<?php\n" ++ Piece.print (ps ++ [lineBreak]))).kind? := by
    funext p
    rw [Code.kind?_ofText, Code.kind?_ofText, hpieces, hpieces', Piece.code_append, Piece.code_append _ [lineBreak]]
    rfl
  refine SourceFile.parse_of_single ?_ ?_ (hsize' ▸ hsize ▸ hpos) hread'
  · have hfaults := h.tail.faults
    rw [Code.matching_stretch hpieces'] at hfaults
    rwa [Code.matching_stretch hpieces]
  · rw [isNamespaceHeader, Code.isAt, Code.isAtAny, hkind]
    exact hheader

/-- A step leaves it one statement. -/
theorem adapt {t : Text} {renames : Prop} {edits : List TextEdit} (hedits : (parse t).AdaptEdits renames edits)
    {before : List Piece} (ht : Lexer.pieces t = before ++ (ps ++ [lineBreak])) {l : Located}
    (hl : l ∈ (parse t).outline) (hstands : s.move before.length ∈ l.statement.children)
    (hplain : renames → ∀ i, before.length ≤ i → ¬(parse t).ImportsAt i) :
    ∃ qs s', IsFinal qs s' ∧ Piece.print qs ++ ['\n'] = writtenFrom t edits before.length ∧ s'.bare = s.bare := by
  obtain ⟨rs, ss', htail, hmatch, hprint, hbare⟩ :=
    h.tail.adapt hedits ht hl (by rwa [List.forall_mem_singleton]) hplain
  obtain ⟨s', rfl, hsame⟩ := List.map_eq_singleton_iff.mp hbare
  obtain ⟨qs, q, hqs, hq, rfl⟩ := hmatch.exists_concat
  obtain rfl : q = lineBreak := hq.eq rfl TokenKind.noConfusion
  have hfirst : s'.first = s.first := by rw [← Statement.bare_first, hsame, Statement.bare_first]
  have hstop : s'.stop = s.stop := by rw [← Statement.bare_stop, hsame, Statement.bare_stop]
  refine ⟨qs, s', ⟨htail, ?_, ?_, ?_, ?_⟩, ?_, hsame⟩
  · obtain ⟨init, q, rfl, hstop⟩ := h.ends
    obtain ⟨init', q', -, hq, rfl⟩ := hqs.exists_concat
    obtain rfl : q' = q := by
      refine hq.eq ?_ ?_
      · cases hkind : q.1 <;> first | rfl | (rw [hkind] at hstop; cases hstop)
      · intro hdoc
        rw [hdoc] at hstop
        cases hstop
    exact ⟨init', q', rfl, hstop⟩
  · have hdoc := Parser.doc?_of_reading htail.statement_eq.2.2
    have hdoc' := Parser.doc?_of_reading h.tail.statement_eq.2.2
    rw [Statement.first_move, Code.leadingDoc?_of_matchAll (hmatch.openTag h.tail.lexes htail.lexes), hfirst,
      ← Statement.first_move, ← hdoc'] at hdoc
    have hmoved : (s'.move 1).start = (s.move 1).start := by
      rw [Statement.start, Statement.start, hdoc, Statement.first_move, Statement.first_move, hfirst]
    rw [Statement.start, Statement.start, Statement.start_move, Statement.start_move] at hmoved
    exact (Nat.add_left_cancel hmoved).trans h.start
  · rw [hfirst, hstop]
    exact h.first_lt
  · rw [hstop, h.stop, hqs.length_eq]
  · rw [← hprint, Piece.print_append]
    rfl

/-- A class may get another name. -/
theorem rename {kind : ClassKind} {name u : Text} {token : Nat} (hkind : s.kind = .classLike kind name token)
    (hu : Lexer.IsWordOf u) : ∃ before after, ps = before ++ (.ident, name) :: after ∧ before.length = token ∧
      IsFinal (before ++ (.ident, u) :: after) { s with kind := .classLike kind u token } := by
  obtain ⟨init, p, rest, hps, htoken, hname, hgap⟩ := h.tail.exists_name hkind
  have htail := h.tail
  obtain ⟨last, q, rfl, hq⟩ := h.ends
  -- The name is not the sign at the end.
  obtain ⟨rest', hrest⟩ : ∃ rest', rest = rest' ++ [q] ++ [lineBreak] := by
    rcases List.eq_nil_or_concat rest with rfl | ⟨rest, x, rfl⟩
    · cases (List.append_inj' hps rfl).2
    · rw [List.concat_eq_append, ← List.cons_append, ← List.append_assoc] at hps
      obtain ⟨hinit, hx⟩ := List.append_inj' hps rfl
      obtain rfl : lineBreak = x := (List.cons.inj hx).1
      rcases List.eq_nil_or_concat rest with rfl | ⟨rest, y, rfl⟩
      · obtain rfl : q = (.ident, name) := (List.cons.inj (List.append_inj' hinit rfl).2).1
        cases hq
      · rw [List.concat_eq_append, ← List.cons_append, ← List.append_assoc] at hinit
        obtain rfl : q = y := (List.cons.inj (List.append_inj' hinit rfl).2).1
        exact ⟨rest, by simp⟩
  subst hrest
  have hsplit : last ++ [q] = init ++ [p] ++ (.ident, name) :: (rest' ++ [q]) := by
    have hwhole := hps.trans (show _ = init ++ [p] ++ (.ident, name) :: (rest' ++ [q]) ++ [lineBreak] by simp)
    exact List.append_cancel_right hwhole
  refine ⟨init ++ [p], rest' ++ [q], hsplit, htoken, ?_⟩
  rw [hps] at htail
  have hnamed := htail.rename hkind ⟨init, p, rfl, hgap⟩ (hps ▸ hname) hu
  refine ⟨?_, ⟨init ++ [p] ++ (.ident, u) :: rest', q, by simp, hq⟩, h.start, h.first_lt, ?_⟩
  · simpa using hnamed
  · have hstop := h.stop
    rw [hsplit] at hstop
    simpa using hstop

end IsFinal
end NamespaceMigration
