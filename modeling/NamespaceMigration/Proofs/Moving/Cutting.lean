import NamespaceMigration.Proofs.Lexing.Modes
import NamespaceMigration.Proofs.Rendering.Adapted
import NamespaceMigration.Proofs.Statements.ImportRows
import NamespaceMigration.Proofs.Statements.Readings

/-! Statements that are cut out of a file. The tokens of a statement are the same where its text begins a
file, and so it is read there as the statement that it was. -/
namespace NamespaceMigration

open Lexer (pieces Lexes Closed)
open SourceFile (parse)
open TokenKind (IsUse)

namespace Lexer

/-- A word that is a name for itself, and not for what stands before it. -/
def IsOwnWord (p : Piece) : Prop := p.1 = .ident → Word.keywordKind? p.2 = none

theorem nameKind_afresh {last : Option TokenKind} {word : Text}
    (h : IsOwnWord (nameKind last word, word)) : nameKind none word = nameKind last word := by
  by_cases hfull : '\\' ∈ word
  · rw [nameKind, nameKind, if_pos hfull, if_pos hfull]
  · by_cases hlast : last.any TokenKind.makesNextIdent
    · have hident : nameKind last word = .ident := by rw [nameKind, if_neg hfull, if_pos hlast]
      rw [hident, nameKind, if_neg hfull, h hident]
      rfl
    · rw [nameKind, nameKind, if_neg hfull, if_neg hfull, if_neg hlast]
      rfl

theorem scanCode_afresh {last : Option TokenKind} {t : Text} {kind : TokenKind} {n : Nat}
    (h : scanCode last t = (kind, n)) (hword : IsOwnWord (kind, t.take n)) :
    scanCode none t = (kind, n) := by
  cases t with
  | nil => exact h
  | cons c t =>
    by_cases hname : isSpace c = false ∧ isNameStart c
    · rw [scanCode, hname.1, if_neg Bool.false_ne_true, if_pos hname.2] at h ⊢
      obtain ⟨rfl, rfl⟩ := Prod.mk.inj h
      exact Prod.ext (nameKind_afresh hword) rfl
    · rw [← h, scanCode, scanCode]
      split_ifs with hspace hstart
      · rfl
      · exact absurd ⟨Bool.eq_false_iff.mpr hspace, hstart⟩ hname
      all_goals rfl

/-- Code that begins with a word of its own has the same pieces where nothing stands before it. -/
theorem Lexes.afresh {s : State} {ps : List Piece} (h : Lexes s ps) (hmode : s.mode = .code)
    (hhalting : s.halting = false) (hword : ∀ p ∈ (Piece.code ps).head?, IsOwnWord p) :
    Lexes .between ps := by
  induction h with
  | nil s => exact .nil _
  | @cons s kind text ps hne hscan hrest ih =>
    rw [State.scan_of_code hmode] at hscan
    rw [Piece.code_cons] at hword
    cases htrivia : kind.isTrivia with
    | true =>
      have hown : IsOwnWord (kind, (text ++ Piece.print ps).take text.length) := by
        intro hident
        dsimp only at hident
        rw [hident] at htrivia
        cases htrivia
      have hnext : (s.next kind).mode = .code ∧ (s.next kind).halting = false ∧
          State.between.next kind = .between := by
        refine ⟨?_, ?_, ?_⟩
        · exact (State.nextMode_of_code hmode (by rintro rfl; cases htrivia) (by rintro rfl; cases htrivia))
        · change (s.halting || kind == .kwHaltCompiler) = false
          rw [hhalting]
          cases kind <;> first | rfl | cases htrivia
        · cases kind <;> first | rfl | cases htrivia
      have hrest := ih hnext.1 hnext.2.1 (by simpa [htrivia] using hword)
      exact .cons hne (scanCode_afresh hscan hown) (hnext.2.2.symm ▸ hrest)
    | false =>
      have hown : IsOwnWord (kind, (text ++ Piece.print ps).take text.length) := by
        rw [List.take_left]
        exact hword _ (by simp [htrivia])
      have hnext : State.between.next kind = s.next kind := by
        simp only [State.next, State.nextMode, hmode, hhalting, htrivia, State.between,
          Bool.false_eq_true, if_false]
      exact .cons hne (scanCode_afresh hscan hown) (hnext ▸ hrest)

end Lexer

/-- The code up to a token that stands before one position and after those before it. -/
theorem Code.length_code_take {t : Text} {i p : Nat} (hp : p ≤ (ofText t).size)
    (hbefore : ∀ q, q < p → (ofText t).tokenIndex q < i)
    (hafter : p < (ofText t).size → i ≤ (ofText t).tokenIndex p) :
    (Piece.code ((pieces t).take i)).length = p := by
  have hplaces := Piece.places_append 0 ((pieces t).take i) ((pieces t).drop i)
  rw [List.take_append_drop, Nat.zero_add] at hplaces
  have hsize : (ofText t).size = (Piece.code ((pieces t).take i)).length +
      (Piece.code ((pieces t).drop i)).length := by
    rw [size_ofText, ← List.length_append, ← Piece.code_append, List.take_append_drop]
  rcases Nat.lt_trichotomy (Piece.code ((pieces t).take i)).length p with hlt | heq | hgt
  · -- The token of the position before is not among those that are taken.
    have hq := tokenIndex_ofText (show p - 1 < (ofText t).size by omega)
    rw [hplaces, List.getElem?_append_right (by rw [Piece.length_places]; omega)] at hq
    have hle := (Piece.lt_of_mem_places _ (List.mem_of_getElem? hq)).1
    have hi := hbefore (p - 1) (by omega)
    rw [List.length_take] at hle
    rcases Nat.le_total i (pieces t).length with hlong | hshort
    · omega
    · have hnil := (List.getElem?_eq_some_iff.mp hq).1
      rw [List.drop_eq_nil_of_le hshort] at hnil
      exact absurd hnil (Nat.not_lt_zero _)
  · exact heq
  · have hq := tokenIndex_ofText (show p < (ofText t).size by omega)
    rw [hplaces, List.getElem?_append_left (by rw [Piece.length_places]; exact hgt)] at hq
    have hlt := (Piece.lt_of_mem_places _ (List.mem_of_getElem? hq)).2
    have hi := hafter (by omega)
    rw [List.length_take] at hlt
    omega

/-- The pieces of a text that a statement and what leads to it are over. -/
structure IsSlice (t : Text) (s : Statement) (first p n : Nat) (before ps after : List Piece) : Prop where
  pieces : pieces t = before ++ ps ++ after
  first : before.length = first
  stop : before.length + ps.length = s.stop
  start : (Piece.code before).length = p
  next : (Piece.code before).length + (Piece.code ps).length = n

theorem Statement.Covers.exists_slice {t : Text} {s : Statement} {p n : Nat}
    (hs : s.Covers (.ofText t) p n) {first : Nat} (hfirst : first ≤ s.first)
    (hlead : ∀ k, first ≤ k → k < s.first →
      ∃ token, (Code.ofText t).tokens[k]? = some token ∧ token.kind.isTrivia) :
    ∃ before ps after, IsSlice t s first p n before ps after := by
  have ho : (Code.ofText t).Ordered := Code.ordered_ofTokens _ _
  have hpn := hs.lt
  have hn := hs.le
  have hpos : (Code.ofText t).tokenIndex p ≤ (Code.ofText t).tokenIndex (n - 1) :=
    (ho.tokenIndex_le_iff (by omega) (by omega)).mpr (by omega)
  have hlength : s.stop ≤ (pieces t).length := by
    obtain ⟨token, htoken, -⟩ := Code.exists_token (t := t) (q := n - 1) (by omega)
    rw [hs.stop]
    have hlt : (Code.ofText t).tokenIndex (n - 1) < (Lexer.tokenize t).toArray.size :=
      (Array.getElem?_eq_some_iff.mp htoken).1
    rw [Lexer.pieces, List.length_map]
    exact hlt
  have hle : first ≤ s.stop := by
    rw [hs.stop]
    have := hs.first
    omega
  have hstart : (Piece.code ((pieces t).take first)).length = p := by
    refine Code.length_code_take (by omega) (fun q hq => ?_) fun _ => hs.first ▸ hfirst
    have hlt := ho.tokenIndex_lt hq (by omega)
    by_contra hge
    obtain ⟨token, htoken, htrivia⟩ := hlead _ (Nat.le_of_not_lt hge) (by rw [hs.first]; exact hlt)
    obtain ⟨token', htoken', hcode⟩ := Code.exists_token (t := t) (q := q) (by omega)
    rw [htoken, Option.some.injEq] at htoken'
    rw [← htoken', htrivia] at hcode
    cases hcode
  have hend : (Piece.code ((pieces t).take s.stop)).length = n := by
    rw [hs.stop]
    refine Code.length_code_take hn (fun q hq => ?_) fun hlt => ?_
    · exact Nat.lt_succ_of_le ((ho.tokenIndex_le_iff (by omega) (by omega)).mpr (by omega))
    · exact ho.tokenIndex_lt (by omega) (by omega)
  have hsplit : (pieces t).take s.stop =
      (pieces t).take first ++ ((pieces t).drop first).take (s.stop - first) := by
    rw [← List.take_add, Nat.add_sub_cancel' hle]
  refine ⟨(pieces t).take first, ((pieces t).drop first).take (s.stop - first), (pieces t).drop s.stop,
    ?_, ?_, ?_, hstart, ?_⟩
  · rw [← hsplit, List.take_append_drop]
  · rw [List.length_take]
    omega
  · rw [List.length_take, List.length_take, List.length_drop]
    omega
  · rw [← hend, hsplit, Piece.code_append, List.length_append]

theorem Lexer.pieces_openTag {ps : List Piece} (h : Lexes .between ps) :
    pieces ("<?php\n" ++ Piece.print ps) = (.openTag, "<?php\n".toList) :: ps :=
  pieces_print (show Lexes .initial ((.openTag, "<?php\n".toList) :: ps) from .cons (by decide) rfl h)

theorem Lexer.Closed.pieces_alone {ps : List Piece} (h : Closed ps) :
    pieces ("<?php\n" ++ Piece.print ps ++ ";") =
      [(.openTag, "<?php\n".toList)] ++ ps ++ [(.semicolon, [';'])] := by
  have hlexes := h .between [(.semicolon, [';'])] ⟨rfl, rfl, rfl⟩ (.cons (by simp) rfl (.nil _))
  have hpieces := pieces_openTag hlexes
  rw [Piece.print_append, ← List.append_assoc] at hpieces
  exact hpieces

theorem Lexer.Closed.pieces_last {ps : List Piece} (h : Closed ps) :
    pieces ("<?php\n" ++ Piece.print ps) = [(.openTag, "<?php\n".toList)] ++ ps ++ [] := by
  have hlexes := h .between [] ⟨rfl, rfl, rfl⟩ (.nil _)
  rw [List.append_nil] at hlexes ⊢
  exact pieces_openTag hlexes

theorem Code.leadingDoc?_openTag {t : Text} {ps after : List Piece}
    (ht : pieces t = [(.openTag, "<?php\n".toList)] ++ ps ++ after) :
    (ofText t).leadingDoc? [(TokenKind.openTag, "<?php\n".toList)].length = none := by
  rw [List.length_singleton, leadingDoc?_succ, ht]
  rfl

/-- Pieces that are a statement for themselves: they begin with a comment or a word of code that depends on
nothing before it, and end with a sign that ends statements. -/
structure IsCut (ps : List Piece) : Prop where
  head : ∀ p ∈ ps.head?, p.1.isOutside = false
  word : ∀ p ∈ (Piece.code ps).head?, Lexer.IsOwnWord p
  ends : ∃ init q, ps = init ++ [q] ∧ q.1.isStop

namespace IsSlice

variable {t : Text} {s : Statement} {first p n : Nat} {before ps after : List Piece}
  (h : IsSlice t s first p n before ps after)
include h

theorem closed (hcut : IsCut ps) (hfaults : (Code.ofText t).matching.faults = [])
    (hhalts : ∀ p ∈ Lexer.pieces t, p.1 ≠ .kwHaltCompiler) : Closed ps := by
  obtain ⟨init, q, rfl, hstop⟩ := hcut.ends
  have hlexes := Lexer.lexes_pieces t
  rw [h.pieces, List.append_assoc] at hlexes
  have hhalt {p : Piece} (hp : p ∈ before ++ (init ++ [q]) ++ after) : p.1 ≠ .kwHaltCompiler :=
    hhalts p (h.pieces ▸ hp)
  have hmode : (Lexer.State.initial.after before).mode = .code := by
    obtain ⟨p, rest, hp⟩ := List.exists_cons_of_ne_nil (show init ++ [q] ≠ [] by simp)
    have hsuffix := hlexes.suffix
    rw [hp] at hsuffix
    have houtside := hcut.head p (by rw [hp]; rfl)
    cases hsuffix with
    | cons _ hscan _ =>
      exact Lexer.State.mode_of_not_isOutside (by rw [hscan]; exact houtside)
  have hhalting : (Lexer.State.initial.after before).halting = false :=
    Lexer.State.halting_after fun p hp => hhalt (by simp [hp])
  have hcode : (Piece.code (init ++ [q] ++ after)).head? = (Piece.code (init ++ [q])).head? := by
    rw [Piece.code_append, List.head?_append_of_ne_nil]
    rw [Piece.code_append, Piece.code_cons, TokenKind.isTrivia_of_isStop hstop]
    simp
  have hafresh := hlexes.suffix.afresh hmode hhalting (hcode ▸ hcut.word)
  rw [List.append_assoc, List.singleton_append] at hafresh
  refine hafresh.closed ⟨rfl, rfl, rfl⟩ hstop (fun p hp herror => ?_) fun p hp => hhalt (by simp [hp])
  rw [Code.matching_stretch h.pieces] at hfaults
  refine BracketMatching.ne_error_of_faults hfaults p.1 ?_ herror
  have hmem : p ∈ Piece.code (init ++ [q]) := List.mem_filter.mpr ⟨by simp [hp], by rw [herror]; rfl⟩
  simp only [List.mem_append, List.mem_map]
  exact .inl (.inr ⟨p, hmem, rfl⟩)

/-- The statement is read at the end of a file of its own. -/
theorem exists_read (hfaults : (Code.ofText t).matching.faults = [])
    (hread : Parser.statement (.ofText t) ((Code.ofText t).size + 1) p = ⟨s, n, []⟩)
    (hdoc : (∃ text rest, ps = (.docComment, text) :: rest) ∨
      (Code.ofText t).leadingDoc? before.length = none)
    {t' : Text} {after' : List Piece} (ht' : Lexer.pieces t' = [(.openTag, "<?php\n".toList)] ++ ps ++ after')
    (hafter : Piece.code after' = []) (hpos : 0 < (Piece.code ps).length) :
    ∃ v : Statement, s = v.move before.length ∧
      Parser.statement (.ofText t') ((Code.ofText t').size + 1) 0 = ⟨v.move 1, (Code.ofText t').size, []⟩ := by
  have hsize := Code.size_stretch h.pieces
  have hsize' : (Code.ofText t').size = (Piece.code ps).length := by
    rw [Code.size_stretch ht', hafter]
    exact Nat.zero_add _
  have halong := Alongside.of_pieces h.pieces ht' hfaults
    (hdoc.imp_right fun hdoc => ⟨hdoc, Code.leadingDoc?_openTag ht'⟩) (.inl hafter)
  have htracks : Parser.Tracks (.after t before) (.after t' [(.openTag, "<?php\n".toList)])
        (Piece.code ps).length Statement.move
      (Parser.statement (.ofText t) ((Code.ofText t).size + 1) p)
      (Parser.statement (.ofText t') ((Code.ofText t').size + 1) 0) :=
    h.start ▸ Parser.statement_tracks halong hpos (by omega) (by omega)
  rw [hread] at htracks
  obtain ⟨herrors, ⟨q, -, hx, hy⟩, v, hv, hv'⟩ := htracks rfl (Nat.le_of_eq h.next.symm)
  have hq : (Code.ofText t').size = 0 + q := by
    have := h.next
    have : n = (Piece.code before).length + q := hx
    omega
  refine ⟨v, hv, ?_⟩
  generalize Parser.statement (.ofText t') ((Code.ofText t').size + 1) 0 = y at *
  obtain ⟨value, next, errors⟩ := y
  obtain rfl : errors = [] := herrors
  obtain rfl : value = v.move 1 := hv'
  obtain rfl : next = 0 + q := hy
  rw [hq]

/-- Without what leads to it a statement begins with its first word. -/
theorem exists_first (hs : s.Covers (.ofText t) p n) (hfirst : first = s.first) :
    ∃ q rest, ps = q :: rest ∧ q.1.isTrivia = false ∧ (Code.ofText t).kind? p = some q.1 := by
  have hpos : 0 < (Piece.code ps).length := by
    have := hs.lt
    have := h.start
    have := h.next
    omega
  obtain ⟨m, hm, hindex⟩ := Code.tokenIndex_stretch h.pieces hpos
  rw [Nat.add_zero, h.start, ← hs.first, ← hfirst, ← h.first] at hindex
  obtain rfl : m = 0 := by omega
  cases ps with
  | nil => cases hpos
  | cons q rest =>
    have htrivia : q.1.isTrivia = false := by
      by_contra htrivia
      rw [Piece.places, if_pos (by simpa using htrivia)] at hm
      have := (Piece.lt_of_mem_places 0 (List.mem_of_getElem? hm)).1
      omega
    have hq : (Piece.code (q :: rest))[0]? = some q := by
      rw [Piece.code_cons, htrivia]
      rfl
    have hkind := (Code.piece_at h.pieces hq).1
    rw [Nat.add_zero, h.start] at hkind
    exact ⟨q, rest, rfl, htrivia, hkind⟩

theorem exists_last (hne : ps ≠ []) :
    ∃ init q, ps = init ++ [q] ∧ (parse t).kind? (s.stop - 1) = some q.1 := by
  obtain ⟨init, q, rfl⟩ := (List.eq_nil_or_concat ps).resolve_left hne
  refine ⟨init, q, List.concat_eq_append, ?_⟩
  have hstop : s.stop - 1 = (before ++ init).length := by
    rw [← h.stop, List.length_append, List.length_concat]
    omega
  rw [SourceFile.kind?_parse, h.pieces, hstop, List.concat_eq_append, ← List.append_assoc, List.append_assoc,
    List.getElem?_append_right (Nat.le_refl _), Nat.sub_self]
  rfl

end IsSlice

namespace Parser

theorem spells_pieces {t : Text} {before ps after : List Piece} (ht : pieces t = before ++ ps ++ after) :
    Spells (.ofText t) (Piece.code before).length ((Piece.code ps).map (·.1)) := by
  rw [spells_iff]
  intro i kind hi
  rw [List.getElem?_map, Option.map_eq_some_iff] at hi
  obtain ⟨p, hp, rfl⟩ := hi
  exact (Code.piece_at ht hp).1

end Parser

/-- Pieces that are a `use` statement up to a semicolon. -/
structure IsUsePieces (ps : List Piece) : Prop where
  closed : Closed ps
  kinds : IsUse ((Piece.code ps).map (·.1))
  first : ∃ p rest, ps = p :: rest ∧ p.1.isTrivia = false
  last : ∃ init q, ps = init ++ [q] ∧ q.1 = .semicolon
  halts : ∀ p ∈ ps, p.1 ≠ .kwHaltCompiler

namespace IsUsePieces

variable {ps : List Piece} (h : IsUsePieces ps)
include h

theorem exists_use : ∃ w rest, ps = (.kwUse, w) :: rest := by
  obtain ⟨p, rest, rfl, htrivia⟩ := h.first
  have hkinds := h.kinds
  rw [Piece.code_cons, htrivia, if_neg Bool.false_ne_true, List.map_cons] at hkinds
  generalize hall : p.1 :: (Piece.code rest).map (·.1) = kinds at hkinds
  cases hkinds with
  | intro =>
    rw [← (List.cons.inj hall).1]
    exact ⟨p.2, rest, rfl⟩

/-- Before a semicolon they are read as imports. -/
theorem readAlone : ∃ items, ReadAlone (Piece.print ps)
    ⟨.imports items, 1, ps.length + 1, none, []⟩ ps := by
  have ht := h.closed.pieces_alone
  obtain ⟨w, rest, hps⟩ := h.exists_use
  obtain ⟨init, q, hinit, hq⟩ := h.last
  have hspells := Parser.spells_pieces ht
  obtain ⟨items, hitems⟩ := Parser.useStatement_of_isUse h.kinds hspells
  have hfirst : (Code.ofText ("<?php\n" ++ Piece.print ps ++ ";")).kind? 0 = some .kwUse := by
    have hpiece : (Piece.code ps)[0]? = some (.kwUse, w) := by rw [hps]; rfl
    exact (Code.piece_at ht hpiece).1
  have hdoc := Code.leadingDoc?_openTag ht
  have hfaults : (Code.ofText ("<?php\n" ++ Piece.print ps ++ ";")).matching.faults = [] := by
    rw [Code.matching_stretch ht]
    refine BracketMatching.faults_of_nest ?_
    rw [List.map_nil, BracketMatching.nest_append]
    exact (congrArg (Option.bind · _) h.kinds.nest).trans rfl
  have hlast : (Piece.places 0 ps)[(Piece.code ps).length - 1]? = some (ps.length - 1) := by
    rw [hinit]
    exact Piece.places_last (by rw [hq]; rfl) init
  have hzero : (Piece.places 0 ps)[0]? = some 0 := by
    rw [hps]
    exact Piece.places_first rfl 0 rest
  refine ⟨items, ht, rfl, hfaults, ?_, ?_, rfl, ?_⟩
  · rw [Parser.isNamespaceHeader, Code.isAt, hfirst]
    rfl
  · rw [hps]
    exact Nat.succ_pos _
  · have hlength : (Piece.code [(TokenKind.openTag, "<?php\n".toList)]).length = 0 := rfl
    rw [hlength, Nat.zero_add, List.length_map] at hitems
    have hshape (inner : Parser.Inner) : Parser.shape (.ofText ("<?php\n" ++ Piece.print ps ++ ";")) inner 0 =
        ⟨(.imports items, []), (Piece.code ps).length, []⟩ := by
      rw [Parser.shape, hfirst]
      dsimp only
      rw [hitems]
      rfl
    let found : Parser.Parsed (StatementKind × List Statement) :=
      ⟨(.imports items, []), (Piece.code ps).length, []⟩
    have hnext : found.next = (Piece.code ([(.openTag, "<?php\n".toList)] ++ ps)).length := by
      rw [Piece.code_append, List.length_append, hlength, Nat.zero_add]
    have hnode := Parser.node_at ht hdoc hzero hlast hnext
    rw [hlength, List.length_singleton, Nat.add_comm 1] at hnode
    rw [Parser.statement, hshape]
    exact congrArg (⟨·, _, []⟩ : Statement → Parser.Parsed Statement) hnode

/-- They stand alone, after whatever blanks. -/
theorem exists_isAlone {lead : Text} (hlead : lead.all Lexer.isSpace) : ∃ part : Part, part.IsAlone ∧
    part.lead = lead ∧ part.content = ps ∧ ∃ items, part.statement.kind = .imports items := by
  obtain ⟨items, hread⟩ := h.readAlone
  obtain ⟨w, rest, hps⟩ := h.exists_use
  obtain ⟨init, q, hinit, hq⟩ := h.last
  have hkind (i : Nat) (hi : i < ps.length) : (alone (Piece.print ps)).kind? (i + 1) = ps[i]?.map (·.1) := by
    rw [alone, SourceFile.kind?_parse, hread.getElem?_pieces i hi]
  have hpos : 0 < ps.length := by rw [hps]; exact Nat.succ_pos _
  have halone : StandsAlone (Piece.print ps) ⟨.imports items, 1, ps.length + 1, none, []⟩ := by
    refine hread.standsAlone rfl ?_ ?_ (fun _ _ _ => StatementKind.noConfusion) ?_
    · have hlast := hkind (ps.length - 1) (by omega)
      rw [Nat.sub_add_cancel hpos, hinit, List.length_append, List.length_singleton, Nat.add_sub_cancel,
        List.getElem?_concat_length, Option.map_some, hq] at hlast
      rw [Nat.add_sub_cancel, hinit, List.length_append, List.length_singleton, hlast]
      rfl
    · have hfirst := hkind 0 hpos
      rw [hps, List.getElem?_cons_zero, Option.map_some, Nat.zero_add] at hfirst
      rw [hps, hfirst]
      rfl
    · rw [alone, SourceFile.all_tokens_iff, hread.pieces]
      intro p hp
      simp only [List.mem_append, List.mem_singleton] at hp
      rcases hp with (rfl | hp) | rfl
      · exact TokenKind.noConfusion
      · exact h.halts p hp
      · exact TokenKind.noConfusion
  obtain ⟨part, hpart, hlead, hprint, hs⟩ := halone.exists_isAlone hlead
  have hcontent : part.content = ps := by
    have hpieces := hpart.read.pieces
    rw [hprint, hread.pieces] at hpieces
    exact (List.append_cancel_left (List.append_cancel_right hpieces)).symm
  refine ⟨part, hpart, hlead, hcontent, ?_⟩
  have hkind := congrArg Statement.kind hs
  rw [Statement.kind_move] at hkind
  cases hpartKind : part.statement.kind with
  | imports items => exact ⟨items, rfl⟩
  | _ => rw [hpartKind] at hkind; cases hkind

end IsUsePieces

/-- A part that is a `use` statement. -/
structure Part.IsUse (part : Part) (items : List ImportItem) : Prop where
  alone : part.IsAlone
  pieces : IsUsePieces part.content
  kind : part.statement.kind = .imports items

namespace Parser

variable {t : Text} {before ps after : List Piece}

theorem writtenKinds_pieces (ht : pieces t = before ++ ps ++ after) :
    writtenKinds (fun q => ((Code.ofText t).kind? q).toList) (Piece.code before).length
      ((Piece.code before).length + (Piece.code ps).length) = (Piece.code ps).map (·.1) := by
  rw [writtenKinds_eq_flatMap (f := fun p => [p.1]) fun i p hp => by rw [(Code.piece_at ht hp).1]; rfl,
    ← List.map_eq_flatMap]

end Parser

theorem Parser.covers_of_reading {c : Code} (ho : c.Ordered) {depth p n : Nat} {s : Statement}
    (hp : p < c.size) (h : statement c (depth + 1) p = ⟨s, n, []⟩) : s.Covers c p n := by
  have hreaches : c.Reaches (p + 1) (shape c (statement c depth) p).next :=
    (statement_reaches ho hp : c.Reaches (p + 1) (statement c (depth + 1) p).next)
  have hcovers := node_covers ho hreaches
  have hs : (node c p (shape c (statement c depth) p)).value = s := congrArg (·.value) h
  have hn : (shape c (statement c depth) p).next = n := congrArg (·.next) h
  rwa [hs, hn] at hcovers

namespace Parser

theorem useStatement_of_reading {c : Code} {depth p n : Nat} {s : Statement} {items : List ImportItem}
    (h : statement c (depth + 1) p = ⟨s, n, []⟩) (hkind : s.kind = .imports items) :
    c.kind? p = some .kwUse ∧ useStatement c p = ⟨.imports items, n, []⟩ := by
  rw [statement] at h
  have hvalue : (shape c (statement c depth) p).value.1 = .imports items := hkind ▸ congrArg (·.value.kind) h
  obtain ⟨huse, hshape⟩ := shape_imports hvalue
  rw [hshape] at h hvalue
  refine ⟨huse, ?_⟩
  have hnext : (useStatement c p).next = n := congrArg (·.next) h
  have herrors : (useStatement c p).errors = [] := congrArg (·.errors) h
  rw [← hnext, ← herrors, ← show (useStatement c p).value = .imports items from hvalue]

/-- A `use` statement imports the same at the end of another text. -/
theorem useStatement_pieces {t t' w : Text} {before rest after before' : List Piece}
    (ht : pieces t = before ++ (.kwUse, w) :: rest ++ after) (ht' : pieces t' = before' ++ (.kwUse, w) :: rest)
    (hfaults : (Code.ofText t).matching.faults = []) {n : Nat} {items : List ImportItem}
    (h : useStatement (.ofText t) (Piece.code before).length = ⟨.imports items, n, []⟩)
    (hn : (Piece.code before).length + (Piece.code ((.kwUse, w) :: rest)).length = n) :
    ∃ vs : List ImportItem, items = vs.map (ImportItem.move (before.length + 1)) ∧
      (useStatement (.ofText t') (Piece.code before').length).value =
        .imports (vs.map (ImportItem.move (before'.length + 1))) := by
  have hcode (ps : List Piece) : (Piece.code (ps ++ [(.kwUse, w)])).length = (Piece.code ps).length + 1 := by
    rw [Piece.code_append, List.length_append]
    rfl
  have hdoc {u : Text} {ps qs : List Piece} (hu : pieces u = ps ++ [(.kwUse, w)] ++ qs) :
      (Code.ofText u).leadingDoc? (ps ++ [(TokenKind.kwUse, w)]).length = none := by
    rw [List.length_append, List.length_singleton, Code.leadingDoc?_succ, hu]
    simp
  have ht₁ : pieces t = before ++ [(.kwUse, w)] ++ rest ++ after := by rw [ht]; simp
  have ht₁' : pieces t' = before' ++ [(.kwUse, w)] ++ rest ++ [] := by rw [ht']; simp
  have halong := Alongside.of_pieces ht₁ ht₁' hfaults
    (.inr ⟨hdoc (ht₁.trans (List.append_assoc _ _ _)), hdoc (ht₁'.trans (List.append_assoc _ _ _))⟩) (.inl rfl)
  have htracks : Tracks (.after t (before ++ [(.kwUse, w)])) (.after t' (before' ++ [(.kwUse, w)]))
      (Piece.code rest).length StatementKind.move (useStatement (.ofText t) (Piece.code before).length)
      (useStatement (.ofText t') (Piece.code before').length) :=
    useStatement_tracks_after halong.toAbreast (i := 0) (hcode before).symm (hcode before').symm (Nat.zero_le _)
  rw [h] at htracks
  have hle : n ≤ (Piece.code (before ++ [(.kwUse, w)])).length + (Piece.code rest).length := by
    rw [hcode, ← hn, Piece.code_cons]
    exact Nat.le_of_eq (by simp [TokenKind.isTrivia]; omega)
  obtain ⟨-, -, v, hv, hv'⟩ := htracks rfl hle
  have hlength (ps : List Piece) : (ps ++ [(TokenKind.kwUse, w)]).length = ps.length + 1 := by simp
  cases v with
  | imports vs =>
    simp only [StatementKind.move, Code.Place.after, hlength] at hv hv'
    exact ⟨vs, StatementKind.imports.inj hv, hv'⟩
  | _ => cases hv

end Parser

namespace SourceFile

variable {t : Text}

theorem statementText_pieces {before ps after : List Piece} (ht : pieces t = before ++ ps ++ after)
    {s : Statement} (hfirst : s.first = before.length) (hstop : s.stop = before.length + ps.length)
    (hne : ps ≠ []) : (parse t).statementText s = Piece.print ps := by
  have hpos := List.length_pos_iff.mpr hne
  have hrange := rangeWithDoc_pieces ht (s := { s with doc? := none }) hfirst
    (show s.first < s.stop by omega) hstop hne
  exact hrange

/-- A `use` statement up to a semicolon is one when it is cut out. -/
theorem exists_isUse (herrors : (parse t).errors = []) (hhalts : ∀ p ∈ pieces t, p.1 ≠ .kwHaltCompiler)
    {l : Located} (hl : l ∈ (parse t).outline.tail) {items : List ImportItem}
    (hkind : l.statement.kind = .imports items)
    (hlast : (parse t).kind? (l.statement.stop - 1) = some .semicolon) :
    ∃ (before after : List Piece) (part : Part) (items' : List ImportItem),
      pieces t = before ++ part.content ++ after ∧ before.length = l.statement.first ∧ part.lead = [] ∧
      part.IsUse items' ∧ Piece.print part.content = (parse t).statementText l.statement ∧
      items = items'.map (ImportItem.move l.statement.first) := by
  have ho : (Code.ofText t).Ordered := Code.ordered_ofTokens _ _
  have hfaults := faults_of_errors herrors
  obtain ⟨p, n, hp, -, hread⟩ := exists_reading herrors hl (by rw [hkind]; exact nofun)
  have hcovers := Parser.covers_of_reading ho hp hread
  obtain ⟨before, ps, after, hslice⟩ := hcovers.exists_slice (Nat.le_refl _) fun k hle hlt => by omega
  obtain ⟨huse, hstatement⟩ := Parser.useStatement_of_reading hread hkind
  have hkinds : IsUse ((Piece.code ps).map (·.1)) := by
    have hall := Parser.isUse_of_useStatement ho huse
      (by rw [hstatement]) (by rw [hstatement]) fun _ _ _ => .inl rfl
    rwa [hstatement, ← hslice.start, ← hslice.next, Parser.writtenKinds_pieces hslice.pieces] at hall
  obtain ⟨q, rest, hps, htrivia, hq⟩ := hslice.exists_first hcovers rfl
  obtain ⟨kind, w⟩ := q
  obtain rfl : kind = .kwUse := Option.some.inj (hq.symm.trans huse)
  obtain ⟨init, q, hinit, hq⟩ := hslice.exists_last (hps ▸ List.cons_ne_nil _ _)
  have hq : q.1 = .semicolon := Option.some.inj (hq.symm.trans hlast)
  have hcut : IsCut ps := by
    refine ⟨fun p hp => ?_, fun p hp => ?_, init, q, hinit, by rw [hq]; rfl⟩
    · rw [hps] at hp
      obtain rfl := Option.some.inj hp
      rfl
    · rw [hps] at hp
      obtain rfl := Option.some.inj hp
      exact nofun
  have hpieces : IsUsePieces ps := by
    refine ⟨hslice.closed hcut hfaults hhalts, hkinds, ⟨_, rest, hps, rfl⟩, ⟨init, q, hinit, hq⟩, ?_⟩
    intro p hp
    exact hhalts p (hslice.pieces ▸ by simp [hp])
  obtain ⟨part, halone, hlead, hcontent, items', hitems⟩ :=
    hpieces.exists_isAlone (show ([] : Text).all Lexer.isSpace from rfl)
  refine ⟨before, after, part, items', hcontent ▸ hslice.pieces, hslice.first, hlead,
    ⟨halone, hcontent ▸ hpieces, hitems⟩, ?_, ?_⟩
  · rw [hcontent, statementText_pieces hslice.pieces hslice.first.symm hslice.stop.symm
      (hps ▸ List.cons_ne_nil _ _)]
  · -- The names are those that are read where nothing comes after the statement.
    have hbare := hpieces.closed.pieces_last
    rw [List.append_nil] at hbare
    have hkind' : (part.statement.move 1).kind = .imports (items'.map (ImportItem.move 1)) := by
      rw [Statement.kind_move, hitems]
      rfl
    have hread' : pieces ("<?php\n" ++ Piece.print part.content ++ ";") =
        [(.openTag, "<?php\n".toList)] ++ (.kwUse, w) :: rest ++ [(.semicolon, [';'])] := by
      rw [halone.read.pieces, hcontent, hps]
    obtain ⟨-, hstatement'⟩ := Parser.useStatement_of_reading halone.read.read hkind'
    rw [hps] at hbare
    have hbare : pieces ("<?php\n" ++ Piece.print ((.kwUse, w) :: rest)) =
        [(.openTag, "<?php\n".toList)] ++ (.kwUse, w) :: rest := hbare
    rw [← hslice.start] at hstatement
    obtain ⟨vs, rfl, hvs⟩ := Parser.useStatement_pieces (hps ▸ hslice.pieces) hbare hfaults hstatement
      (hps ▸ hslice.next)
    obtain ⟨ws, hws, hws'⟩ := Parser.useStatement_pieces hread' hbare halone.read.faults hstatement'
      (by rw [hcontent, hps]; exact Nat.zero_add _)
    have hinjective (k : Nat) : Function.Injective (ImportItem.move k) := fun _ _ => ImportItem.move_inj
    have hmove (k l : Nat) : ImportItem.move k ∘ ImportItem.move l = ImportItem.move (k + l) := by
      funext item
      simp only [Function.comp_apply, ImportItem.move, Nat.add_assoc]
    obtain rfl : vs = ws := List.map_injective_iff.mpr (hinjective _)
      (StatementKind.imports.inj (hvs.symm.trans hws'))
    obtain rfl : items' = vs.map (ImportItem.move 1) := by
      refine List.map_injective_iff.mpr (hinjective 1) (hws.trans ?_)
      rw [List.map_map, hmove]
      rfl
    rw [List.map_map, hmove, hslice.first]

end SourceFile
end NamespaceMigration
