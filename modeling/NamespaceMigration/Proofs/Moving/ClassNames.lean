import NamespaceMigration.Proofs.Moving.Tail
import NamespaceMigration.Proofs.Rendering.Renamed
import NamespaceMigration.Proofs.Statements.Levels

/-! Another name for a class. Its name stands after a gap, so that another word may come in its place, and the
parser reads the same class with the other name. -/
namespace NamespaceMigration

open Lexer (pieces Lexes)
open SourceFile (parse)
open NamespaceMigration.Parser (manyUntil Parsed topItem isNamespaceHeader statement)

namespace Lexer

theorem recasts_same (gap : Bool) (ps : List Piece) : Recasts gap (ps.map fun p => (p, [p])) := by
  induction ps generalizing gap with
  | nil => exact .nil
  | cons p ps ih => exact .cons (.same p) (ih _)

theorem Recasts.after (gap : Bool) (init : List Piece) {p : Piece} {rs : List (Piece × List Piece)}
    (h : Recasts p.1.isGap rs) : Recasts gap ((init ++ [p]).map (fun p => (p, [p])) ++ rs) := by
  induction init generalizing gap with
  | nil => exact .cons (.same p) h
  | cons q init ih => exact .cons (.same q) (ih _)

/-- After a gap another word may come in the place of a name. -/
theorem Lexes.rename {s : State} {init after : List Piece} {p : Piece} {kind : TokenKind} {w u : Text}
    (h : Lexes s (init ++ [p] ++ (kind, w) :: after)) (hgap : p.1.isGap) (hkind : kind.isName) (hu : IsWordOf u)
    (hvalid : ∀ q ∈ init ++ [p] ++ (kind, w) :: after, q.1 ≠ .error) :
    Lexes s (init ++ [p] ++ (.ident, u) :: after) := by
  have hword : IsNameOf .ident u := ⟨hu.name, rfl, hu.nameKind⟩
  have hname : RecastAs p.1.isGap (kind, w) ((.ident, u) :: ImportItem.aliasPieces none) :=
    .name hgap hkind hword fun short hshort => by cases hshort
  have hrecasts := Recasts.after false init (.cons hname (recasts_same kind.isGap after))
  have hmap : ((init ++ [p]).map (fun p => (p, [p])) ++
      ((kind, w), [(.ident, u)]) :: after.map fun p => (p, [p])).map (·.1) = init ++ [p] ++ (kind, w) :: after := by
    simp [Function.comp_def]
  have hflat : ((init ++ [p]).map (fun p => (p, [p])) ++
      ((kind, w), [(.ident, u)]) :: after.map fun p => (p, [p])).flatMap (·.2) =
        init ++ [p] ++ (.ident, u) :: after := by
    simp [List.flatMap_map]
  rw [← hflat]
  exact hrecasts.lexes (hmap ▸ h) ⟨rfl, rfl, rfl⟩ (hmap ▸ hvalid)

/-- Before a name that comes after words, commas and what is between them there is a gap. -/
theorem Lexes.isGap_before_name {s : State} {init rest : List Piece} {p q : Piece}
    (h : Lexes s (init ++ [p] ++ q :: rest)) (hmode : s.mode = .code)
    (hwords : ∀ r ∈ init ++ [p], r.1.isTrivia ∨ r.1 = .comma ∨ r.1 ∈ Word.kinds) (hq : 0 < nameLength q.2) :
    p.1.isGap := by
  induction init generalizing s with
  | nil => exact h.isGap_of_name hmode (hwords p (by simp)) hq
  | cons r init ih =>
    obtain ⟨kind, text⟩ := r
    cases h with
    | cons hne hscan hrest =>
      have hplain {other : TokenKind} (htrivia : other.isTrivia = false) (hword : other ∉ .comma :: Word.kinds) :
          kind ≠ other := by
        rintro rfl
        rcases hwords _ List.mem_cons_self with hother | hmem
        · exact absurd hother (by simp [htrivia])
        · exact hword (List.mem_cons.mpr hmem)
      have hclose : kind ≠ .closeTag := hplain rfl (by decide)
      have hsemicolon : kind ≠ .semicolon := hplain rfl (by decide)
      exact ih hrest (State.nextMode_of_code hmode hclose hsemicolon)
        fun r hr => hwords r (List.mem_cons_of_mem _ hr)

end Lexer

/-- Code that differs from other code in the text of one token. -/
structure Code.SameBut (c c' : Code) (p : Nat) : Prop where
  size : c'.size = c.size
  kind : ∀ q, c'.kind? q = c.kind? q
  text : ∀ q, q ≠ p → c'.text q = c.text q
  tokenIndex : ∀ q, c'.tokenIndex q = c.tokenIndex q
  groupEnd : ∀ q, c'.groupEnd q = c.groupEnd q
  doc : ∀ i, c'.leadingDoc? i = c.leadingDoc? i

namespace Code.SameBut

open NamespaceMigration.Parser (stepBy modifierStep beforeBody afterModifiers headerEnd classKeyword? Declares node)

variable {c c' : Code} {p : Nat} (h : c.SameBut c' p)
include h

theorem stepBy_eq (goes : TokenKind → Option Bool) : stepBy c' goes = stepBy c goes := by
  funext q
  rw [stepBy, stepBy, h.kind, h.groupEnd]

theorem afterModifiers_eq (q : Nat) : afterModifiers c' q = afterModifiers c q := by
  rw [Parser.afterModifiers_eq, Parser.afterModifiers_eq, h.stepBy_eq, h.size]

theorem headerEnd_eq (q : Nat) : headerEnd c' q = headerEnd c q := by
  rw [headerEnd, headerEnd, Parser.headerStep_eq, Parser.headerStep_eq, h.stepBy_eq, h.size]

theorem isAt_eq (kind : TokenKind) (q : Nat) : c'.isAt kind q = c.isAt kind q := by
  rw [isAt, isAt, h.kind]

theorem classKeyword?_eq {q : Nat} (hq : q ≠ p) : classKeyword? c' q = classKeyword? c q := by
  rw [classKeyword?, classKeyword?, h.isAt_eq, h.kind, h.text q hq]

theorem node_eq (q : Nat) (found : Parsed (StatementKind × List Statement)) : node c' q found = node c q found := by
  rw [node, node, h.tokenIndex, h.tokenIndex, h.doc]

end Code.SameBut

namespace Parser

variable {c c' : Code} {p n : Nat} {s : Statement} {kind : ClassKind} {name : Text} {token depth : Nat}

theorem className_of_reading (h : statement c (depth + 1) p = ⟨s, n, []⟩) (hkind : s.kind = .classLike kind name token) :
    classKeyword? c (afterModifiers c p) = some kind ∧ c.text (afterModifiers c p + 1) = name ∧
      c.tokenIndex (afterModifiers c p + 1) = token := by
  obtain ⟨opener, hdeclares, -⟩ := declares_of_reading h (by rw [hkind]; rfl)
  rw [hkind] at hdeclares
  cases hdeclares with
  | classLike hkeyword => exact ⟨hkeyword, rfl, rfl⟩

/-- A class with another name is the same class otherwise. -/
theorem statement_rename (h : statement c (depth + 1) p = ⟨s, n, []⟩) (hkind : s.kind = .classLike kind name token)
    (hsame : c.SameBut c' (afterModifiers c p + 1)) :
    statement c' (depth + 1) p =
      ⟨{ s with kind := .classLike kind (c'.text (afterModifiers c p + 1)) token }, n, []⟩ := by
  have hvalue : (shape c (statement c depth) p).value.1 = s.kind := congrArg (·.value.kind) h
  have hshape := shape_of_isNamed (by rw [hvalue, hkind]; rfl)
  obtain ⟨opener, hdeclares, hbrace, hn⟩ := declares_of_reading h (by rw [hkind]; rfl)
  have hdeclaration := hdeclares.declaration_eq hbrace
  rw [hkind] at hdeclares hdeclaration
  cases hdeclares with
  | classLike hkeyword =>
    have hdeclares' : Declares c' p (headerEnd c' (afterModifiers c' p + 2)) (.classLike kind
        (c'.text (afterModifiers c' p + 1)) (c'.tokenIndex (afterModifiers c' p + 1))) := by
      refine .classLike ?_
      rw [hsame.afterModifiers_eq, hsame.classKeyword?_eq (Nat.ne_of_lt (Nat.lt_succ_self _)), hkeyword]
    have hbrace' : c'.isAt .leftBrace (headerEnd c' (afterModifiers c' p + 2)) := by
      rw [hsame.isAt_eq, hsame.headerEnd_eq, hsame.afterModifiers_eq]
      exact hbrace
    rw [statement, hshape, hdeclaration] at h
    rw [statement, hdeclares'.shape_eq, hdeclares'.declaration_eq hbrace', hsame.node_eq, hsame.groupEnd,
      hsame.headerEnd_eq, hsame.afterModifiers_eq, hsame.tokenIndex]
    obtain rfl : _ = s := congrArg Parsed.value h
    obtain rfl : _ = n := congrArg Parsed.next h
    rfl

end Parser

namespace IsTail

variable {ps : List Piece} {s : Statement}

/-- A single statement at the end of a file is read there up to the end. -/
theorem statement_eq (h : IsTail ps [s]) :
    isNamespaceHeader (.ofText ("<?php\n" ++ Piece.print ps)) 0 = false ∧
    0 < (Code.ofText ("<?php\n" ++ Piece.print ps)).size ∧
    statement (.ofText ("<?php\n" ++ Piece.print ps)) ((Code.ofText ("<?php\n" ++ Piece.print ps)).size + 1) 0 =
      ⟨s.move 1, (Code.ofText ("<?php\n" ++ Piece.print ps)).size, []⟩ := by
  have ho : (Code.ofText ("<?php\n" ++ Piece.print ps)).Ordered := Code.ordered_ofTokens _ _
  have herrors := SourceFile.topErrors h.errors
  have hvalue : _ = [s.move 1] := (SourceFile.children_parse _).symm.trans h.children
  have hplain := Statement.isPlain_move 1 (h.plain s (List.mem_singleton_self s))
  generalize Code.ofText ("<?php\n" ++ Piece.print ps) = c at *
  have hgo : ¬c.atEnd 0 := by
    intro hend
    rw [Parser.topStatements_eq, manyUntil, if_pos hend] at hvalue
    cases hvalue
  have hlt : 0 < c.size := Parser.lt_size_of_atEnd (by simpa using hgo)
  rw [Parser.topStatements_eq, Parser.manyUntil_succ hgo] at hvalue herrors
  obtain ⟨hnone, -⟩ := List.append_eq_nil_iff.mp herrors
  obtain ⟨hfirst, hrest⟩ := List.cons.inj hvalue
  have hreach := Parser.topItem_reaches ho hlt
  have hlast : c.atEnd (topItem c 0).next := by
    by_contra hmore
    have hsize : c.size = c.size - 1 + 1 := by omega
    change (manyUntil (topItem c) c.atEnd c.size (topItem c 0).next).value = [] at hrest
    rw [hsize, Parser.manyUntil_succ hmore] at hrest
    cases hrest
  have hnext : (topItem c 0).next = c.size := Nat.le_antisymm hreach.2 (of_decide_eq_true hlast)
  have hheader : isNamespaceHeader c 0 = false := Parser.isNamespaceHeader_of_isPlain (by rw [← hfirst] at hplain; exact hplain)
  refine ⟨hheader, hlt, ?_⟩
  rw [← Parser.topItem_of_plain hheader]
  generalize topItem c 0 = found at *
  obtain ⟨value, next, errors⟩ := found
  obtain rfl : value = s.move 1 := hfirst
  obtain rfl : next = c.size := hnext
  obtain rfl : errors = [] := hnone
  rfl

end IsTail

theorem Parser.topStatements_of_single {c : Code} {s : Statement} (hheader : isNamespaceHeader c 0 = false)
    (hpos : 0 < c.size) (h : statement c (c.size + 1) 0 = ⟨s, c.size, []⟩) : topStatements c = ⟨[s], c.size, []⟩ := by
  have hgo : ¬c.atEnd 0 := by
    rw [Code.atEnd, decide_eq_true_eq]
    omega
  have hend : c.atEnd c.size := decide_eq_true (Nat.le_refl _)
  have hstop (fuel : Nat) : manyUntil (topItem c) c.atEnd (fuel + 1) c.size = ⟨[], c.size, []⟩ := by
    rw [manyUntil, if_pos hend]
  have hlast := hstop (c.size - 1)
  rw [Nat.sub_add_cancel hpos] at hlast
  rw [topStatements_eq, manyUntil_succ hgo, topItem_of_plain hheader, h, Parsed.andThen]
  dsimp only [Parsed.single]
  rw [hlast]
  rfl

theorem Piece.map_code (ps : List Piece) : (code ps).map (·.1) = (ps.map (·.1)).filter fun kind => !kind.isTrivia := by
  rw [code, List.filter_map]
  rfl

namespace Code

variable {t t' : Text} (h : (pieces t').map (·.1) = (pieces t).map (·.1))
include h

theorem kinds_code_of_kinds : (Piece.code (pieces t')).map (·.1) = (Piece.code (pieces t)).map (·.1) := by
  rw [Piece.map_code, Piece.map_code, h]

theorem places_of_kinds (k : Nat) : Piece.places k (pieces t') = Piece.places k (pieces t) := by
  generalize pieces t' = qs at h
  generalize pieces t = ps at h
  induction qs generalizing ps k with
  | nil => rw [List.map_eq_nil_iff.mp h.symm]
  | cons q qs ih =>
    cases ps with
    | nil => cases h
    | cons p ps =>
      obtain ⟨hkind, hrest⟩ := List.cons.inj h
      have hkind : q.1 = p.1 := hkind
      rw [Piece.places, Piece.places, ih _ _ hrest, hkind]

theorem size_of_kinds : (ofText t').size = (ofText t).size := by
  have := congrArg List.length (kinds_code_of_kinds h)
  rwa [List.length_map, List.length_map, ← size_ofText, ← size_ofText] at this

theorem tokenIndex_of_kinds (p : Nat) : (ofText t').tokenIndex p = (ofText t).tokenIndex p := by
  have hsize := size_of_kinds h
  by_cases hp : p < (ofText t).size
  · have hindex := tokenIndex_ofText (hsize.symm ▸ hp)
    rw [places_of_kinds h] at hindex
    exact Option.some.inj (hindex.symm.trans (tokenIndex_ofText hp))
  · have hnone {u : Text} (hu : (ofText u).size ≤ p) : (ofText u).tokenIndex p = (pieces u).length := by
      rw [tokenIndex, Array.getElem?_eq_none hu, Option.map_none, Option.getD_none]
      exact SourceFile.size_tokens u
    have hlength := congrArg List.length h
    rw [List.length_map, List.length_map] at hlength
    rw [hnone (Nat.le_of_not_lt hp), hnone (hsize ▸ Nat.le_of_not_lt hp), hlength]

theorem leadingDoc?_of_kinds (index : Nat) : (ofText t').leadingDoc? index = (ofText t).leadingDoc? index := by
  induction index with
  | zero => rfl
  | succ index ih =>
    rw [leadingDoc?_succ, leadingDoc?_succ, ih, ← List.getElem?_map, ← List.getElem?_map, h]

theorem matching_of_kinds : (ofText t').matching = (ofText t).matching := by
  rw [matching_ofText, matching_ofText, kinds_code_of_kinds h]

end Code

/-- Only the text of one piece differs. -/
theorem Code.sameBut_of_pieces {t t' : Text} {before after : List Piece} {kind : TokenKind} {w u : Text}
    (ht : pieces t = before ++ (kind, w) :: after) (ht' : pieces t' = before ++ (kind, u) :: after)
    (hkind : kind.isTrivia = false) : (ofText t).SameBut (ofText t') (Piece.code before).length := by
  have hkinds : (pieces t').map (·.1) = (pieces t).map (·.1) := by
    rw [ht, ht', List.map_append, List.map_append, List.map_cons, List.map_cons]
  constructor
  · exact size_of_kinds hkinds
  · intro q
    rw [kind?_ofText, kind?_ofText, ← List.getElem?_map, ← List.getElem?_map, kinds_code_of_kinds hkinds]
  · intro q hq
    have hcode (v : Text) : Piece.code (before ++ (kind, v) :: after) =
        Piece.code before ++ (kind, v) :: Piece.code after := by
      rw [Piece.code_append, Piece.code_cons, if_neg (by simp [hkind])]
    rw [text_ofText, text_ofText, ht, ht', hcode, hcode]
    by_cases hlt : q < (Piece.code before).length
    · rw [List.getElem?_append_left hlt, List.getElem?_append_left hlt]
    · obtain ⟨i, rfl⟩ := Nat.exists_eq_add_of_le (Nat.le_of_not_lt hlt)
      obtain ⟨i, rfl⟩ := Nat.exists_eq_succ_of_ne_zero (show i ≠ 0 by omega)
      rw [List.getElem?_append_right (Nat.le_add_right _ _), List.getElem?_append_right (Nat.le_add_right _ _),
        Nat.add_sub_cancel_left, List.getElem?_cons_succ, List.getElem?_cons_succ]
  · exact tokenIndex_of_kinds hkinds
  · intro q
    rw [groupEnd, groupEnd, matching_of_kinds hkinds, size_of_kinds hkinds]
  · exact leadingDoc?_of_kinds hkinds

namespace Piece

/-- The pieces around the one at the place of a position of the code. -/
theorem exists_split (ps : List Piece) {k i m : Nat} (h : (places k ps)[i]? = some (k + m)) :
    ∃ before p after, ps = before ++ p :: after ∧ before.length = m ∧ (code before).length = i ∧
      p.1.isTrivia = false := by
  induction ps generalizing k i m with
  | nil => cases h
  | cons p ps ih =>
    rw [places] at h
    split at h
    · rename_i htrivia
      have hlt := (lt_of_mem_places _ (List.mem_of_getElem? h)).1
      obtain ⟨m, rfl⟩ : ∃ n, m = n + 1 := ⟨m - 1, by omega⟩
      obtain ⟨before, q, after, rfl, rfl, rfl, hq⟩ := ih (k := k + 1) (m := m) (by rw [h]; congr 1; omega)
      exact ⟨p :: before, q, after, rfl, rfl, by rw [code_cons, if_pos htrivia], hq⟩
    · rename_i hcode
      cases i with
      | zero =>
        rw [List.getElem?_cons_zero, Option.some.injEq] at h
        obtain rfl : m = 0 := by omega
        exact ⟨[], p, ps, rfl, rfl, rfl, by simpa using hcode⟩
      | succ i =>
        rw [List.getElem?_cons_succ] at h
        have hlt := (lt_of_mem_places _ (List.mem_of_getElem? h)).1
        obtain ⟨m, rfl⟩ : ∃ n, m = n + 1 := ⟨m - 1, by omega⟩
        obtain ⟨before, q, after, rfl, rfl, rfl, hq⟩ := ih (k := k + 1) (m := m) (by rw [h]; congr 1; omega)
        exact ⟨p :: before, q, after, rfl, rfl, by rw [code_cons, if_neg hcode, List.length_cons], hq⟩

theorem exists_last_code {ps : List Piece} (h : code ps ≠ []) :
    ∃ before p after, ps = before ++ p :: after ∧ p.1.isTrivia = false ∧ ∀ q ∈ after, q.1.isTrivia := by
  induction ps with
  | nil => exact absurd rfl h
  | cons p ps ih =>
    by_cases hrest : code ps = []
    · rw [code_cons, hrest] at h
      have hp : p.1.isTrivia = false := by
        by_contra htrivia
        exact h (if_pos (by simpa using htrivia))
      refine ⟨[], p, ps, rfl, hp, fun q hq => ?_⟩
      by_contra hcode
      exact List.ne_nil_of_mem (List.mem_filter.mpr ⟨hq, by simpa using hcode⟩) hrest
    · obtain ⟨before, q, after, rfl, hq, hafter⟩ := ih hrest
      exact ⟨p :: before, q, after, rfl, hq, hafter⟩

end Piece

/-- Before a name whose word before it is a word or a comma there is a gap. -/
theorem Lexer.Lexes.exists_gap {s : State} {before rest : List Piece} {q : Piece} (h : Lexes s (before ++ q :: rest))
    {k : Piece} (hlast : (Piece.code before).getLast? = some k) (hk : k.1 ∈ .comma :: Word.kinds)
    (hq : 0 < nameLength q.2) : ∃ init p, before = init ++ [p] ∧ p.1.isGap := by
  have hsome : Piece.code before ≠ [] := by
    intro hnil
    rw [hnil] at hlast
    cases hlast
  obtain ⟨init, k', between, rfl, hk', hbetween⟩ := Piece.exists_last_code hsome
  have hnone : Piece.code between = [] := by
    rw [Piece.code, List.filter_eq_nil_iff]
    exact fun p hp => by simp [hbetween p hp]
  obtain rfl : k' = k := by
    rw [Piece.code_append, Piece.code_cons, if_neg (by simp [hk']), hnone, List.getLast?_append] at hlast
    exact Option.some.inj hlast
  obtain ⟨words, p, hwords⟩ : ∃ words p, k' :: between = words ++ [p] :=
    ⟨_, _, (List.dropLast_append_getLast (List.cons_ne_nil k' between)).symm⟩
  refine ⟨init ++ words, p, by rw [hwords, List.append_assoc], ?_⟩
  rw [List.append_assoc] at h
  have hsuffix := h.suffix
  have hmode : (s.after init).mode = .code := by
    cases hsuffix with
    | cons _ hscan _ =>
      have hplain : ∀ kind ∈ .comma :: Word.kinds, kind.isOutside = false := by decide
      exact State.mode_of_not_isOutside (by rw [hscan]; exact hplain _ hk)
  rw [show (k' :: between) ++ q :: rest = words ++ [p] ++ q :: rest by rw [hwords]] at hsuffix
  refine hsuffix.isGap_before_name hmode (fun r hr => ?_) hq
  rw [← hwords] at hr
  rcases List.mem_cons.mp hr with rfl | hr
  · exact .inr (List.mem_cons.mp hk)
  · exact .inl (hbetween r hr)

namespace IsTail

variable {ps : List Piece} {s : Statement} {kind : ClassKind} {name : Text} {token : Nat}

theorem code_pieces (h : IsTail ps [s]) :
    Piece.code (Lexer.pieces ("<?php\n" ++ Piece.print ps)) = Piece.code ps := by
  rw [Lexer.pieces_openTag h.lexes]
  rfl

/-- Where a class at the end of a file has its name. -/
theorem exists_name (h : IsTail ps [s]) (hkind : s.kind = .classLike kind name token) :
    ∃ init p after, ps = init ++ [p] ++ (.ident, name) :: after ∧ (init ++ [p]).length = token ∧
      (Piece.code (init ++ [p])).length =
        Parser.afterModifiers (.ofText ("<?php\n" ++ Piece.print ps)) 0 + 1 ∧ p.1.isGap := by
  obtain ⟨-, -, hread⟩ := h.statement_eq
  have hcode := h.code_pieces
  have hmoved : (s.move 1).kind = .classLike kind name (1 + token) := by
    rw [Statement.kind_move, hkind]
    rfl
  obtain ⟨hkeyword, hname, htoken⟩ := Parser.className_of_reading hread hmoved
  obtain ⟨hident, first, hfirst, hword⟩ := Parser.classKeyword?_eq_some hkeyword
  generalize Parser.afterModifiers (.ofText ("<?php\n" ++ Piece.print ps)) 0 = q at *
  have hplaces := Code.tokenIndex_ofText (Code.lt_size_of_isAt hident)
  rw [htoken, Lexer.pieces_openTag h.lexes] at hplaces
  obtain ⟨before, x, after, rfl, rfl, hbefore, hx⟩ := Piece.exists_split ps (k := 1) hplaces
  rw [Code.isAt_iff, Code.kind?_ofText, hcode, Piece.code_append, ← hbefore,
    List.getElem?_append_right (Nat.le_refl _), Nat.sub_self, Piece.code_cons, if_neg (by simp [hx])] at hident
  rw [Code.text_ofText, hcode, Piece.code_append, ← hbefore,
    List.getElem?_append_right (Nat.le_refl _), Nat.sub_self, Piece.code_cons, if_neg (by simp [hx])] at hname
  obtain rfl : x = (.ident, name) := Prod.ext (Option.some.inj hident) hname
  -- The keyword is the word before the name.
  obtain ⟨k, hk⟩ : ∃ k, (Piece.code before).getLast? = some k := by
    rw [← Option.isSome_iff_exists, List.getLast?_isSome, ← List.length_pos_iff, hbefore]
    exact Nat.succ_pos q
  have hkword : k.1 ∈ Word.kinds := by
    rw [List.getLast?_eq_getElem?, hbefore, Nat.add_sub_cancel] at hk
    rw [Code.kind?_ofText, hcode, Piece.code_append, List.getElem?_append_left (by omega), hk] at hfirst
    have hfirst : k.1 = first := Option.some.inj hfirst
    have hall : ∀ kind ∈ [TokenKind.kwClass, .kwInterface, .kwTrait, .ident], kind ∈ Word.kinds := by decide
    rw [hfirst]
    rcases hword with hmem | ⟨rfl, -⟩
    · exact hall _ (List.mem_append_left [TokenKind.ident] hmem)
    · exact hall _ (by decide)
  have hstart : 0 < Lexer.nameLength name :=
    Lexer.nameLength_pos_of_head (h.lexes.shape (.ident, name) (by simp)).1.1
  obtain ⟨init, p, rfl, hgap⟩ := h.lexes.exists_gap hk (List.mem_cons_of_mem _ hkword) hstart
  exact ⟨init, p, after, rfl, rfl, hbefore, hgap⟩

variable {u : Text}

theorem ne_error {ss : List Statement} (h : IsTail ps ss) : ∀ p ∈ ps, p.1 ≠ .error := by
  intro p hp herror
  have hfaults := h.faults
  rw [Code.matching_stretch h.pieces] at hfaults
  refine BracketMatching.ne_error_of_faults hfaults p.1 ?_ herror
  have hmem : p ∈ Piece.code ps := List.mem_filter.mpr ⟨hp, by rw [herror]; rfl⟩
  simp only [List.mem_append, List.mem_map]
  exact .inl (.inr ⟨p, hmem, rfl⟩)

/-- A class at the end of a file may get another name. -/
theorem rename {before after : List Piece} (h : IsTail (before ++ (.ident, name) :: after) [s])
    (hkind : s.kind = .classLike kind name token) (hgap : ∃ init p, before = init ++ [p] ∧ p.1.isGap)
    (hname : (Piece.code before).length = Parser.afterModifiers
      (.ofText ("<?php\n" ++ Piece.print (before ++ (.ident, name) :: after))) 0 + 1)
    (hu : Lexer.IsWordOf u) :
    IsTail (before ++ (.ident, u) :: after) [{ s with kind := .classLike kind u token }] := by
  obtain ⟨hheader, hpos, hread⟩ := h.statement_eq
  have hlexes : Lexes .between (before ++ (.ident, u) :: after) := by
    obtain ⟨init, p, rfl, hgap⟩ := hgap
    exact h.lexes.rename hgap rfl hu h.ne_error
  have hpieces := Lexer.pieces_openTag h.lexes
  have hpieces' := Lexer.pieces_openTag hlexes
  have hfaults := h.faults
  have hkinds : (before ++ (TokenKind.ident, u) :: after).map (·.1) =
      (before ++ (TokenKind.ident, name) :: after).map (·.1) := by
    simp only [List.map_append, List.map_cons]
  have hcodes : (Piece.code (before ++ (TokenKind.ident, u) :: after)).map (·.1) =
      (Piece.code (before ++ (TokenKind.ident, name) :: after)).map (·.1) := by
    rw [Piece.map_code, Piece.map_code, hkinds]
  have hwhole : (Lexer.pieces ("<?php\n" ++ Piece.print (before ++ (.ident, u) :: after))).map (·.1) =
      (Lexer.pieces ("<?php\n" ++ Piece.print (before ++ (.ident, name) :: after))).map (·.1) := by
    rw [hpieces, hpieces', List.map_cons, List.map_cons, hkinds]
  rw [← List.cons_append] at hpieces hpieces'
  have hsame := Code.sameBut_of_pieces hpieces hpieces' rfl
  have hplace : (Piece.code ((TokenKind.openTag, "<?php\n".toList) :: before)).length =
      (Piece.code before).length := rfl
  have htext : (Code.ofText ("<?php\n" ++ Piece.print (before ++ (.ident, u) :: after))).text
      (Piece.code before).length = u := by
    rw [← hplace]
    exact (Code.token_at hpieces' rfl).2.1
  have hread' : statement (.ofText ("<?php\n" ++ Piece.print (before ++ (.ident, u) :: after)))
      ((Code.ofText ("<?php\n" ++ Piece.print (before ++ (.ident, u) :: after))).size + 1) 0 =
        ⟨Statement.move 1 { s with kind := .classLike kind u token },
          (Code.ofText ("<?php\n" ++ Piece.print (before ++ (.ident, u) :: after))).size, []⟩ := by
    have hmoved : (s.move 1).kind = .classLike kind name (1 + token) := by
      rw [Statement.kind_move, hkind]
      rfl
    rw [hsame.size, Parser.statement_rename hread hmoved (hname ▸ hplace ▸ hsame), ← hname, htext]
    obtain ⟨_, _, _, _, _⟩ := s
    rw [Statement.move, Statement.move]
    rfl
  have hheader' : isNamespaceHeader (.ofText ("<?php\n" ++ Piece.print (before ++ (.ident, u) :: after))) 0 =
      false := by
    rw [isNamespaceHeader, Code.isAtAny, hsame.isAt_eq, hsame.kind]
    exact hheader
  have htop := Parser.topStatements_of_single hheader' (hsame.size ▸ hpos) hread'
  refine ⟨hlexes, ?_, (SourceFile.children_parse _).trans (congrArg Parsed.value htop), ?_, ?_, ?_, ?_⟩
  · refine SourceFile.errors_eq_nil_iff.mpr ⟨?_, congrArg Parsed.errors htop⟩
    exact (congrArg _ (Code.matching_of_kinds hwhole)).trans hfaults
  · rw [List.forall_mem_singleton]
    exact fun _ _ _ => StatementKind.noConfusion
  · intro q hq
    have hhead := congrArg List.head? hkinds
    rw [List.head?_map, List.head?_map, hq] at hhead
    obtain ⟨q', hq', hsame⟩ := Option.map_eq_some_iff.mp hhead.symm
    have hsame : q'.1 = q.1 := hsame
    exact hsame ▸ h.visible q' hq'
  · intro q hq
    have hhead := congrArg List.head? hcodes
    rw [List.head?_map, List.head?_map, hq] at hhead
    obtain ⟨q', hq', hsame⟩ := Option.map_eq_some_iff.mp hhead.symm
    have hsame : q'.1 = q.1 := hsame
    exact hsame ▸ h.begins q' hq'
  · intro q hq
    have hmem : q.1 ∈ (before ++ (TokenKind.ident, name) :: after).map (·.1) := hkinds ▸ List.mem_map_of_mem hq
    obtain ⟨q', hq', hsame⟩ := List.mem_map.mp hmem
    have hsame : q'.1 = q.1 := hsame
    exact hsame ▸ h.halts q' hq'

end IsTail

end NamespaceMigration
