import NamespaceMigration.Name.Scope
import NamespaceMigration.Proofs.Rendering.Reading
import NamespaceMigration.Proofs.Statements.Readings

/-! Text that stands alone. It is one statement when it is read before a semicolon of its own, and so
it is that statement wherever it stands in a row. -/
namespace NamespaceMigration

open Lexer (pieces Lexes Closed)

theorem ImportItem.move_inj {k : Nat} {a b : ImportItem} (h : a.move k = b.move k) : a = b := by
  obtain ⟨kind, name, alias?, token, lead?⟩ := a
  obtain ⟨kind', name', alias?', token', lead?'⟩ := b
  simp only [ImportItem.move, ImportItem.mk.injEq, Nat.add_left_cancel_iff] at h ⊢
  exact h

theorem StatementKind.move_inj {k : Nat} {a b : StatementKind} (h : a.move k = b.move k) : a = b := by
  have hnumber : Function.Injective (k + · : Nat → Nat) := fun m n => Nat.add_left_cancel
  have hitem : Function.Injective (ImportItem.move k) := fun _ _ => ImportItem.move_inj
  have hname : Function.Injective fun entry : Text × Nat => (entry.1, k + entry.2) := by
    rintro ⟨name, token⟩ ⟨name', token'⟩ h
    simpa using h
  cases a <;> cases b <;> simp only [move, reduceCtorEq, StatementKind.space.injEq,
    StatementKind.imports.injEq, StatementKind.constants.injEq] at h ⊢
  all_goals first
    | exact h
    | simpa using h
    | exact ⟨h.1, Option.map_injective hnumber h.2.1, h.2.2⟩
    | exact List.map_injective_iff.mpr hitem h
    | exact List.map_injective_iff.mpr hname h

mutual

theorem Statement.move_inj {k : Nat} (a b : Statement) (h : a.move k = b.move k) : a = b := by
  match a, b with
  | ⟨kind, first, stop, doc?, children⟩, ⟨kind', first', stop', doc?', children'⟩ =>
    simp only [Statement.move, Statement.mk.injEq, Nat.add_left_cancel_iff] at h
    obtain ⟨hkind, rfl, rfl, hdoc, hchildren⟩ := h
    rw [StatementKind.move_inj hkind, Option.map_injective (fun m n => Nat.add_left_cancel) hdoc,
      Statement.map_move_inj children children' hchildren]

theorem Statement.map_move_inj {k : Nat} (as bs : List Statement)
    (h : as.map (Statement.move k) = bs.map (Statement.move k)) : as = bs := by
  match as, bs with
  | [], [] => rfl
  | a :: as, b :: bs =>
    rw [List.map_cons, List.map_cons, List.cons.injEq] at h
    rw [Statement.move_inj a b h.1, Statement.map_move_inj as bs h.2]

end

/-- Whether a statement carries code: not an import, a directive or a blank. -/
def StatementKind.isBody : StatementKind → Bool
  | .imports _ | .empty | .html true | .declare _ false | .space .. => false
  | _ => true

theorem Scope.bodyStatements_eq (s : Scope) :
    s.bodyStatements = s.home.statement.children.filter (·.kind.isBody) := by
  rfl

namespace SourceFile

theorem kind?_parse (t : Text) (i : Nat) : (parse t).kind? i = (pieces t)[i]?.map (·.1) := by
  rw [kind?, tokens_parse, pieces, List.getElem?_map, Option.map_map]
  rfl

theorem size_tokens (t : Text) : (parse t).tokens.size = (pieces t).length := by
  rw [pieces, List.length_map]
  exact List.size_toArray

theorem kind?_tokenIndex {t : Text} {p : Nat} (hp : p < (Code.ofText t).size) :
    (parse t).kind? ((Code.ofText t).tokenIndex p) = (Code.ofText t).kind? p := by
  obtain ⟨item, hitem⟩ := Code.exists_item hp
  rw [Code.tokenIndex_eq hitem, Code.kind?, hitem, kind?, tokens_parse]
  rw [Code.ofText, Code.items_ofTokens, List.getElem?_toArray] at hitem
  rw [(Code.mem_itemsOf.mp (List.mem_of_getElem? hitem)).1]
  rfl

end SourceFile

theorem Lexer.exists_openTag (t : Text) :
    ∃ rest, pieces ("<?php\n" ++ t) = (.openTag, "<?php\n".toList) :: rest ∧ Lexes .between rest := by
  have hlexes := lexes_pieces ("<?php\n" ++ t)
  have hprint := print_pieces ("<?php\n" ++ t)
  generalize pieces ("<?php\n" ++ t) = ps at hlexes hprint
  cases hlexes with
  | nil => cases hprint
  | @cons _ kind text rest hne hscan hrest =>
    rw [Piece.print_cons] at hprint
    rw [hprint] at hscan
    have hscan' : (TokenKind.openTag, 6) = (kind, text.length) := hscan
    obtain ⟨rfl, hlen⟩ := Prod.mk.inj hscan'
    obtain ⟨rfl, -⟩ := List.append_inj hprint hlen.symm
    exact ⟨rest, rfl, hrest⟩

/-- A text as the code before a semicolon. -/
def alone (t : Text) : SourceFile := .parse ("<?php\n" ++ t ++ ";")

/-- Before a semicolon a text is one statement up to its end, with the comment that documents it. Its
last sign ends it whatever comes next, and its first word goes on with nothing before it. -/
structure StandsAlone (t : Text) (s : Statement) : Prop where
  errors : (alone t).errors = []
  first : (alone t).root.children.head? = some s
  start : s.doc?.getD s.first = 1
  stop : s.stop + 1 = (alone t).tokens.size
  ends : ((alone t).kind? (s.stop - 1)).any TokenKind.isStop
  semicolon : (alone t).kind? s.stop = some .semicolon
  begins : ((alone t).kind? s.first).any TokenKind.isContinuation = false
  space : ∀ name? token? braced, s.kind ≠ .space name? token? braced
  halts : (alone t).tokens.all (·.kind != .kwHaltCompiler)

/-- The pieces of a text that is read as a statement before a semicolon. -/
structure ReadAlone (t : Text) (s : Statement) (ps : List Piece) : Prop where
  pieces : pieces ("<?php\n" ++ t ++ ";") =
    [(.openTag, "<?php\n".toList)] ++ ps ++ [(.semicolon, [';'])]
  print : Piece.print ps = t
  faults : (Code.ofText ("<?php\n" ++ t ++ ";")).matching.faults = []
  header : Parser.isNamespaceHeader (.ofText ("<?php\n" ++ t ++ ";")) 0 = false
  pos : 0 < (Piece.code ps).length
  stop : s.stop = ps.length + 1
  read : Parser.statement (.ofText ("<?php\n" ++ t ++ ";")) ((Piece.code ps).length + 2) 0 =
    ⟨s, (Piece.code ps).length, []⟩

namespace StandsAlone

variable {t : Text} {s : Statement} (h : StandsAlone t s)
include h

/-- The pieces of the text, between those around it. -/
theorem exists_pieces : ∃ ps, pieces ("<?php\n" ++ t ++ ";") =
    [(.openTag, "<?php\n".toList)] ++ ps ++ [(.semicolon, [';'])] ∧ Piece.print ps = t := by
  obtain ⟨rest, hpieces, hlexes⟩ := Lexer.exists_openTag (t ++ ";")
  have hprint := Lexer.print_pieces ("<?php\n" ++ (t ++ ";"))
  rw [← List.append_assoc] at hpieces hprint
  have hsize : s.stop + 1 = rest.length + 1 := by
    rw [h.stop, alone, SourceFile.size_tokens, hpieces, List.length_cons]
  have hkind := h.semicolon
  rw [alone, SourceFile.kind?_parse, hpieces, Nat.succ_injective hsize] at hkind
  rcases List.eq_nil_or_concat rest with rfl | ⟨ps, q, rfl⟩
  · cases hkind
  · rw [List.concat_eq_append] at *
    have hq : q.1 = .semicolon := by simpa using hkind
    obtain ⟨-, c, hc, htext⟩ := hlexes.suffix.isStop (by rw [hq]; rfl)
    have hwhole : Piece.print ps ++ [c] = t ++ [';'] := by
      rw [hpieces, Piece.print_cons, Piece.print_append, Piece.print_cons, htext] at hprint
      simpa using hprint
    obtain ⟨hps, hchar⟩ := List.append_inj' hwhole rfl
    refine ⟨ps, ?_, hps⟩
    obtain ⟨kind, text⟩ := q
    rw [hpieces, hq.symm, ← hchar, ← htext]
    rfl

/-- The text is read as the statement, without a problem and up to its end. -/
theorem exists_read : ∃ ps, ReadAlone t s ps := by
  obtain ⟨ps, hpieces, hprint⟩ := h.exists_pieces
  have hfaults := SourceFile.faults_of_errors h.errors
  have herrors := SourceFile.topErrors h.errors
  have hfirst := h.first
  rw [alone, SourceFile.children_parse] at hfirst
  have hsize : (Code.ofText ("<?php\n" ++ t ++ ";")).size = (Piece.code ps).length + 1 :=
    (Code.size_stretch hpieces).trans (by simp [Piece.code_cons, TokenKind.isTrivia])
  have hstop : s.stop + 1 = ps.length + 2 := by
    rw [h.stop, alone, SourceFile.size_tokens, hpieces]
    simp
  have hend : (Code.ofText ("<?php\n" ++ t ++ ";")).tokenIndex (Piece.code ps).length = ps.length + 1 := by
    have := (Code.token_at hpieces rfl).2.2
    rw [Piece.code_append, List.length_append, List.length_append] at this
    exact (congrArg _ (Nat.zero_add _).symm).trans (this.trans (Nat.add_comm _ _))
  have ho : (Code.ofText ("<?php\n" ++ t ++ ";")).Ordered := Code.ordered_ofTokens _ _
  suffices hread : Parser.isNamespaceHeader (.ofText ("<?php\n" ++ t ++ ";")) 0 = false ∧
      0 < (Piece.code ps).length ∧ Parser.statement (.ofText ("<?php\n" ++ t ++ ";"))
        ((Piece.code ps).length + 2) 0 = ⟨s, (Piece.code ps).length, []⟩ from
    ⟨ps, hpieces, hprint, hfaults, hread.1, hread.2.1, by omega, hread.2.2⟩
  generalize Code.ofText ("<?php\n" ++ t ++ ";") = c at *
  generalize (Piece.code ps).length = n at *
  have hlt : 0 < c.size := by omega
  have hgo : ¬c.atEnd 0 := by simp [Code.atEnd, hsize]
  rw [Parser.topStatements_eq, Parser.manyUntil, if_neg hgo] at hfirst herrors
  have hs : (Parser.topItem c 0).value = s := Option.some.inj hfirst
  have hnone : (Parser.topItem c 0).errors = [] := (List.append_eq_nil_iff.mp herrors).1
  have hheader : Parser.isNamespaceHeader c 0 = false := by
    cases hheader : Parser.isNamespaceHeader c 0 with
    | false => rfl
    | true =>
      obtain ⟨name?, token?, braced, hspace⟩ :=
        Parser.namespaceStatement_space c (Parser.statement c (c.size + 1)) 0
      rw [Parser.topItem, if_pos hheader] at hs
      exact absurd (hs ▸ hspace) (h.space name? token? braced)
  have hcovers := Parser.topItem_covers ho hlt
  have hreach := Parser.topItem_reaches ho hlt
  have hitem : Parser.topItem c 0 = Parser.statement c (c.size + 1) 0 := by
    rw [Parser.topItem, hheader]
    rfl
  rw [hs] at hcovers
  -- The statement ends with the last token before the semicolon.
  have hnext : (Parser.topItem c 0).next = n := by
    have hle := hreach.2
    have hpos := hreach.1
    have hlast : c.tokenIndex ((Parser.topItem c 0).next - 1) < c.tokenIndex n := by
      rw [hend]
      have := hcovers.stop
      omega
    have hbefore := (ho.tokenIndex_lt_iff (by omega) (by omega)).mp hlast
    by_contra hne
    have := ho.tokenIndex_lt (show (Parser.topItem c 0).next - 1 < n - 1 by omega) (by omega)
    have := ho.tokenIndex_lt (show n - 1 < n by omega) (by omega)
    have := hcovers.stop
    omega
  have hpos : 0 < n := hnext ▸ hreach.1
  refine ⟨hheader, hpos, ?_⟩
  rw [← hnext, show (Parser.topItem c 0).next + 2 = c.size + 1 by omega, ← hitem, ← hs]
  exact congrArg (Parser.Parsed.mk _ _) hnone

end StandsAlone

namespace ReadAlone

variable {t : Text} {s : Statement} {ps : List Piece} (h : ReadAlone t s ps)
include h

theorem size : (Code.ofText ("<?php\n" ++ t ++ ";")).size = (Piece.code ps).length + 1 :=
  (Code.size_stretch h.pieces).trans (by simp [Piece.code_cons, TokenKind.isTrivia])

theorem leadingDoc? : (Code.ofText ("<?php\n" ++ t ++ ";")).leadingDoc? 1 = none := by
  rw [Code.leadingDoc?_succ, h.pieces]
  rfl

theorem getElem?_pieces (i : Nat) (hi : i < ps.length) :
    (Lexer.pieces ("<?php\n" ++ t ++ ";"))[i + 1]? = ps[i]? := by
  rw [h.pieces, List.append_assoc, List.singleton_append, List.getElem?_cons_succ,
    List.getElem?_append_left hi]

/-- After other pieces the same statement is read, further back. -/
theorem exists_move (hends : ∀ p, (Piece.code ps).getLast? = some p → p.1.isStop) {t' : Text}
    {before after : List Piece} (ht : Lexer.pieces t' = before ++ ps ++ after)
    (hdoc : (Code.ofText t').leadingDoc? before.length = none)
    (hafter : ∀ p, (Piece.code after).head? = some p → p.1.isContinuation = false) :
    ∃ v : Statement, s = v.move 1 ∧ Parser.statement (.ofText t') ((Code.ofText t').size + 1)
      (Piece.code before).length = ⟨v.move before.length, (Piece.code (before ++ ps)).length, []⟩ := by
  have hpieces := h.pieces
  have hread := h.read
  have halong := Alongside.of_pieces hpieces ht h.faults (.inr ⟨h.leadingDoc?, hdoc⟩)
    (.inr (.inl ⟨hends, rfl, hafter⟩))
  have hsize := Code.size_stretch ht
  generalize ("<?php\n" ++ t ++ ";" : Text) = u at hpieces hread halong
  have htracks : Parser.Tracks (.after u [(.openTag, "<?php\n".toList)])
      (.after t' before) (Piece.code ps).length Statement.move
      (Parser.statement (.ofText u) ((Piece.code ps).length + 2) 0)
      (Parser.statement (.ofText t') ((Code.ofText t').size + 1) (Piece.code before).length) :=
    Parser.statement_tracks halong h.pos (by omega) (by omega)
  rw [hread] at htracks
  obtain ⟨herrors, ⟨q, -, hx, hy⟩, v, hv, hv'⟩ := htracks rfl (Nat.le_of_eq (Nat.zero_add _).symm)
  have hq : (Piece.code ps).length = q := hx.trans (Nat.zero_add q)
  refine ⟨v, hv, ?_⟩
  rw [Piece.code_append, List.length_append, hq]
  generalize Parser.statement (.ofText t') ((Code.ofText t').size + 1) (Piece.code before).length = y at *
  obtain ⟨value, next, errors⟩ := y
  obtain rfl : errors = [] := herrors
  obtain rfl : value = v.move before.length := hv'
  obtain rfl : next = (Piece.code before).length + q := hy
  rfl

end ReadAlone

namespace Parser

variable {c : Code} {depth p n : Nat} {s : Statement}

theorem doc?_statement (c : Code) (depth p : Nat) :
    (statement c (depth + 1) p).value.doc? = c.leadingDoc? (c.tokenIndex p) := rfl

theorem first_of_reading (h : statement c (depth + 1) p = ⟨s, n, []⟩) : s.first = c.tokenIndex p := by
  obtain rfl : _ = s := congrArg Parsed.value h
  rfl

theorem doc?_of_reading (h : statement c (depth + 1) p = ⟨s, n, []⟩) : s.doc? = c.leadingDoc? s.first := by
  obtain rfl : _ = s := congrArg Parsed.value h
  rfl

end Parser

theorem Lexer.Lexes.visible {state : State} {kind : TokenKind} {text : Text} {ps : List Piece}
    (h : Lexes state ((kind, text) :: ps)) (hmode : state.mode = .code) (hkind : kind ≠ .whitespace) :
    text.head?.any isSpace = false := by
  cases h with
  | cons hne hscan _ =>
    obtain ⟨c, u, rfl⟩ := List.exists_cons_of_ne_nil hne
    rw [State.scan_of_code hmode, List.cons_append, scanCode] at hscan
    rw [List.head?_cons, Option.any_some]
    by_contra hspace
    rw [if_pos (Bool.not_eq_false _ ▸ hspace)] at hscan
    exact hkind (Prod.mk.inj hscan).1.symm

theorem Code.kind_leadingDoc? {t : Text} {index doc : Nat} (h : (ofText t).leadingDoc? index = some doc) :
    (pieces t)[doc]?.map (·.1) = some .docComment := by
  induction index with
  | zero => cases h
  | succ index ih =>
    rw [leadingDoc?_succ] at h
    split at h
    · rename_i hkind
      obtain rfl := Option.some.inj h
      exact hkind
    · exact ih h
    · exact ih h
    · exact ih h
    · cases h

namespace StandsAlone

variable {t : Text} {s : Statement} (h : StandsAlone t s) {ps : List Piece} (hread : ReadAlone t s ps)
include h hread

theorem exists_last : ∃ init q, ps = init ++ [q] ∧ q.1.isStop := by
  rcases List.eq_nil_or_concat ps with rfl | ⟨init, q, rfl⟩
  · exact absurd hread.pos (by simp)
  · rw [List.concat_eq_append] at *
    refine ⟨init, q, rfl, ?_⟩
    have hends := h.ends
    rw [hread.stop, alone, SourceFile.kind?_parse, List.length_append, List.length_singleton,
      Nat.add_sub_cancel, hread.getElem?_pieces _ (by simp)] at hends
    simpa using hends

theorem closed : Closed ps := by
  obtain ⟨init, q, rfl, hstop⟩ := h.exists_last hread
  obtain ⟨rest, hrest, hlexes⟩ := Lexer.exists_openTag (t ++ ";")
  rw [← List.append_assoc, hread.pieces, List.append_assoc, List.singleton_append, List.cons.injEq] at hrest
  rw [← hrest.2, List.append_assoc] at hlexes
  refine hlexes.closed ⟨rfl, rfl, rfl⟩ hstop (fun p hp herror => ?_) fun p hp hhalt => ?_
  · have hfaults := hread.faults
    rw [Code.matching_stretch hread.pieces] at hfaults
    refine BracketMatching.ne_error_of_faults hfaults p.1 ?_ herror
    have hmem : p ∈ Piece.code (init ++ [q]) :=
      List.mem_filter.mpr ⟨by simp [hp], by rw [herror]; rfl⟩
    simp only [List.mem_append, List.mem_map]
    exact .inl (.inr ⟨p, hmem, rfl⟩)
  · have hhalts := h.halts
    rw [alone, Array.all_eq_true'] at hhalts
    have hmem : p ∈ pieces ("<?php\n" ++ t ++ ";") := by
      rw [hread.pieces]
      simp [hp]
    obtain ⟨token, htoken, rfl⟩ := List.mem_map.mp hmem
    exact bne_iff_ne.mp (hhalts token (List.mem_toArray.mpr htoken)) hhalt

omit h in
theorem eq_node : s.first = (Code.ofText ("<?php\n" ++ t ++ ";")).tokenIndex 0 ∧
    s.doc? = (Code.ofText ("<?php\n" ++ t ++ ";")).leadingDoc? s.first :=
  ⟨Parser.first_of_reading hread.read, Parser.doc?_of_reading hread.read⟩

/-- The first piece is the comment that documents the statement, or its first word. -/
theorem exists_first : ∃ p rest, ps = p :: rest ∧ p.1 ≠ .whitespace := by
  obtain ⟨hfirst, hdoc⟩ := eq_node hread
  have hstart := h.start
  cases ps with
  | nil => exact absurd hread.pos (by simp)
  | cons p rest =>
    refine ⟨p, rest, rfl, fun hblank => ?_⟩
    cases hleading : s.doc? with
    | some doc =>
      obtain rfl : doc = 1 := by simpa [hleading] using hstart
      have hkind := Code.kind_leadingDoc? (hdoc.symm.trans hleading)
      rw [hread.getElem?_pieces 0 (by simp)] at hkind
      rw [List.getElem?_cons_zero, Option.map_some, hblank] at hkind
      cases hkind
    | none =>
      have hone : s.first = 1 := by simpa [hleading] using hstart
      have hindex := Code.tokenIndex_ofText (t := "<?php\n" ++ t ++ ";") (p := 0)
        (by rw [hread.size]; exact Nat.succ_pos _)
      rw [← hfirst, hone, hread.pieces] at hindex
      have hskip : Piece.places 0 ([(.openTag, "<?php\n".toList)] ++ p :: rest ++ [(.semicolon, [';'])]) =
          Piece.places 2 (rest ++ [(.semicolon, [';'])]) := by
        simp [Piece.places, TokenKind.isTrivia, hblank]
      rw [hskip] at hindex
      have := (Piece.lt_of_mem_places 1 (List.mem_of_getElem? hindex)).1
      omega

/-- A text that stands alone is a part of every row. -/
theorem isRead {v : Statement} (hv : s = v.move 1) : (Part.mk ['\n'] ps v).IsRead where
  lead := rfl
  closed := h.closed hread
  visible := by
    obtain ⟨p, rest, rfl, hp⟩ := h.exists_first hread
    obtain ⟨rest', hrest, hlexes⟩ := Lexer.exists_openTag (t ++ ";")
    rw [← List.append_assoc, hread.pieces, List.append_assoc, List.singleton_append, List.cons.injEq] at hrest
    rw [← hrest.2] at hlexes
    have hne := hlexes.ne_nil p (by simp)
    have hvisible := hlexes.visible rfl hp
    rwa [Piece.print_cons, List.head?_append_of_ne_nil _ hne]
  ends := h.exists_last hread
  first := by
    have hstart := h.start
    obtain ⟨kind, first, stop, doc?, children⟩ := v
    subst hv
    cases doc? <;> simpa [Statement.move] using hstart
  first_lt := by
    have hlast : (Code.ofText ("<?php\n" ++ t ++ ";")).tokenIndex (Piece.code ps).length = ps.length + 1 := by
      have := (Code.token_at hread.pieces rfl).2.2
      rw [Piece.code_append, List.length_append, List.length_append] at this
      exact (congrArg _ (Nat.zero_add _).symm).trans (this.trans (Nat.add_comm _ _))
    have ho : (Code.ofText ("<?php\n" ++ t ++ ";")).Ordered := Code.ordered_ofTokens _ _
    have hlt := ho.index 0 _ hread.pos (by rw [hread.size]; exact Nat.lt_succ_self _)
    rw [hlast, ← (eq_node hread).1] at hlt
    obtain ⟨kind, first, stop, doc?, children⟩ := v
    subst hv
    simp only [Statement.move] at hlt
    exact Nat.lt_of_add_lt_add_left (hlt.trans_eq (Nat.add_comm _ _))
  last := by
    have hstop := hread.stop
    obtain ⟨kind, first, stop, doc?, children⟩ := v
    subst hv
    simp only [Statement.move] at hstop
    exact Nat.add_left_cancel (hstop.trans (Nat.add_comm _ _))
  start := by
    obtain ⟨p, rest, hp⟩ := List.exists_cons_of_ne_nil (List.ne_nil_of_length_pos hread.pos)
    refine ⟨p, rest, hp, ?_⟩
    have hbegins := h.begins
    have hkind : (Code.ofText ("<?php\n" ++ t ++ ";")).kind? 0 = some p.1 :=
      (Code.piece_at hread.pieces (i := 0) (by rw [hp]; rfl)).1
    rw [(eq_node hread).1, alone, SourceFile.kind?_tokenIndex (by rw [hread.size]; exact Nat.succ_pos _)]
      at hbegins
    rwa [hkind] at hbegins
  plain name? token? braced hkind := by
    refine h.space name? (token?.map (1 + ·)) braced ?_
    obtain ⟨kind, first, stop, doc?, children⟩ := v
    obtain rfl : kind = .space name? token? braced := hkind
    rw [hv, Statement.move]
    rfl
  header p q rest hcode hp := by
    have hfirst : (Code.ofText ("<?php\n" ++ t ++ ";")).kind? 0 = some p.1 :=
      (Code.piece_at hread.pieces (i := 0) (by rw [hcode]; rfl)).1
    have hsecond : (Code.ofText ("<?php\n" ++ t ++ ";")).kind? 1 = some q.1 :=
      (Code.piece_at hread.pieces (i := 1) (by rw [hcode]; rfl)).1
    have hheader := hread.header
    generalize Code.ofText ("<?php\n" ++ t ++ ";") = c at *
    simpa [Parser.isNamespaceHeader, Code.isAt, Code.isAtAny, hfirst, hsecond, hp] using hheader
  reads t' before after ht hdoc hafter := by
    obtain ⟨init, q, hsplit, hstop⟩ := h.exists_last hread
    have hends : ∀ p, (Piece.code ps).getLast? = some p → p.1.isStop := by
      rw [hsplit, Piece.code_append, Piece.code_cons, Piece.code_nil, TokenKind.isTrivia_of_isStop hstop]
      simp [hstop]
    obtain ⟨w, hw, hstatement⟩ := hread.exists_move hends ht hdoc hafter
    rw [Statement.move_inj v w (hv.symm.trans hw)]
    exact hstatement

omit hread in
theorem exists_part : ∃ part : Part, part.IsRead ∧ part.lead = ['\n'] ∧
    Piece.print part.content = t ∧ s = part.statement.move 1 := by
  obtain ⟨ps, hread⟩ := h.exists_read
  have hdoc : (Code.ofText ("<?php\n" ++ t ++ ";")).leadingDoc? [(TokenKind.openTag, "<?php\n".toList)].length = none :=
    hread.leadingDoc?
  obtain ⟨init, q, hsplit, hstop⟩ := h.exists_last hread
  have hends : ∀ p, (Piece.code ps).getLast? = some p → p.1.isStop := by
    rw [hsplit, Piece.code_append, Piece.code_cons, Piece.code_nil, TokenKind.isTrivia_of_isStop hstop]
    simp [hstop]
  obtain ⟨v, hv, -⟩ := hread.exists_move hends hread.pieces hdoc
    (fun p hp => by obtain rfl := Option.some.inj hp; rfl)
  exact ⟨⟨['\n'], ps, v⟩, h.isRead hread hv, rfl, hread.print, hv⟩

end StandsAlone

end NamespaceMigration
