import NamespaceMigration.Proofs.Rendering.Fragments
import NamespaceMigration.Proofs.Rendering.Respelled
import NamespaceMigration.Proofs.Rewriting.Adapting

/-! Rows of code after a step of moving code. A part that stands alone, and has no imported names, stands
alone afterwards as the statement that it was. -/
namespace NamespaceMigration

open Lexer (tokenize pieces Respelling)

theorem StatementKind.bare_move (k : Nat) (kind : StatementKind) : (kind.move k).bare = kind.bare.move k := by
  cases kind <;> rfl

mutual

theorem Statement.bare_move (k : Nat) (s : Statement) : (s.move k).bare = s.bare.move k := by
  match s with
  | ⟨kind, first, stop, doc?, children⟩ =>
    rw [move, bare, bare, move, StatementKind.bare_move, Statement.map_bare_move]
    rfl

theorem Statement.map_bare_move (k : Nat) (ss : List Statement) :
    (ss.map (Statement.move k)).map Statement.bare = (ss.map Statement.bare).map (Statement.move k) := by
  match ss with
  | [] => rfl
  | s :: ss =>
    simp only [List.map_cons]
    rw [Statement.bare_move k s, Statement.map_bare_move k ss]

end

namespace Statement

theorem children_move (k : Nat) (s : Statement) : (s.move k).children = s.children.map (move k) := by
  cases s
  rw [move]

theorem Everywhere.imp {P Q : Statement → Prop} (hPQ : ∀ s, P s → Q s) {s : Statement}
    (h : s.Everywhere P) : s.Everywhere Q := by
  induction h with
  | intro hs _ ih => exact .intro (hPQ _ hs) ih

theorem Everywhere.of_move {P : Statement → Prop} {k : Nat} {s : Statement}
    (h : (s.move k).Everywhere P) : s.Everywhere fun s => P (s.move k) := by
  generalize hs' : s.move k = s' at h
  induction h generalizing s with
  | intro hs _ ih =>
    subst hs'
    refine .intro hs fun child hchild => ih (child.move k) ?_ rfl
    rw [children_move]
    exact List.mem_map_of_mem hchild

theorem Everywhere.move {P : Statement → Prop} {k : Nat} {s : Statement}
    (h : s.Everywhere fun s => P (s.move k)) : (s.move k).Everywhere P := by
  induction h with
  | @intro s hs _ ih =>
    refine .intro hs fun child hchild => ?_
    rw [children_move] at hchild
    obtain ⟨child, hmem, rfl⟩ := List.mem_map.mp hchild
    exact ih child hmem

end Statement

/-- A part whose text stands alone. -/
structure Part.IsAlone (part : Part) : Prop where
  lead : part.lead.all Lexer.isSpace
  alone : StandsAlone (Piece.print part.content) (part.statement.move 1)
  read : ReadAlone (Piece.print part.content) (part.statement.move 1) part.content

theorem Part.IsAlone.isRead {part : Part} (h : part.IsAlone) : part.IsRead :=
  { h.alone.isRead h.read rfl with lead := h.lead }

theorem StandsAlone.exists_isAlone {t lead : Text} {s : Statement} (h : StandsAlone t s)
    (hlead : lead.all Lexer.isSpace) : ∃ part : Part, part.IsAlone ∧ part.lead = lead ∧
      Piece.print part.content = t ∧ s = part.statement.move 1 := by
  obtain ⟨ps, hread⟩ := h.exists_read
  obtain ⟨init, q, hsplit, hstop⟩ := h.exists_last hread
  have hends : ∀ p, (Piece.code ps).getLast? = some p → p.1.isStop := by
    rw [hsplit, Piece.code_append, Piece.code_cons, Piece.code_nil, TokenKind.isTrivia_of_isStop hstop]
    simp [hstop]
  obtain ⟨v, rfl, -⟩ := hread.exists_move hends hread.pieces hread.leadingDoc?
    (fun p hp => by obtain rfl := Option.some.inj hp; rfl)
  obtain rfl := hread.print
  exact ⟨⟨lead, ps, v⟩, ⟨hlead, h, hread⟩, rfl, rfl, rfl⟩

theorem Part.IsAlone.respell {part : Part} (h : part.IsAlone) {qs : List Piece}
    (hrespells : Lexer.Respells part.content qs)
    (hfree : ∀ i, (Piece.code part.content)[i]? ≠ (Piece.code qs)[i]? →
      (Code.ofText ("<?php\n" ++ Piece.print part.content ++ ";")).IsFree i)
    (himports : (part.statement.move 1).Everywhere (Parser.ImportsFree
      (.ofText ("<?php\n" ++ Piece.print part.content ++ ";")) fun i =>
        (Piece.code part.content)[i]? ≠ (Piece.code qs)[i]?)) :
    ∃ part' : Part, part'.IsAlone ∧ part'.lead = part.lead ∧
      Piece.print part'.content = Piece.print qs ∧ part'.statement.bare = part.statement.bare := by
  obtain ⟨s', halone, hbare⟩ := h.alone.respell h.read hrespells hfree himports
  obtain ⟨part', hpart', hlead, hprint, rfl⟩ := halone.exists_isAlone h.lead
  rw [Statement.bare_move, Statement.bare_move] at hbare
  exact ⟨part', hpart', hlead, hprint, Statement.move_inj _ _ hbare⟩

namespace Piece

/-- What belongs to the piece at the place of a position of the code. -/
theorem getElem?_filter {α : Type} (f : α → Piece) (xs : List α) {k i m : Nat}
    (h : (places k (xs.map f))[i]? = some (k + m)) :
    (xs.filter fun x => !(f x).1.isTrivia)[i]? = xs[m]? := by
  induction xs generalizing k i m with
  | nil => cases h
  | cons x xs ih =>
    rw [List.map_cons, places] at h
    rw [List.filter_cons]
    split at h
    · rename_i htrivia
      rw [if_neg (by simp [htrivia])]
      have hlt := (lt_of_mem_places _ (List.mem_of_getElem? h)).1
      obtain ⟨m, rfl⟩ : ∃ n, m = n + 1 := ⟨m - 1, by omega⟩
      rw [List.getElem?_cons_succ]
      exact ih (by rw [h, Nat.add_right_comm, Nat.add_assoc])
    · rename_i hcode
      rw [if_pos (by simp [hcode])]
      cases i with
      | zero =>
        rw [List.getElem?_cons_zero, Option.some.injEq] at h
        obtain rfl : m = 0 := by omega
        rfl
      | succ i =>
        rw [List.getElem?_cons_succ] at h
        have hlt := (lt_of_mem_places _ (List.mem_of_getElem? h)).1
        obtain ⟨m, rfl⟩ : ∃ n, m = n + 1 := ⟨m - 1, by omega⟩
        rw [List.getElem?_cons_succ, List.getElem?_cons_succ]
        exact ih (by rw [h, Nat.add_right_comm, Nat.add_assoc])

theorem getElem?_code (ps : List Piece) {k i m : Nat} (h : (places k ps)[i]? = some (k + m)) :
    (code ps)[i]? = ps[m]? :=
  getElem?_filter id ps (by rwa [List.map_id])

end Piece

/-- What is free at a place in a text is free before a semicolon. -/
theorem Code.IsFree.alone {t text : Text} {s : Statement} {before ps after : List Piece}
    (ht : pieces t = before ++ ps ++ after) (hread : ReadAlone text s ps) {i : Nat}
    (hi : i < (Piece.code ps).length) (h : (ofText t).IsFree ((Piece.code before).length + i)) :
    (ofText ("<?php\n" ++ text ++ ";")).IsFree i := by
  have hat {j : Nat} (hj : j < (Piece.code ps).length) :
      (ofText ("<?php\n" ++ text ++ ";")).kind? j = (ofText t).kind? ((Piece.code before).length + j) ∧
        (ofText ("<?php\n" ++ text ++ ";")).text j = (ofText t).text ((Piece.code before).length + j) := by
    have hpiece := List.getElem?_eq_getElem hj
    obtain ⟨hkind, htext⟩ := piece_at ht hpiece
    obtain ⟨hkind', htext'⟩ := piece_at hread.pieces hpiece
    rw [show (Piece.code [(.openTag, "<?php\n".toList)]).length = 0 from rfl, Nat.zero_add] at hkind' htext'
    exact ⟨hkind'.trans hkind.symm, htext'.trans htext.symm⟩
  have hend : (ofText ("<?php\n" ++ text ++ ";")).kind? (Piece.code ps).length = some .semicolon :=
    (token_at hread.pieces rfl).1
  have hnext {kind : TokenKind} (hkind : kind ≠ .semicolon)
      (h : (ofText ("<?php\n" ++ text ++ ";")).kind? (i + 1) = some kind) :
      (ofText t).kind? ((Piece.code before).length + i + 1) = some kind := by
    by_cases hlt : i + 1 < (Piece.code ps).length
    · rw [← h, (hat hlt).1, Nat.add_assoc]
    · rw [show i + 1 = (Piece.code ps).length by omega, hend, Option.some.injEq] at h
      exact absurd h.symm hkind
  refine ⟨fun q kind hq hkind => ?_, fun q hq hfunction hampersand => ?_, fun hident henum hafter => ?_,
    fun q hq hident henum hafter => ?_, fun q hq hcomma hident hequals => ?_,
    fun q hq hdeclare hparen hident hequals => ?_⟩
  · exact h.declared _ kind (by omega) ((hat (by omega : q < _)).1.symm.trans hkind)
  · exact h.byReference _ (by omega) ((hat (by omega : q < _)).1.symm.trans hfunction)
      ((hat (by omega : q + 1 < _)).1.symm.trans hampersand)
  · exact h.enumeration ((hat hi).1.symm.trans hident) ((hat hi).2 ▸ henum) (hnext (by decide) hafter)
  · exact h.enumerated _ (by omega) ((hat (by omega : q < _)).1.symm.trans hident)
      ((hat (by omega : q < _)).2 ▸ henum) ((hat hi).1.symm.trans hafter)
  · exact h.constant _ (by omega) ((hat (by omega : q < _)).1.symm.trans hcomma)
      ((hat hi).1.symm.trans hident) (hnext (by decide) hequals)
  · exact h.directive _ (by omega) ((hat (by omega : q < _)).1.symm.trans hdeclare)
      ((hat (by omega : q + 1 < _)).1.symm.trans hparen) ((hat hi).1.symm.trans hident)
      (hnext (by decide) hequals)

namespace SourceFile

variable {t : Text}

theorem home_mem_outline {f : SourceFile} {s : Scope} (h : s ∈ f.scopes) : s.home ∈ f.outline := by
  rw [scopes_eq] at h
  split at h
  · obtain rfl := List.mem_singleton.mp h
    exact f.root_mem_outline
  · obtain ⟨l, hl, hs⟩ := List.mem_filterMap.mp h
    rw [Located.scope?] at hs
    split at hs
    · cases hs
      exact List.mem_of_mem_filter hl
    · cases hs

theorem importItems?_eq_some {s : Statement} {items : List ImportItem} :
    s.importItems? = some items ↔ s.kind = .imports items := by
  rw [Statement.importItems?]
  cases s.kind <;> simp

/-- An imported name is code of a `use` statement directly inside its scope. -/
theorem imported_inside {s : Scope} (hs : s ∈ (parse t).scopes) {item : ImportItem}
    (h : item ∈ (parse t).scopeImports s) : ∃ child ∈ s.home.statement.children,
      (∃ items, child.kind = .imports items ∧ item ∈ items) ∧ child.first ≤ item.nameToken ∧
        item.nameToken < child.stop ∧ ∃ token, (parse t).tokens[item.nameToken]? = some token ∧
          token.kind.isTrivia = false := by
  have hordered : (Code.ofText t).Ordered := Code.ordered_ofTokens _ _
  have hhome := home_mem_outline hs
  rw [scopeImports_eq hhome] at h
  obtain ⟨child, hchild, hitem⟩ := List.mem_flatMap.mp h
  cases hitems : child.importItems? with
  | none =>
    rw [hitems] at hitem
    cases hitem
  | some items =>
    rw [hitems] at hitem
    have hroot : (parse t).root.Everywhere (Parser.ImportsInside (.ofText t)) :=
      .intro (fun items hitems => nomatch hitems) (Parser.topStatements_importsInside hordered)
    have hinside := (outline_everywhere [] 0 _ hroot s.home hhome).child hchild
    obtain ⟨p, n, hcovers, hall⟩ := hinside.here items (importItems?_eq_some.mp hitems)
    obtain ⟨q, hpq, hqn, hindex⟩ := hall item hitem
    have hsize : q < (Code.ofText t).size := Nat.lt_of_lt_of_le hqn hcovers.le
    obtain ⟨found, hfound⟩ := Code.exists_item hsize
    obtain ⟨htoken, htrivia⟩ := item_spec hfound
    rw [Code.tokenIndex_eq hfound] at hindex
    have hspan := (hcovers.mem_iff hordered hsize).mpr ⟨Nat.le_of_lt hpq, hqn⟩
    rw [Code.tokenIndex_eq hfound, ← hindex] at hspan
    exact ⟨child, hchild, ⟨items, importItems?_eq_some.mp hitems, hitem⟩, hspan.1, hspan.2, found.2,
      hindex ▸ htoken, htrivia⟩

/-- What adapts is code, or a comment that documents something. -/
theorem Adapts.isCode {i : Nat} {token : Token} {new : Text} {renames : Prop} (h : (parse t).Adapts renames i token new)
    (htoken : (parse t).tokens[i]? = some token) :
    token.kind.isTrivia = false ∨ token.kind = .docComment := by
  cases h with
  | reference _ hr hindex _ =>
    obtain ⟨token', htoken', hname, -⟩ := references_token hr
    rw [hindex, htoken, Option.some.injEq] at htoken'
    subst htoken'
    refine .inl ?_
    cases hkind : token.kind <;> first | rfl | (rw [hkind] at hname; cases hname)
  | comment _ _ hkind _ => exact .inr hkind
  | imported _ himports =>
    obtain ⟨s, hs, item, hitem, rfl⟩ := himports
    obtain ⟨_, _, _, _, _, token', htoken', htrivia⟩ := imported_inside hs hitem
    rw [htoken, Option.some.injEq] at htoken'
    exact .inl (htoken' ▸ htrivia)

/-- Some tokens of a text from one on. -/
def tokenSlice (t : Text) (first n : Nat) : List Token := ((tokenize t).drop first).take n

theorem mem_tokenSlice {first n : Nat} {token : Token} (h : token ∈ tokenSlice t first n) :
    ∃ i, first ≤ i ∧ i < first + n ∧ (parse t).tokens[i]? = some token := by
  obtain ⟨j, hj⟩ := List.mem_iff_getElem?.mp h
  rw [tokenSlice, List.getElem?_take] at hj
  split at hj
  · rw [List.getElem?_drop] at hj
    exact ⟨first + j, Nat.le_add_right _ _, by omega, (tokens_parse t _).trans hj⟩
  · cases hj

theorem map_tokenSlice {before ps after : List Piece} (ht : pieces t = before ++ ps ++ after) :
    (tokenSlice t before.length ps.length).map (fun token => (token.kind, token.text)) = ps := by
  rw [tokenSlice, List.map_take, List.map_drop]
  change ((pieces t).drop before.length).take ps.length = ps
  rw [ht, List.append_assoc, List.drop_left, List.take_left]

/-- What edits write for some tokens of a text. -/
def writtenSlice (t : Text) (edits : List TextEdit) (first n : Nat) : Text :=
  (tokenSlice t first n).flatMap (written edits)

/-- What edits write for the tokens of a text from one on. -/
def writtenFrom (t : Text) (edits : List TextEdit) (first : Nat) : Text :=
  ((tokenize t).drop first).flatMap (written edits)

theorem writtenFrom_eq_append (edits : List TextEdit) (first n : Nat) :
    writtenFrom t edits first = writtenSlice t edits first n ++ writtenFrom t edits (first + n) := by
  rw [writtenFrom, writtenFrom, writtenSlice, tokenSlice, ← List.flatMap_append, ← List.drop_drop,
    List.take_append_drop]

theorem writtenSlice_add (edits : List TextEdit) (first n m : Nat) :
    writtenSlice t edits first (n + m) = writtenSlice t edits first n ++ writtenSlice t edits (first + n) m := by
  rw [writtenSlice, writtenSlice, writtenSlice, tokenSlice, tokenSlice, tokenSlice, ← List.flatMap_append,
    List.take_add, List.drop_drop]

theorem writtenFrom_eq_writtenSlice {before ps : List Piece} {edits : List TextEdit} (ht : pieces t = before ++ ps) :
    writtenFrom t edits before.length = writtenSlice t edits before.length ps.length := by
  have hlength : (Lexer.tokenize t).length = before.length + ps.length := by
    have := congrArg List.length ht
    rwa [pieces, List.length_map, List.length_append] at this
  rw [writtenFrom_eq_append _ _ ps.length, writtenFrom, List.drop_eq_nil_of_le (Nat.le_of_eq hlength),
    List.flatMap_nil, List.append_nil]

section Written

variable {renames : Prop} {edits : List TextEdit} (hedits : (parse t).AdaptEdits renames edits)
  {before ps after : List Piece} (ht : pieces t = before ++ ps ++ after)
include hedits ht

theorem writtenSlice_eq_print (h : ∀ i token new, before.length ≤ i → i < before.length + ps.length →
      (parse t).tokens[i]? = some token → ¬(parse t).Adapts renames i token new) :
    writtenSlice t edits before.length ps.length = Piece.print ps := by
  conv_rhs => rw [← map_tokenSlice ht]
  rw [writtenSlice, Piece.print, List.flatMap_map]
  refine List.flatMap_congr fun token htoken => ?_
  obtain ⟨i, hfirst, hlt, hi⟩ := mem_tokenSlice htoken
  exact written_of_not_adapts hedits hi fun new => h i token new hfirst hlt hi

theorem writtenSlice_blanks {w : Text} (hps : ps = Part.blanks w) :
    writtenSlice t edits before.length ps.length = w := by
  refine (writtenSlice_eq_print hedits ht fun i token new hfirst hlt hi hadapts => ?_).trans
    (hps ▸ Part.print_blanks w)
  have hmem : (token.kind, token.text) ∈ ps := by
    rw [← map_tokenSlice ht]
    refine List.mem_map_of_mem (List.mem_iff_getElem?.mpr ⟨i - before.length, ?_⟩)
    rw [tokenSlice, List.getElem?_take, if_pos (by omega), List.getElem?_drop,
      show before.length + (i - before.length) = i by omega, ← tokens_parse, hi]
  have hkind : token.kind = .whitespace := by
    rw [hps, Part.blanks] at hmem
    split at hmem
    · cases hmem
    · exact congrArg Prod.fst (List.mem_singleton.mp hmem)
  rcases hadapts.isCode hi with htrivia | hdoc
  · rw [hkind] at htrivia
    cases htrivia
  · rw [hkind] at hdoc
    cases hdoc

variable (hplain : renames → ∀ i, before.length ≤ i → i < before.length + ps.length →
  ¬(parse t).ImportsAt i)
include hplain

theorem respells_adaptedPiece :
    Lexer.Respells ps ((tokenSlice t before.length ps.length).map (adaptedPiece edits)) := by
  apply Relation.ReflTransGen.single
  conv_lhs => rw [← map_tokenSlice ht]
  rw [List.forall₂_map_left_iff, List.forall₂_map_right_iff, List.forall₂_same]
  intro token htoken
  obtain ⟨i, hfirst, hlt, hi⟩ := mem_tokenSlice htoken
  exact adaptedPiece_respelling hedits hi fun hrenames => hplain hrenames i hfirst hlt

/-- What is respelled in them is a reference. -/
theorem reference_of_respelled {i : Nat} (hi : (Piece.code ps)[i]? ≠
      (Piece.code ((tokenSlice t before.length ps.length).map (adaptedPiece edits)))[i]?) :
    i < (Piece.code ps).length ∧ ∃ s ∈ (parse t).scopes, ∃ r ∈ (parse t).references s.first s.stop,
      r.token = (Code.ofText t).tokenIndex ((Piece.code before).length + i) := by
  have htokens := map_tokenSlice ht
  have hmatch := (respells_adaptedPiece hedits ht hplain).matchAll
  have hlt : i < (Piece.code ps).length := by
    by_contra hge
    rw [List.getElem?_eq_none (Nat.le_of_not_lt hge),
      List.getElem?_eq_none (hmatch.code.length_eq ▸ Nat.le_of_not_lt hge)] at hi
    exact hi rfl
  obtain ⟨m, hm, hindex⟩ := Code.tokenIndex_stretch ht hlt
  have hm0 : (Piece.places 0 ps)[i]? = some (0 + m) := by rw [hm, Nat.zero_add]
  have hmlt : m < ps.length := by
    have := (Piece.lt_of_mem_places m (List.mem_of_getElem? hm)).2
    omega
  rw [Piece.getElem?_code ps hm0, Piece.getElem?_code _ ((hmatch.places 0).symm ▸ hm0)] at hi
  obtain ⟨token, htoken⟩ : ∃ token, (tokenSlice t before.length ps.length)[m]? = some token := by
    have hlen := congrArg List.length htokens
    rw [List.length_map] at hlen
    exact ⟨_, List.getElem?_eq_getElem (by rw [hlen]; exact hmlt)⟩
  have hpiece : ps[m]? = some (token.kind, token.text) := by
    conv_lhs => rw [← htokens]
    rw [List.getElem?_map, htoken]
    rfl
  rw [hpiece, List.getElem?_map, htoken, Option.map_some, ne_eq, Option.some.injEq] at hi
  have hat : (parse t).tokens[before.length + m]? = some token := by
    rw [tokenSlice, List.getElem?_take, if_pos hmlt, List.getElem?_drop] at htoken
    rw [tokens_parse, htoken]
  have htrivia : token.kind.isTrivia = false := by
    have hcode := Piece.getElem?_code ps hm0
    rw [hpiece] at hcode
    simpa using (List.mem_filter.mp (List.mem_of_getElem? hcode)).2
  refine ⟨hlt, ?_⟩
  rw [hindex]
  exact reference_of_adaptedPiece hedits hat
    (fun hrenames => hplain hrenames _ (Nat.le_add_right _ _) (by omega)) htrivia hi

theorem exists_respelled : ∃ qs, Lexer.Respells ps qs ∧
    Piece.print qs = writtenSlice t edits before.length ps.length ∧
    ∀ i, (Piece.code ps)[i]? ≠ (Piece.code qs)[i]? → i < (Piece.code ps).length ∧
      ∃ s ∈ (parse t).scopes, ∃ r ∈ (parse t).references s.first s.stop,
        r.token = (Code.ofText t).tokenIndex ((Piece.code before).length + i) := by
  refine ⟨_, respells_adaptedPiece hedits ht hplain, ?_, fun i => reference_of_respelled hedits ht hplain⟩
  rw [Piece.print, List.flatMap_map, writtenSlice]
  exact List.flatMap_congr fun token _ => adaptedPiece_text edits token

end Written

/-- No reference stands in a `use` statement. -/
def ReferenceFree (f : SourceFile) (s : Statement) : Prop :=
  ∀ items, s.kind = .imports items → ∀ scope ∈ f.scopes, ∀ r ∈ f.references scope.first scope.stop,
    ¬(s.first ≤ r.token ∧ r.token < s.stop)

theorem root_referenceFree (f : SourceFile) : f.root.Everywhere f.ReferenceFree := by
  refine everywhere_of_outline [] 0 _ fun l hl items hitems s hs r hr hinside => ?_
  obtain ⟨-, -, -, -, -, -, houtside⟩ := references_token hr
  exact houtside (l.statement.first, l.statement.stop)
    (List.mem_filterMap.mpr ⟨l, hl, by rw [importItems?_eq_some.mpr hitems]; rfl⟩) hinside

end SourceFile

open SourceFile (parse writtenSlice writtenFrom)

/-- No reference, and so nothing that is respelled, is in an import of a statement, wherever that is read. -/
theorem Statement.importsFree_of_stands {t t' : Text} {before before' ps after after' : List Piece}
    (ht : pieces t = before ++ ps ++ after) (ht' : pieces t' = before' ++ ps ++ after')
    (hstart : Piece.code before' = []) {changed : Nat → Prop}
    (hchanged : ∀ i, changed i → i < (Piece.code ps).length ∧
      ∃ s ∈ (parse t).scopes, ∃ r ∈ (parse t).references s.first s.stop,
        r.token = (Code.ofText t).tokenIndex ((Piece.code before).length + i))
    {l : Located} (hl : l ∈ (parse t).outline) {s : Statement}
    (hstands : s.move before.length ∈ l.statement.children) :
    (s.move before'.length).Everywhere (Parser.ImportsFree (.ofText t') changed) := by
  have hfree := ((outline_everywhere [] 0 _ (SourceFile.root_referenceFree _) l hl).child hstands).of_move
  refine (hfree.imp fun s hs items hitems i hi hinside => ?_).move
  obtain ⟨hlt, scope, hscope, r, hr, hindex⟩ := hchanged i hi
  obtain ⟨items', hitems'⟩ : ∃ items', (s.move before.length).kind = .imports items' := by
    rw [kind_move] at hitems ⊢
    cases hkind : s.kind with
    | imports items => exact ⟨_, rfl⟩
    | _ => rw [hkind] at hitems; cases hitems
  obtain ⟨m, hm, hplace⟩ := Code.tokenIndex_stretch ht hlt
  obtain ⟨m', hm', hplace'⟩ := Code.tokenIndex_stretch ht' hlt
  obtain rfl : m = m' := Option.some.inj (hm.symm.trans hm')
  rw [hstart, List.length_nil, Nat.zero_add] at hplace'
  rw [first_move, stop_move, hplace'] at hinside
  refine hs items' hitems' scope hscope r hr ?_
  rw [hindex, hplace, first_move, stop_move]
  omega

section Adapt

variable {t : Text} {renames : Prop} {edits : List TextEdit}
  (hedits : (parse t).AdaptEdits renames edits)
include hedits

/-- A part that stands alone, and has no imported names, stands alone after the step. -/
theorem Part.IsAlone.adapt {part : Part} (h : part.IsAlone) {before after : List Piece}
    (ht : pieces t = before ++ part.content ++ after) {l : Located} (hl : l ∈ (parse t).outline)
    (hstands : part.statement.move before.length ∈ l.statement.children)
    (hplain : renames → ∀ i, before.length ≤ i → i < before.length + part.content.length →
      ¬(parse t).ImportsAt i) :
    ∃ part' : Part, part'.IsAlone ∧ part'.lead = part.lead ∧
      Piece.print part'.content = writtenSlice t edits before.length part.content.length ∧
      part'.statement.bare = part.statement.bare := by
  obtain ⟨qs, hrespells, hprint, hdiffers⟩ := SourceFile.exists_respelled hedits ht hplain
  rw [← hprint]
  refine h.respell hrespells (fun i hi => ?_) ?_
  · obtain ⟨hlt, s, hs, r, hr, hindex⟩ := hdiffers i hi
    have hsize : (Piece.code before).length + i < (Code.ofText t).size := by
      rw [Code.size_stretch ht]
      omega
    obtain ⟨item, hitem⟩ := Code.exists_item hsize
    have htoken : item.1 = r.token := by rw [hindex, Code.tokenIndex_eq hitem]
    exact (SourceFile.isFree_of_reference hs hr hitem htoken).alone ht h.read hlt
  · exact Statement.importsFree_of_stands ht h.read.pieces rfl hdiffers hl hstands

namespace Part

/-- What a row begins with after the step, if each part is some part then. -/
theorem exists_adapted_rowHead {Q : Part → Part → Prop} {before rest : List Piece} {gap : Text} {parts : List Part}
    (ht : pieces t = before ++ rowHead gap parts ++ rest)
    (hparts : ∀ before' part after, pieces t = before' ++ part.content ++ after → part ∈ parts →
      part.statement.move before'.length ∈ rowStatements before.length gap parts →
      ∃ part' : Part, part'.lead = part.lead ∧
        Piece.print part'.content = writtenSlice t edits before'.length part.content.length ∧
        Q part part') :
    ∃ parts', List.Forall₂ Q parts parts' ∧
      writtenSlice t edits before.length (rowHead gap parts).length = Piece.print (rowHead gap parts') := by
  induction parts generalizing before gap with
  | nil => exact ⟨[], .nil, rfl⟩
  | cons part parts ih =>
    have hnext := rowHead_cons ht
    rw [rowStatements_cons] at hparts
    obtain ⟨parts', hparts', hrest⟩ := ih hnext fun before' part' after ht' hpart' hmem =>
      hparts before' part' after ht' (List.mem_cons_of_mem _ hpart') (List.mem_cons_of_mem _ hmem)
    obtain ⟨part', hlead, hprint, hQ⟩ :=
      hparts _ part _ (hnext.trans (List.append_assoc _ _ _)) List.mem_cons_self List.mem_cons_self
    have hblanks := SourceFile.writtenSlice_blanks hedits
      (hnext.trans ((List.append_assoc _ _ _).trans (List.append_assoc _ _ _))) rfl
    refine ⟨part' :: parts', .cons hQ hparts', ?_⟩
    rw [rowHead, List.append_assoc, List.length_append, SourceFile.writtenSlice_add, hblanks, List.length_append,
      SourceFile.writtenSlice_add, ← List.length_append, ← hprint, ← List.length_append, hrest, rowHead,
      Piece.print_append, Piece.print_append, print_blanks, hlead]
    simp only [List.append_assoc]

end Part
end Adapt
end NamespaceMigration
