import NamespaceMigration.Adaptation.Extraction
import NamespaceMigration.Proofs.Lines.Counting
import NamespaceMigration.Proofs.Planning.Decisions
import NamespaceMigration.Proofs.Rendering.Reading
import NamespaceMigration.Proofs.Rewriting.Qualified
import NamespaceMigration.Proofs.Statements.Tree

/-! The lines of review items. A literal is found in a file that is made for its declaration, after names have
been written in full. That keeps all lines, so the line counts from the declaration, and the literal stands
there in the source, too. -/
namespace NamespaceMigration

open Lexer (pieces tokenize)
open SourceFile (parse)

theorem Lexer.Reworded.count_newline {u v : Text} (h : Reworded u v) : v.count '\n' = u.count '\n' := by
  induction h with
  | nil => rfl
  | cons c _ ih => rw [List.count_cons, List.count_cons, ih]
  | word hx hy _ ih =>
    have hnone {x : Text} (hx : IsWord x) : x.count '\n' = 0 :=
      List.count_eq_zero.mpr fun hmem => (hx.2 _ hmem).2.2 rfl
    rw [List.count_append, List.count_append, hnone hx, hnone hy, ih]

theorem Lexer.Respelling.count_newline {p q : Piece} (h : Respelling p q) (hshape : HasNameShape p.1 p.2) :
    q.2.count '\n' = p.2.count '\n' := by
  have hname {u : Text} (hu : IsName u) : u.count '\n' = 0 :=
    List.count_eq_zero.mpr (hu.not_mem (by decide) (by decide))
  have hfull (u : Text) : List.count '\n' ('\\' :: u) = u.count '\n' := List.count_cons_of_ne (by decide)
  cases h with
  | same => rfl
  | @name kind w u hkind hu =>
    have hw : w.count '\n' = 0 := by
      by_cases hk : kind = .nameFullyQualified
      · subst hk
        obtain ⟨w, rfl, hw⟩ := hshape
        rw [hfull, hname hw]
      · exact hname (hshape.isName hkind hk)
    rw [hfull, hname hu, hw]
  | comment _ huv => exact ((((huv.cons _).cons '*').cons '*').cons '/').count_newline

theorem Lexer.Respelling.count_newline_print {ps qs : List Piece} (h : List.Forall₂ Respelling ps qs)
    (hshape : ∀ p ∈ ps, HasNameShape p.1 p.2) :
    (Piece.print qs).count '\n' = (Piece.print ps).count '\n' := by
  induction h with
  | nil => rfl
  | cons hpq _ ih =>
    rw [List.forall_mem_cons] at hshape
    rw [Piece.print_cons, Piece.print_cons, List.count_append, List.count_append, hpq.count_newline hshape.1,
      ih hshape.2]

namespace SourceFile

theorem pieces_respelling (t : Text) :
    List.Forall₂ Lexer.Respelling (pieces t) (pieces (Adaptation.qualify t)) := by
  rw [pieces_qualify, pieces, List.forall₂_map_left_iff, List.forall₂_map_right_iff, List.forall₂_same]
  exact fun token => qualifiedPiece_respelling

theorem exists_pieces {t : Text} {i : Nat} {token : Token} (h : (parse t).tokens[i]? = some token) :
    ∃ before after, pieces t = before ++ (token.kind, token.text) :: after ∧ before.length = i ∧
      token.offset = Text.byteSize (Piece.print before) := by
  have hi : (pieces t)[i]? = some (token.kind, token.text) := by
    rw [tokens_parse] at h
    rw [pieces, List.getElem?_map, h]
    rfl
  obtain ⟨hlt, hget⟩ := List.getElem?_eq_some_iff.mp hi
  have hpieces : pieces t = (pieces t).take i ++ (token.kind, token.text) :: (pieces t).drop (i + 1) := by
    rw [← hget, ← List.drop_eq_getElem_cons hlt, List.take_append_drop]
  have hlength : ((pieces t).take i).length = i := by
    rw [List.length_take]
    omega
  refine ⟨_, _, hpieces, hlength, ?_⟩
  have hrange := tokenRange_pieces hpieces
  rw [hlength, tokenRange_eq h] at hrange
  exact congrArg TextRange.start hrange

/-- A literal that is reported stands in the text before its names are written in full, on the same line. -/
theorem exists_literal {x : RenameIndex} {t : Text} {item : ReviewItem}
    (h : item ∈ (parse (Adaptation.qualify t)).reviewLiterals x) :
    ∃ before after, t = before ++ item.text ++ after ∧ item.line = before.count '\n' + 1 ∧
      (literalClass? item.text).isSome := by
  rw [reviewLiterals] at h
  obtain ⟨token, htoken, hitem⟩ := List.mem_filterMap.mp h
  obtain ⟨hmem, hkind⟩ := List.mem_filter.mp htoken
  rw [beq_iff_eq] at hkind
  simp only [Option.bind_eq_bind, Option.bind_eq_some_iff] at hitem
  obtain ⟨name, hname, e, -, hsome⟩ := hitem
  obtain ⟨-, hitem⟩ := Option.ite_none_right_eq_some.mp hsome
  obtain rfl := Option.some.inj hitem
  obtain ⟨i, hi⟩ := List.mem_iff_getElem?.mp hmem
  rw [Array.getElem?_toList] at hi
  obtain ⟨before, after, hpieces, hlength, hoffset⟩ := exists_pieces hi
  have hall := pieces_respelling t
  rw [hpieces] at hall
  have hbefore := List.forall₂_take_append _ _ _ hall
  have hrest := List.forall₂_drop_append _ _ _ hall
  cases hdrop : (pieces t).drop before.length with
  | nil =>
    rw [hdrop] at hrest
    cases hrest
  | cons p after' =>
    rw [hdrop, List.forall₂_cons] at hrest
    have hsame : p = (token.kind, token.text) := by
      have hrespelling := hrest.1
      rw [hkind] at hrespelling ⊢
      cases hrespelling
      rfl
    have hsource : pieces t = (pieces t).take before.length ++ p :: after' := by
      rw [← hdrop, List.take_append_drop]
    refine ⟨Piece.print ((pieces t).take before.length), Piece.print after', ?_, ?_, ?_⟩
    · conv_lhs => rw [← Lexer.print_pieces t, hsource]
      rw [Piece.print_append, Piece.print_cons, hsame, List.append_assoc]
    · have htext : Adaptation.qualify t = Piece.print before ++ Piece.print ((token.kind, token.text) :: after) := by
        rw [← Piece.print_append, ← hpieces, Lexer.print_pieces]
      have hline := LineIndex.line_append (Piece.print before) (Piece.print ((token.kind, token.text) :: after))
      rw [← htext, ← hoffset] at hline
      change (LineIndex.ofSource (Adaptation.qualify t)).line token.offset = _
      rw [hline, Lexer.Respelling.count_newline_print hbefore fun q hq => Lexer.pieces_shape (List.mem_of_mem_take hq)]
    · dsimp only
      rw [hname]
      rfl

end SourceFile

theorem literalClass?_getLast? {literal name : Text} (h : literalClass? literal = some name) :
    ∃ front quote, literal = front ++ [quote] ∧ quote ≠ '\n' := by
  cases literal with
  | nil => cases h
  | cons quote rest =>
    rw [literalClass?] at h
    split at h
    · rename_i hquoted
      obtain ⟨hquote, -, hlast⟩ := hquoted
      obtain ⟨front, rfl⟩ := List.getLast?_eq_some_iff.mp hlast
      refine ⟨quote :: front, quote, rfl, ?_⟩
      rintro rfl
      exact absurd hquote (by decide)
    · cases h

/-- What stands in a text behind a header of whole lines, and is not on one of them, is in the body. -/
theorem exists_in_body {head body before mid after : Text} (hhead : ∃ front, head = front ++ ['\n'])
    (hmid : ∃ front last, mid = front ++ [last] ∧ last ≠ '\n')
    (h : head ++ body ++ ['\n'] = before ++ mid ++ after) (hline : head.count '\n' ≤ before.count '\n') :
    ∃ before' after', before = head ++ before' ∧ body = before' ++ mid ++ after' := by
  obtain ⟨before', rfl⟩ : ∃ before', before = head ++ before' := by
    have hboth := h
    rw [List.append_assoc, List.append_assoc, List.append_eq_append_iff] at hboth
    rcases hboth with ⟨before', hbefore, -⟩ | ⟨rest, hrest, -⟩
    · exact ⟨before', hbefore⟩
    · rcases List.eq_nil_or_concat rest with rfl | ⟨rest, c, rfl⟩
      · exact ⟨[], by rw [hrest, List.append_nil, List.append_nil]⟩
      · -- The header would end with a line feed of its own.
        obtain ⟨front, rfl⟩ := hhead
        rw [List.concat_eq_append, ← List.append_assoc] at hrest
        obtain ⟨rfl, hc⟩ := List.append_inj' hrest rfl
        obtain rfl := List.singleton_inj.mp hc
        rw [List.count_append, List.count_append, List.count_singleton_self] at hline
        omega
  rw [List.append_assoc, List.append_assoc, List.append_assoc] at h
  have htail := List.append_cancel_left h
  rcases List.eq_nil_or_concat after with rfl | ⟨after', c, rfl⟩
  · obtain ⟨front, last, rfl, hlast⟩ := hmid
    rw [List.append_nil, ← List.append_assoc] at htail
    exact absurd (List.singleton_inj.mp (List.append_inj' htail rfl).2).symm hlast
  · rw [List.concat_eq_append, ← List.append_assoc, ← List.append_assoc] at htail
    exact ⟨before', after', rfl, (List.append_inj' htail rfl).1⟩

namespace SourceFile

theorem tokenRange_take (t : Text) (i : Nat) :
    (parse t).tokenRange i = ⟨Text.byteSize (Piece.print ((pieces t).take i)),
      Text.byteSize (Piece.print ((pieces t).take (i + 1)))⟩ := by
  by_cases hi : i < (pieces t).length
  · have hpieces : pieces t = (pieces t).take i ++ (pieces t)[i] :: (pieces t).drop (i + 1) := by
      rw [← List.drop_eq_getElem_cons hi, List.take_append_drop]
    have hlength : ((pieces t).take i).length = i := by
      rw [List.length_take]
      omega
    have hrange := tokenRange_pieces hpieces
    rw [hlength] at hrange
    rw [hrange, List.take_succ_eq_append_getElem hi, Piece.print_append, Text.byteSize_append, Piece.print_cons,
      Piece.print_nil, List.append_nil]
  · have hnone : (parse t).tokens[i]? = none := by
      rw [tokens_parse, List.getElem?_eq_none]
      rw [pieces, List.length_map] at hi
      omega
    rw [tokenRange, hnone, List.take_of_length_le (by omega), List.take_of_length_le (by omega),
      Lexer.print_pieces]
    rfl

/-- A statement with its comment is a part of the text. -/
theorem exists_rangeWithDoc {t : Text} {s : Statement} (hstart : s.start ≤ s.first) (hlt : s.first < s.stop) :
    ∃ before body after, t = before ++ body ++ after ∧ (parse t).rangeWithDoc s =
      ⟨Text.byteSize before, Text.byteSize before + Text.byteSize body⟩ := by
  have hrange : (parse t).rangeWithDoc s = ⟨Text.byteSize (Piece.print ((pieces t).take s.start)),
      Text.byteSize (Piece.print ((pieces t).take s.stop))⟩ := by
    have hstop : s.stop - 1 + 1 = s.stop := by omega
    rw [rangeWithDoc, range, if_neg (Nat.not_le.mpr hlt), Statement.start]
    cases s.doc? with
    | none =>
      dsimp only
      rw [tokenRange_take, tokenRange_take, hstop]
      rfl
    | some doc =>
      dsimp only
      rw [tokenRange_take, tokenRange_take, hstop]
      rfl
  have hsplit : (pieces t).take s.stop =
      (pieces t).take s.start ++ ((pieces t).drop s.start).take (s.stop - s.start) := by
    rw [← List.take_add, Nat.add_sub_cancel' (by omega)]
  refine ⟨Piece.print ((pieces t).take s.start), Piece.print (((pieces t).drop s.start).take (s.stop - s.start)),
    Piece.print ((pieces t).drop s.stop), ?_, ?_⟩
  · rw [← Piece.print_append, ← hsplit, ← Piece.print_append, List.take_append_drop, Lexer.print_pieces]
  · rw [hrange, hsplit, Piece.print_append, Text.byteSize_append]

end SourceFile

namespace Extraction

theorem surroundings_ends (d : Decision) (imports : List Text) :
    ∃ front, d.surroundings imports = front ++ ['\n'] := ⟨_, rfl⟩

/-- Whatever is taken out of a file is read from a text of its own. -/
theorem ofDecision_eq_ok {f : SourceFile} {path : Text} {d : Decision} {x : RenameIndex} {createAliases : Bool}
    {e : Extraction} (h : ofDecision f path d x createAliases = .ok e) :
    ∃ l before fragment, f.findByTokens? d.tokens.first d.tokens.stop = some l ∧
      (∃ front, before = front ++ ['\n']) ∧
      Fragment.ofText (d.renameDeclaration (Adaptation.renameAll x
        (before ++ (f.rangeWithDoc l.statement).of f.text ++ ['\n'])).text) = .ok fragment ∧
      e.fragment = { fragment with
        space? := d.newSpace?
        body := fragment.body ++ if createAliases then d.aliasStatement?.toList else [] } ∧
      e.review = placeReview path (before.count '\n' + 1) (f.lines.line (f.rangeWithDoc l.statement).start)
        ((parse (Adaptation.qualify (before ++ (f.rangeWithDoc l.statement).of f.text ++
          ['\n']))).reviewLiterals x) := by
  rw [ofDecision] at h
  cases hl : f.findByTokens? d.tokens.first d.tokens.stop with
  | none =>
    rw [hl] at h
    cases h
  | some l =>
    rw [hl] at h
    cases hs : f.scopes.find? (·.containsToken l.statement.first) with
    | none =>
      simp only [hs] at h
      cases h
    | some s =>
      simp only [hs] at h
      obtain ⟨fragment, hread, h⟩ := bind_eq_ok h
      cases h
      exact ⟨l, _, fragment, rfl, surroundings_ends d _, mapError_eq_ok hread, rfl, rfl⟩

theorem mem_placeReview {path : Text} {fragmentLine sourceLine : Nat} {review : List ReviewItem}
    {item : ReviewItem} (h : item ∈ placeReview path fragmentLine sourceLine review) :
    ∃ found ∈ review, fragmentLine ≤ found.line ∧ item.path? = some path ∧ item.text = found.text ∧
      item.line = found.line - fragmentLine + sourceLine := by
  obtain ⟨found, hfound, rfl⟩ := List.mem_map.mp h
  obtain ⟨hmem, hline⟩ := List.mem_filter.mp hfound
  exact ⟨found, hmem, of_decide_eq_true hline, rfl, rfl, rfl⟩

/-- Every review item has the path of the file, and its literal stands in the declaration that it was found in, on
the line that the item says. -/
theorem review_in_declaration {c : PlanConfig} {path t : Text} {d : Decision}
    (hd : d ∈ (FilePlan.ofText c path t).decisions) {x : RenameIndex} {createAliases : Bool} {e : Extraction}
    (he : ofDecision (parse t) path d x createAliases = .ok e) :
    ∃ l ∈ (parse t).outline, ∃ declaration, (parse t).declarationAt l = .ok (some declaration) ∧
      d = (parse t).decide c declaration ∧
      ∀ item ∈ e.review, item.path? = some path ∧ ∃ before after, t = before ++ item.text ++ after ∧
        item.line = before.count '\n' + 1 ∧
        ((parse t).rangeWithDoc l.statement).start ≤ Text.byteSize before ∧
        Text.byteSize (before ++ item.text) ≤ ((parse t).rangeWithDoc l.statement).stop := by
  obtain ⟨l, hl, declaration, hat, hdecide⟩ := FilePlan.mem_decisions hd
  refine ⟨l, hl, declaration, hat, hdecide, fun item hitem => ?_⟩
  have htail : l ∈ (parse t).outline.tail := by
    rcases SourceFile.mem_outline_cases hl with rfl | htail
    · cases hat
    · exact htail
  have htree := SourceFile.parse_isTree t
  obtain ⟨l', head, -, hl', hhead, -, -, hreview⟩ := ofDecision_eq_ok he
  have htokens : d.tokens = ⟨l.statement.first, l.statement.stop⟩ := by
    rw [hdecide, SourceFile.decide, SourceFile.place_of_declarationAt hat]
  rw [htokens, htree.found l htail, Option.some.injEq] at hl'
  subst hl'
  obtain ⟨hstart, hlt⟩ := htree.nonempty l htail
  obtain ⟨front, body, back, ht, hrange⟩ := SourceFile.exists_rangeWithDoc hstart hlt
  have hbody : ((parse t).rangeWithDoc l.statement).of (parse t).text = body := by
    change ((parse t).rangeWithDoc l.statement).of t = body
    rw [hrange]
    conv_lhs => rw [ht]
    exact Text.slice_append front body back
  have hline : (parse t).lines.line ((parse t).rangeWithDoc l.statement).start = front.count '\n' + 1 := by
    have hfront := LineIndex.line_append front (body ++ back)
    rw [← List.append_assoc, ← ht] at hfront
    rw [hrange]
    exact hfront
  rw [hreview, hbody, hline] at hitem
  obtain ⟨found, hfound, hbehind, hpath, htext, hplace⟩ := mem_placeReview hitem
  obtain ⟨before, after, hsplit, hcount, hclass⟩ := SourceFile.exists_literal hfound
  obtain ⟨name, hname⟩ := Option.isSome_iff_exists.mp hclass
  obtain ⟨before', after', rfl, rfl⟩ :=
    exists_in_body hhead (literalClass?_getLast? hname) hsplit (by omega)
  rw [← htext] at ht hrange
  refine ⟨hpath, front ++ before', after' ++ back, by simpa only [List.append_assoc] using ht, ?_, ?_, ?_⟩
  · rw [List.count_append] at hcount ⊢
    omega
  · rw [hrange]
    simp only [Text.byteSize_append]
    omega
  · rw [hrange]
    simp only [Text.byteSize_append]
    omega

/-- A class with a literal that spells its name, under a comment and behind imports on two lines. -/
def literalSource : Text :=
  "<?php\nnamespace A;\nuse B\\C,\n  B\\E;\n\n/** All. */\nclass D\n\x7b\n  const NAME = 'A\\D';\n\x7d\n"

def literalItem : ReviewItem := ⟨some "a.php", 9, "'A\\D'", "\\Acme\\A\\D"⟩

theorem literalSource_review : let p := FilePlan.ofText (.ofLead "Acme") "a.php" literalSource
    ∃ d ∈ p.decisions, ∃ e, ofDecision (parse literalSource) "a.php" d (.ofFiles [p]) false = .ok e ∧
      literalItem ∈ e.review ∧ ∃ before after, literalSource = before ++ "'A\\D'".toList ++ after ∧
        before.count '\n' + 1 = 9 := by
  intro p
  have hrun : p.decisions.map (fun d =>
      (ofDecision (parse literalSource) "a.php" d (.ofFiles [p]) false).toOption.map (·.review)) =
        [some [literalItem]] := by decide +kernel
  obtain ⟨d, hd, hresult⟩ := List.mem_map.mp (hrun ▸ List.mem_singleton_self _)
  obtain ⟨e, he, hreview⟩ := Option.map_eq_some_iff.mp hresult
  have hok := eq_ok_of_toOption he
  have hitem : literalItem ∈ e.review := hreview ▸ List.mem_singleton_self _
  obtain ⟨_, -, _, -, -, hitems⟩ := review_in_declaration hd hok
  obtain ⟨-, before, after, htext, hline, -⟩ := hitems literalItem hitem
  exact ⟨d, hd, e, hok, hitem, before, after, htext, hline.symm⟩

end Extraction

end NamespaceMigration
