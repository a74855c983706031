import NamespaceMigration.Adaptation.Steps
import NamespaceMigration.Proofs.References.Respelling
import NamespaceMigration.Proofs.References.Scanning
import NamespaceMigration.Proofs.Rewriting.Written
import NamespaceMigration.Proofs.Statements.Preservation

/-! What the first step writes. Its edits replace whole tokens: references whose meaning is known by
names in full, and comments by comments with other words. So the text it writes has the tokens of the
text it read, at the same places. -/
namespace NamespaceMigration

open Lexer (tokenize pieces Respelling)

namespace Piece

theorem place_pairwise (offset : Nat) (ps : List Piece) :
    (place offset ps).Pairwise fun a b => a.stop ≤ b.offset := by
  induction ps generalizing offset with
  | nil => exact .nil
  | cons p ps ih => exact List.pairwise_cons.mpr ⟨fun _ => offset_le_of_mem_place, ih _⟩

end Piece

namespace Lexer

theorem lt_stop_of_mem_tokenize {t : Text} {token : Token} (h : token ∈ tokenize t) :
    token.offset < token.stop := by
  have hne : token.text ≠ [] := pieces_ne_nil (List.mem_map_of_mem h)
  have hpos := List.length_pos_of_ne_nil hne
  have hbytes := Text.length_le_byteSize token.text
  rw [Token.stop]
  omega

/-- Tokens of one range are one token. -/
theorem index_eq_of_range_eq {t : Text} {i j : Nat} {a b : Token} (ha : (tokenize t)[i]? = some a)
    (hb : (tokenize t)[j]? = some b) (h : a.range = b.range) : i = j := by
  have hordered : (tokenize t).Pairwise fun a b => a.stop ≤ b.offset := by
    rw [tokenize_eq_place]
    exact Piece.place_pairwise 0 _
  have hoffset : a.offset = b.offset := congrArg (·.start) h
  have hapos := lt_stop_of_mem_tokenize (List.mem_of_getElem? ha)
  have hbpos := lt_stop_of_mem_tokenize (List.mem_of_getElem? hb)
  obtain ⟨hi, rfl⟩ := List.getElem?_eq_some_iff.mp ha
  obtain ⟨hj, rfl⟩ := List.getElem?_eq_some_iff.mp hb
  rcases Nat.lt_trichotomy i j with hlt | heq | hgt
  · have := List.pairwise_iff_getElem.mp hordered i j hi hj hlt
    omega
  · exact heq
  · have := List.pairwise_iff_getElem.mp hordered j i hj hi hgt
    omega

end Lexer

namespace TextEdit

theorem exists_of_replacement? {edits : List TextEdit} {range : TextRange} {new : Text}
    (h : replacement? edits range = some new) : ∃ e ∈ edits, e.range = range ∧ e.text = new := by
  obtain ⟨e, he, htext⟩ := Option.map_eq_some_iff.mp h
  exact ⟨e, List.mem_of_find?_eq_some he, by simpa using List.find?_some he, htext⟩

theorem replacement?_eq {edits : List TextEdit} {range : TextRange} {new? : Option Text}
    (hagree : ∀ e ∈ edits, e.range = range → new? = some e.text)
    (hexists : ∀ new, new? = some new → ∃ e ∈ edits, e.range = range) :
    replacement? edits range = new? := by
  cases h : replacement? edits range with
  | some new =>
    obtain ⟨e, he, hrange, rfl⟩ := exists_of_replacement? h
    exact (hagree e he hrange).symm
  | none =>
    rw [replacement?, Option.map_eq_none_iff, List.find?_eq_none] at h
    cases hnew : new? with
    | none => rfl
    | some new =>
      obtain ⟨e, he, hrange⟩ := hexists new hnew
      exact absurd (by simpa using hrange) (h e he)

end TextEdit

namespace SourceFile

variable {t : Text} {i : Nat} {token : Token}

theorem tokens_parse (t : Text) (i : Nat) : (parse t).tokens[i]? = (tokenize t)[i]? :=
  List.getElem?_toArray

theorem tokenRange_eq {f : SourceFile} (h : f.tokens[i]? = some token) :
    f.tokenRange i = token.range := by
  rw [tokenRange, h]
  rfl

theorem mem_docComments {f : SourceFile} {s : Scope} {comment : Token}
    (h : comment ∈ f.docComments s) : comment.kind = .docComment ∧
      ∃ i, f.tokens[i]? = some comment ∧ s.containsToken i := by
  rw [docComments, List.mem_filter, beq_iff_eq, List.drop_take] at h
  obtain ⟨hmem, hkind⟩ := h
  obtain ⟨n, hn⟩ := List.mem_iff_getElem?.mp hmem
  rw [List.getElem?_take] at hn
  split at hn
  · rename_i hlt
    rw [List.getElem?_drop, Array.getElem?_toList] at hn
    refine ⟨hkind, s.first + n, hn, ?_⟩
    rw [Scope.containsToken, Bool.and_eq_true, decide_eq_true_eq, decide_eq_true_eq]
    omega
  · cases hn

theorem docEdit?_eq_some {comment : Token} {inner : List TextEdit} {e : TextEdit}
    (h : comment.docEdit? inner = some e) :
    e = ⟨comment.range, TextEdit.applyAll inner comment.text⟩ := by
  rw [Token.docEdit?] at h
  split at h
  · cases h
  · exact (Option.some.inj h).symm

/-- An edit of the first step replaces a reference by its name in full, or a comment. -/
inductive QualifyEdit (f : SourceFile) (s : Scope) : TextEdit → Prop
  | name {r : Reference} {token : Token} {new : Text} : r ∈ f.references s.first s.stop →
      f.tokens[r.token]? = some token → (f.context s).qualify? r.text r.kind = some new →
      QualifyEdit f s ⟨token.range, new⟩
  | comment {comment : Token} : comment ∈ f.docComments s →
      QualifyEdit f s ⟨comment.range,
        TextEdit.applyAll (comment.docEdits ((f.context s).qualify? · .type)) comment.text⟩

theorem mem_qualifyEdits {f : SourceFile} {e : TextEdit} (h : e ∈ f.qualifyEdits) :
    ∃ s ∈ f.scopes, f.QualifyEdit s e := by
  obtain ⟨s, hs, he⟩ := List.mem_flatMap.mp h
  refine ⟨s, hs, ?_⟩
  rw [qualifyScope, List.mem_append] at he
  rcases he with he | he
  · obtain ⟨r, hr, hnew⟩ := List.mem_filterMap.mp he
    obtain ⟨new, hqualified, rfl⟩ := Option.map_eq_some_iff.mp hnew
    obtain ⟨token, htoken, -⟩ := references_token hr
    rw [tokenRange_eq htoken]
    exact .name hr htoken hqualified
  · obtain ⟨comment, hc, hedit⟩ := List.mem_filterMap.mp he
    rw [docEdit?_eq_some hedit]
    exact .comment hc

theorem qualifyEdit_token {s : Scope} {e : TextEdit} (h : (parse t).QualifyEdit s e) :
    ∃ token ∈ tokenize t, e.range = token.range := by
  cases h with
  | name _ htoken =>
    rw [tokens_parse] at htoken
    exact ⟨_, List.mem_of_getElem? htoken, rfl⟩
  | comment hc =>
    obtain ⟨-, i, hi, -⟩ := mem_docComments hc
    rw [tokens_parse] at hi
    exact ⟨_, List.mem_of_getElem? hi, rfl⟩

/-- What the first step writes in the place of a token. -/
def qualified? (f : SourceFile) (token : Token) : Option Text :=
  TextEdit.replacement? f.qualifyEdits token.range

/-- A reference becomes its name in full, if its meaning is known. -/
theorem qualified?_reference {s : Scope} (hs : s ∈ (parse t).scopes) {r : Reference}
    (hr : r ∈ (parse t).references s.first s.stop) (htoken : (parse t).tokens[r.token]? = some token) :
    (parse t).qualified? token = ((parse t).context s).qualify? r.text r.kind := by
  rw [tokens_parse] at htoken
  refine TextEdit.replacement?_eq (fun e he hrange => ?_) fun new hnew => ?_
  · obtain ⟨s', hs', hedit⟩ := mem_qualifyEdits he
    cases hedit with
    | @name r' token' new hr' htoken' hnew =>
      rw [tokens_parse] at htoken'
      have hindex := Lexer.index_eq_of_range_eq htoken' htoken hrange
      have hscope := containsToken_of_mem hr'
      rw [hindex] at hscope
      obtain rfl := scope_unique hs' hs hscope (containsToken_of_mem hr)
      obtain rfl := references_unique hr' hr hindex
      exact hnew
    | @comment comment hc =>
      obtain ⟨hkind, i, hi, -⟩ := mem_docComments hc
      rw [tokens_parse] at hi
      obtain rfl := Lexer.index_eq_of_range_eq hi htoken hrange
      obtain ⟨token', htoken', hname, -⟩ := references_token hr
      rw [tokens_parse, hi, Option.some.injEq] at htoken'
      rw [← htoken', hkind] at hname
      cases hname
  · refine ⟨⟨token.range, new⟩, List.mem_flatMap.mpr ⟨s, hs, List.mem_append_left _ ?_⟩, rfl⟩
    refine List.mem_filterMap.mpr ⟨r, hr, ?_⟩
    rw [hnew, tokenRange_eq ((tokens_parse t _).trans htoken)]
    rfl

/-- What is replaced is a reference or a comment. -/
theorem qualified?_cases (htoken : (parse t).tokens[i]? = some token) {new : Text}
    (h : (parse t).qualified? token = some new) :
    (∃ s ∈ (parse t).scopes, ∃ r ∈ (parse t).references s.first s.stop, r.token = i ∧
      ((parse t).context s).qualify? r.text r.kind = some new) ∨
    (token.kind = .docComment ∧ ∃ s ∈ (parse t).scopes,
      new = TextEdit.applyAll (token.docEdits (((parse t).context s).qualify? · .type)) token.text) := by
  obtain ⟨e, he, hrange, rfl⟩ := TextEdit.exists_of_replacement? h
  obtain ⟨s, hs, hedit⟩ := mem_qualifyEdits he
  rw [tokens_parse] at htoken
  cases hedit with
  | @name r token' new hr htoken' hnew =>
    rw [tokens_parse] at htoken'
    exact Or.inl ⟨s, hs, r, hr, Lexer.index_eq_of_range_eq htoken' htoken hrange, hnew⟩
  | @comment comment hc =>
    obtain ⟨hkind, j, hj, -⟩ := mem_docComments hc
    rw [tokens_parse] at hj
    obtain rfl := Lexer.index_eq_of_range_eq hj htoken hrange
    rw [hj, Option.some.injEq] at htoken
    subst htoken
    exact Or.inr ⟨hkind, s, hs, rfl⟩

/-- A token after the first step. -/
def qualifiedPiece (f : SourceFile) (token : Token) : Piece :=
  match f.qualified? token with
  | some new => (if token.kind.isName then .nameFullyQualified else token.kind, new)
  | none => (token.kind, token.text)

theorem qualifiedPiece_respelling (htoken : token ∈ tokenize t) :
    Respelling (token.kind, token.text) ((parse t).qualifiedPiece token) := by
  have hpiece : (token.kind, token.text) ∈ pieces t := List.mem_map_of_mem htoken
  obtain ⟨i, hi⟩ := List.mem_iff_getElem?.mp htoken
  rw [← tokens_parse] at hi
  rw [qualifiedPiece]
  cases hnew : (parse t).qualified? token with
  | none => exact .same _
  | some new =>
    dsimp only
    rcases qualified?_cases hi hnew with ⟨s, hs, r, hr, rfl, hqualified⟩ | ⟨hkind, s, hs, rfl⟩
    · obtain ⟨token', htoken', hname, htext, -⟩ := references_token hr
      rw [hi, Option.some.injEq] at htoken'
      subst htoken'
      rw [← htext] at hqualified
      have hshape := Lexer.pieces_shape hpiece
      have hplain : token.kind ≠ .nameFullyQualified := by
        intro hkind
        rw [hkind] at hshape
        obtain ⟨u, hu, -⟩ := hshape
        change token.text = _ at hu
        have hfull := (NameContext.qualify?_eq_some hqualified).1
        rw [hu] at hfull
        cases hfull
      obtain ⟨u, rfl, hu⟩ := NameContext.qualify?_isName (context_hasNames hs)
        (fun _ => hshape.isName hname hplain) hqualified
      rw [if_pos hname]
      exact .name hname hu
    · rw [hkind] at hpiece ⊢
      obtain ⟨c, u, hc, htext⟩ := Lexer.docComment_shape hpiece
      have hwords : ∀ name new, ((parse t).context s).qualify? name .type = some new →
          Lexer.IsWord name → Lexer.IsWord new := fun _ _ hnew hword =>
        NameContext.qualify?_isWord (context_hasNames hs) hword hnew
      obtain ⟨v, hv, hreworded⟩ := Token.docEdits_reworded hc htext hwords
      rw [if_neg (by decide), hv, htext]
      exact .comment hc hreworded

theorem pieces_qualify (t : Text) :
    pieces (Adaptation.qualify t) = (tokenize t).map (parse t).qualifiedPiece := by
  have hprint : Adaptation.qualify t = Piece.print ((tokenize t).map (parse t).qualifiedPiece) := by
    rw [Adaptation.qualify, TextEdit.applyAll_place, Piece.print, List.flatMap_map]
    · refine List.flatMap_congr fun token _ => ?_
      rw [qualifiedPiece, qualified?]
      cases TextEdit.replacement? (parse t).qualifyEdits token.range <;> rfl
    · intro e he
      obtain ⟨s, -, hedit⟩ := mem_qualifyEdits he
      exact qualifyEdit_token hedit
  rw [hprint]
  refine Lexer.pieces_respell (t := t) ?_
  rw [pieces, List.forall₂_map_left_iff, List.forall₂_map_right_iff, List.forall₂_same]
  exact fun token => qualifiedPiece_respelling

theorem qualify_token (htoken : (parse t).tokens[i]? = some token) :
    ∃ token', (parse (Adaptation.qualify t)).tokens[i]? = some token' ∧
      (token'.kind, token'.text) = (parse t).qualifiedPiece token := by
  rw [tokens_parse] at htoken ⊢
  have hpieces := congrArg (·[i]?) (pieces_qualify t)
  dsimp only [pieces] at hpieces
  rw [List.getElem?_map, List.getElem?_map, htoken] at hpieces
  exact Option.map_eq_some_iff.mp hpieces

theorem length_tokens_qualify (t : Text) :
    (parse (Adaptation.qualify t)).tokens.size = (parse t).tokens.size := by
  have hlength := congrArg List.length (pieces_qualify t)
  rwa [pieces, List.length_map, List.length_map] at hlength

end SourceFile
end NamespaceMigration
