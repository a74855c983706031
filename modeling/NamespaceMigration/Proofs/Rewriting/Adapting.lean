import NamespaceMigration.Proofs.Rewriting.Renaming

/-! What the steps of moving code may write, token by token: a name in full for a reference, other words
in a comment, and for an imported name whatever it is imported as now. -/
namespace NamespaceMigration

open Lexer (tokenize pieces Respelling IsName IsWord)

namespace RenameIndex

/-- An index whose new names are names, where they are other ones. -/
def HasNames (x : RenameIndex) : Prop := ∀ e ∈ x.entries, e.changes → IsName e.new.text

variable {x : RenameIndex}

theorem mem_of_newName? {written : Text} {kind : SymbolKind} {new : QualifiedName}
    (h : x.newName? written kind = some new) : ∃ e ∈ x.entries, e.changes ∧ e.new = new := by
  rw [newName?] at h
  obtain ⟨e, he, hnew⟩ := Option.bind_eq_some_iff.mp h
  split at hnew
  · rename_i hchanges
    exact ⟨e, List.mem_of_find?_eq_some he, hchanges.1, Option.some.inj hnew⟩
  · cases hnew

theorem mem_of_newSpelling? {c : NameContext} {r : Reference} {new : QualifiedName}
    (h : x.newSpelling? c r = some new) : ∃ e ∈ x.entries, e.changes ∧ e.new = new := by
  rw [newSpelling?] at h
  split at h
  · exact mem_of_newName? h
  · cases hmeaning : c.resolve r.text r.kind with
    | resolved _ =>
      rw [hmeaning] at h
      cases h
    | fallback namespaced global =>
      rw [hmeaning, fallbackName?] at h
      obtain ⟨e, he, hnew⟩ := Option.bind_eq_some_iff.mp h
      split at hnew
      · rename_i hchanges
        refine ⟨e, ?_, hchanges, Option.some.inj hnew⟩
        rcases Option.or_eq_some_iff.mp he with hfind | ⟨-, hfind⟩ <;>
          exact List.mem_of_find?_eq_some hfind
      · cases hnew

end RenameIndex

namespace SourceFile

/-- A token is the name of something that a scope imports. -/
def ImportsAt (f : SourceFile) (i : Nat) : Prop :=
  ∃ s ∈ f.scopes, ∃ item ∈ f.scopeImports s, item.nameToken = i

/-- What a step may write in the place of a token. Only one that `renames` changes what is imported. -/
inductive Adapts (f : SourceFile) (renames : Prop) (i : Nat) (token : Token) : Text → Prop
  | reference {s : Scope} {r : Reference} {u : Text} : s ∈ f.scopes →
      r ∈ f.references s.first s.stop → r.token = i → IsName u → Adapts f renames i token ('\\' :: u)
  | comment {s : Scope} {rename : Text → Option Text} : s ∈ f.scopes → s.containsToken i →
      token.kind = .docComment →
      (∀ name new, rename name = some new → IsWord name → IsWord new) →
      Adapts f renames i token (TextEdit.applyAll (token.docEdits rename) token.text)
  | imported {new : Text} : renames → f.ImportsAt i → Adapts f renames i token new

/-- Edits of a step, each of one token. -/
def AdaptEdits (f : SourceFile) (renames : Prop) (edits : List TextEdit) : Prop :=
  ∀ e ∈ edits, ∃ i token, f.tokens[i]? = some token ∧ e.range = token.range ∧
    f.Adapts renames i token e.text

section Steps

variable {t : Text}

theorem adaptEdits_qualify (t : Text) : (parse t).AdaptEdits False (parse t).qualifyEdits := by
  intro e he
  obtain ⟨s, hs, hedit⟩ := mem_qualifyEdits he
  cases hedit with
  | @name r token new hr htoken hnew =>
    obtain ⟨hname, -⟩ := reference_isName hr
    obtain ⟨u, rfl, hu⟩ := NameContext.qualify?_isName (context_hasNames hs) hname hnew
    exact ⟨r.token, token, htoken, rfl, .reference hs hr rfl hu⟩
  | @comment comment hc =>
    obtain ⟨hkind, i, hi, hinside⟩ := mem_docComments hc
    exact ⟨i, comment, hi, rfl, .comment hs hinside hkind fun name new hnew hword =>
      NameContext.qualify?_isWord (context_hasNames hs) hword hnew⟩

theorem isWord_of_renameDocName? {x : RenameIndex} (hx : x.HasNames) {name new : Text}
    (h : renameDocName? x name = some new) : IsWord new := by
  rw [renameDocName?] at h
  split at h
  · obtain ⟨n, hn, rfl⟩ := Option.map_eq_some_iff.mp h
    obtain ⟨e, he, hchanges, rfl⟩ := RenameIndex.mem_of_newName? hn
    obtain ⟨-, hword⟩ := (hx e he hchanges).isWord
    refine ⟨List.cons_ne_nil _ _, List.forall_mem_cons.mpr ⟨by decide, hword⟩⟩
  · cases h

theorem adaptEdits_rename {x : RenameIndex} (hx : x.HasNames) (t : Text) :
    (parse t).AdaptEdits True ((parse t).renames x).edits := by
  intro e he
  obtain ⟨_, hscope, he⟩ := List.mem_flatMap.mp he
  obtain ⟨s, hs, rfl⟩ := List.mem_map.mp hscope
  rw [renameScope, List.mem_append, List.mem_append] at he
  rcases he with (he | he) | he
  · obtain ⟨r, hr, hnew⟩ := List.mem_filterMap.mp he
    obtain ⟨new, hspelling, rfl⟩ := Option.map_eq_some_iff.mp hnew
    obtain ⟨token, htoken, -⟩ := references_token hr
    obtain ⟨entry, hentry, hchanges, rfl⟩ := RenameIndex.mem_of_newSpelling? hspelling
    exact ⟨r.token, token, htoken, tokenRange_eq htoken, .reference hs hr rfl (hx entry hentry hchanges)⟩
  · obtain ⟨item, hitem, hnew⟩ := List.mem_filterMap.mp he
    obtain ⟨token, htoken, -⟩ := nameToken_inside hitem
    refine ⟨item.nameToken, token, htoken, ?_, .imported trivial ⟨s, hs, item, hitem, rfl⟩⟩
    rw [renameImport?] at hnew
    split at hnew
    · cases hnew
    · obtain ⟨new, -, hedit⟩ := Option.bind_eq_some_iff.mp hnew
      cases hedit
      exact tokenRange_eq htoken
  · obtain ⟨⟨comment, inner⟩, hc, hedit⟩ := List.mem_filterMap.mp he
    obtain ⟨comment, hmem, hpair⟩ := List.mem_map.mp hc
    cases hpair
    obtain ⟨hkind, i, hi, hinside⟩ := mem_docComments hmem
    rw [docEdit?_eq_some hedit]
    exact ⟨i, comment, hi, rfl, .comment hs hinside hkind fun name new hnew _ =>
      isWord_of_renameDocName? hx hnew⟩

end Steps

/-- What edits write for a token. -/
def written (edits : List TextEdit) (token : Token) : Text :=
  (TextEdit.replacement? edits token.range).getD token.text

/-- A token that edits have changed, as a piece. -/
def adaptedPiece (edits : List TextEdit) (token : Token) : Piece :=
  match TextEdit.replacement? edits token.range with
  | some new => (if token.kind.isName then .nameFullyQualified else token.kind, new)
  | none => (token.kind, token.text)

theorem adaptedPiece_text (edits : List TextEdit) (token : Token) :
    (adaptedPiece edits token).2 = written edits token := by
  rw [adaptedPiece, written]
  cases TextEdit.replacement? edits token.range <;> rfl

section Written

variable {t : Text} {renames : Prop} {edits : List TextEdit}
  (hedits : (parse t).AdaptEdits renames edits)
include hedits

theorem applyAll_written : TextEdit.applyAll edits t = (tokenize t).flatMap (written edits) := by
  refine TextEdit.applyAll_place fun e he => ?_
  obtain ⟨i, token, htoken, hrange, -⟩ := hedits e he
  rw [tokens_parse] at htoken
  exact ⟨token, List.mem_of_getElem? htoken, hrange⟩

variable {i : Nat} {token : Token} (htoken : (parse t).tokens[i]? = some token)
include htoken

theorem adapts_of_replacement? {new : Text}
    (h : TextEdit.replacement? edits token.range = some new) : (parse t).Adapts renames i token new := by
  obtain ⟨e, he, hrange, rfl⟩ := TextEdit.exists_of_replacement? h
  obtain ⟨j, other, hother, hsame, hadapts⟩ := hedits e he
  obtain rfl : j = i := Lexer.index_eq_of_range_eq ((tokens_parse t j).symm.trans hother)
    ((tokens_parse t i).symm.trans htoken) (hsame.symm.trans hrange)
  rw [htoken, Option.some.injEq] at hother
  rwa [hother]

theorem written_of_not_adapts (h : ∀ new, ¬(parse t).Adapts renames i token new) :
    written edits token = token.text := by
  rw [written]
  cases hnew : TextEdit.replacement? edits token.range with
  | none => rfl
  | some new => exact absurd (adapts_of_replacement? hedits htoken hnew) (h new)

variable (hplain : renames → ¬(parse t).ImportsAt i)
include hplain

/-- Where nothing is imported, a token is respelled. -/
theorem adaptedPiece_respelling : Respelling (token.kind, token.text) (adaptedPiece edits token) := by
  have hpiece : (token.kind, token.text) ∈ pieces t := by
    rw [tokens_parse] at htoken
    exact List.mem_map_of_mem (List.mem_of_getElem? htoken)
  rw [adaptedPiece]
  cases hnew : TextEdit.replacement? edits token.range with
  | none => exact .same _
  | some new =>
    dsimp only
    cases adapts_of_replacement? hedits htoken hnew with
    | reference hs hr hindex hu =>
      obtain ⟨token', htoken', hname, -⟩ := references_token hr
      rw [hindex, htoken, Option.some.injEq] at htoken'
      subst htoken'
      rw [if_pos hname]
      exact .name hname hu
    | comment _ _ hkind hrename =>
      rw [hkind] at hpiece ⊢
      obtain ⟨c, u, hc, htext⟩ := Lexer.docComment_shape hpiece
      obtain ⟨v, hv, hreworded⟩ := Token.docEdits_reworded hc htext hrename
      rw [if_neg (by decide), hv, htext]
      exact .comment hc hreworded
    | imported hrenames himports => exact absurd himports (hplain hrenames)

theorem reference_of_adaptedPiece (htrivia : token.kind.isTrivia = false)
    (h : (token.kind, token.text) ≠ adaptedPiece edits token) :
    ∃ s ∈ (parse t).scopes, ∃ r ∈ (parse t).references s.first s.stop, r.token = i := by
  rw [adaptedPiece] at h
  cases hnew : TextEdit.replacement? edits token.range with
  | none =>
    rw [hnew] at h
    exact absurd rfl h
  | some new =>
    cases adapts_of_replacement? hedits htoken hnew with
    | reference hs hr hindex _ => exact ⟨_, hs, _, hr, hindex⟩
    | comment _ _ hkind _ =>
      rw [hkind] at htrivia
      cases htrivia
    | imported hrenames himports => exact absurd himports (hplain hrenames)

end Written

/-- Whether an edit is of an imported name. -/
def isOfImport (f : SourceFile) (e : TextEdit) : Bool :=
  f.scopes.any fun s => (f.scopeImports s).any fun item => f.tokenRange item.nameToken == e.range

/-- Edits without those of imported names. -/
def besidesImports (f : SourceFile) (edits : List TextEdit) : List TextEdit := edits.filter (!f.isOfImport ·)

section BesidesImports

variable {t : Text} {renames : Prop} {edits : List TextEdit} {i : Nat} {token : Token}

theorem isOfImport_iff (htoken : (parse t).tokens[i]? = some token) {e : TextEdit} (hrange : e.range = token.range) :
    (parse t).isOfImport e ↔ (parse t).ImportsAt i := by
  simp only [isOfImport, List.any_eq_true, beq_iff_eq, ImportsAt, hrange]
  refine exists_congr fun s => and_congr_right fun _ => exists_congr fun item => and_congr_right fun hitem => ?_
  obtain ⟨token', htoken', -⟩ := nameToken_inside hitem
  rw [tokenRange_eq htoken']
  refine ⟨fun hsame => ?_, fun hsame => ?_⟩
  · exact Lexer.index_eq_of_range_eq ((tokens_parse t _).symm.trans htoken') ((tokens_parse t i).symm.trans htoken) hsame
  · rw [hsame, htoken, Option.some.injEq] at htoken'
    rw [htoken']

theorem adaptEdits_besidesImports (hedits : (parse t).AdaptEdits renames edits) :
    (parse t).AdaptEdits False ((parse t).besidesImports edits) := by
  intro e he
  obtain ⟨hmem, hbesides⟩ := List.mem_filter.mp he
  obtain ⟨i, token, htoken, hrange, hadapts⟩ := hedits e hmem
  refine ⟨i, token, htoken, hrange, ?_⟩
  have hnone : ¬(parse t).ImportsAt i := by
    rw [← isOfImport_iff htoken hrange]
    simpa using hbesides
  generalize e.text = new at hadapts
  cases hadapts with
  | reference hs hr hindex hu => exact .reference hs hr hindex hu
  | comment hs hinside hkind hrename => exact .comment hs hinside hkind hrename
  | imported _ himports => exact absurd himports hnone

theorem replacement?_import (htoken : (parse t).tokens[i]? = some token) (h : (parse t).ImportsAt i) :
    TextEdit.replacement? ((parse t).besidesImports edits) token.range = none := by
  rw [TextEdit.replacement?, Option.map_eq_none_iff, List.find?_eq_none]
  intro e he hrange
  have hbesides := (List.mem_filter.mp he).2
  rw [(isOfImport_iff htoken (beq_iff_eq.mp hrange)).mpr h] at hbesides
  exact Bool.false_ne_true hbesides

theorem replacement?_besides (htoken : (parse t).tokens[i]? = some token) (h : ¬(parse t).ImportsAt i) :
    TextEdit.replacement? ((parse t).besidesImports edits) token.range = TextEdit.replacement? edits token.range := by
  rw [TextEdit.replacement?, TextEdit.replacement?, besidesImports, List.find?_filter]
  congr 2
  funext e
  by_cases hrange : e.range = token.range
  · have hnone : (parse t).isOfImport e = false := by
      rw [← Bool.not_eq_true, isOfImport_iff htoken hrange]
      exact h
    simp [hrange, hnone]
  · simp [hrange]

end BesidesImports
end SourceFile
end NamespaceMigration
