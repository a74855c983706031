import NamespaceMigration.Proofs.Importing.Meaning
import NamespaceMigration.Proofs.Lexing.Names
import NamespaceMigration.Proofs.Lexing.Pieces
import NamespaceMigration.Proofs.Rewriting.CommentOrder
import NamespaceMigration.Proofs.Rewriting.ImportOrder
import NamespaceMigration.Proofs.Rewriting.Qualified
import NamespaceMigration.Proofs.Rewriting.Replacing

/-! What the steps of moving code leave alone. The first two steps make all of their edits. The third one may
drop an edit of a comment inside a `use` statement, but none of a reference in code. All that changes is names
and, in the third step, the imports and what separates them. Edits of stretches of tokens are told apart by where
their tokens are. -/
namespace NamespaceMigration

open Lexer (tokenize)

namespace Lexer

/-- The offset at which a token begins. Past the last token it is the end of the text. -/
def offsetAt (t : Text) (i : Nat) : Nat := Text.byteSize (((tokenize t).take i).flatMap (·.text))

theorem take_append (t : Text) {i j : Nat} (h : i ≤ j) :
    (tokenize t).take j = (tokenize t).take i ++ ((tokenize t).take j).drop i := by
  have htake : ((tokenize t).take j).take i = (tokenize t).take i := by
    rw [List.take_take, Nat.min_eq_left h]
  rw [← htake, List.take_append_drop]

theorem offsetAt_mono (t : Text) {i j : Nat} (h : i ≤ j) : offsetAt t i ≤ offsetAt t j := by
  rw [offsetAt, offsetAt, take_append t h, List.flatMap_append, Text.byteSize_append]
  exact Nat.le_add_right _ _

theorem offsetAt_of_length_le {t : Text} {i : Nat} (h : (tokenize t).length ≤ i) :
    offsetAt t i = Text.byteSize t := by
  rw [offsetAt, List.take_of_length_le h, flatMap_tokenize]

theorem offset_of_consecutive {tokens : List Token} {offset i : Nat} {token : Token}
    (h : Token.Consecutive offset tokens) (htoken : tokens[i]? = some token) :
    token.offset = offset + Text.byteSize ((tokens.take i).flatMap (·.text)) := by
  induction tokens generalizing offset i with
  | nil => cases htoken
  | cons first tokens ih =>
    obtain ⟨hoffset, -, hrest⟩ := h
    cases i with
    | zero =>
      obtain rfl := Option.some.inj htoken
      exact hoffset
    | succ i =>
      rw [ih hrest htoken, List.take_succ_cons, List.flatMap_cons, Text.byteSize_append, Token.stop, hoffset,
        Nat.add_assoc]

variable {t : Text} {i : Nat} {token : Token}

theorem offset_eq (h : (tokenize t)[i]? = some token) : token.offset = offsetAt t i := by
  rw [offset_of_consecutive (tokenize_consecutive t) h, Nat.zero_add, offsetAt]

theorem stop_eq (h : (tokenize t)[i]? = some token) : token.stop = offsetAt t (i + 1) := by
  rw [Token.stop, offset_eq h, offsetAt, offsetAt, List.take_add_one, h, List.flatMap_append,
    Text.byteSize_append]
  simp

theorem exists_around (h : (tokenize t)[i]? = some token) :
    ∃ a b, t = a ++ token.text ++ b ∧ Text.byteSize a = token.offset := by
  refine ⟨((tokenize t).take i).flatMap (·.text), ((tokenize t).drop (i + 1)).flatMap (·.text), ?_,
    (offset_eq h).symm⟩
  obtain ⟨hi, rfl⟩ := List.getElem?_eq_some_iff.mp h
  have hdrop := List.drop_eq_getElem_cons hi
  calc t = ((tokenize t).take i ++ (tokenize t).drop i).flatMap (·.text) := by
        rw [List.take_append_drop, flatMap_tokenize]
    _ = _ := by rw [hdrop, List.flatMap_append, List.flatMap_cons, List.append_assoc]

end Lexer

open Lexer (offsetAt)

namespace TextEdit

variable {t : Text} {e e' : TextEdit} {i j : Nat}

theorem liesIn_of_stretch (hij : i ≤ j) (h : e.range = ⟨offsetAt t i, offsetAt t j⟩) : e.LiesIn t := by
  refine ⟨((tokenize t).take i).flatMap (·.text), (((tokenize t).take j).drop i).flatMap (·.text),
    ((tokenize t).drop j).flatMap (·.text), ?_, ?_⟩
  · rw [← List.flatMap_append, ← Lexer.take_append t hij, ← List.flatMap_append, List.take_append_drop,
      Lexer.flatMap_tokenize]
  · rw [h, ← Text.byteSize_append, ← List.flatMap_append, ← Lexer.take_append t hij]
    rfl

/-- The edit changes nothing outside the tokens from `i` up to `j`. -/
def IsWithin (e : TextEdit) (t : Text) (i j : Nat) : Prop :=
  offsetAt t i ≤ e.range.start ∧ e.range.stop ≤ offsetAt t j

theorem isWithin_of_stretch (h : e.range = ⟨offsetAt t i, offsetAt t j⟩) : e.IsWithin t i j := by
  rw [IsWithin, h]
  exact ⟨Nat.le_refl _, Nat.le_refl _⟩

theorem IsWithin.mono {i' j' : Nat} (h : e.IsWithin t i j) (hi : i' ≤ i) (hj : j ≤ j') :
    e.IsWithin t i' j' :=
  ⟨Nat.le_trans (Lexer.offsetAt_mono t hi) h.1, Nat.le_trans h.2 (Lexer.offsetAt_mono t hj)⟩

theorem IsWithin.apart {i' j' : Nat} (h : e.IsWithin t i j) (h' : e'.IsWithin t i' j') (hle : j ≤ i') :
    e.Apart e' := Or.inl (Nat.le_trans h.2 (Nat.le_trans (Lexer.offsetAt_mono t hle) h'.1))

theorem IsWithin.apart_of_token {i' j' : Nat} (h : e.IsWithin t i (i + 1)) (h' : e'.IsWithin t i' j')
    (hout : ¬(i' ≤ i ∧ i < j')) : e.Apart e' := by
  by_cases hlt : i < i'
  · exact h.apart h' hlt
  · exact (h'.apart h (by omega)).symm

end TextEdit

namespace SourceFile

variable {t : Text}

theorem tokenRange_parse (t : Text) (i : Nat) :
    (parse t).tokenRange i = ⟨offsetAt t i, offsetAt t (i + 1)⟩ := by
  rw [tokenRange, tokens_parse]
  split
  · rename_i token htoken
    rw [Lexer.offset_eq htoken, Lexer.stop_eq htoken]
  · rename_i hnone
    have hlength := List.getElem?_eq_none_iff.mp hnone
    rw [Lexer.offsetAt_of_length_le hlength, Lexer.offsetAt_of_length_le (Nat.le_succ_of_le hlength)]
    rfl

theorem range_parse {s : Statement} (h : s.first < s.stop) :
    (parse t).range s = ⟨offsetAt t s.first, offsetAt t s.stop⟩ := by
  obtain ⟨n, hn⟩ := Nat.exists_eq_add_of_lt h
  rw [range, if_neg (by omega), tokenRange_parse, tokenRange_parse, hn]
  rfl

theorem token_range {i : Nat} {token : Token} (h : (parse t).tokens[i]? = some token) :
    token.range = ⟨offsetAt t i, offsetAt t (i + 1)⟩ := by rw [← tokenRange_eq h, tokenRange_parse]

end SourceFile

open Lexer (offsetAt)

namespace SourceFile

variable {t : Text} (f : SourceFile)

/-- The bytes of a reference in code. -/
def CodeRange (range : TextRange) : Prop :=
  ∃ s ∈ f.scopes, ∃ r ∈ f.references s.first s.stop, range = f.tokenRange r.token

/-- The bytes of a name in a comment. -/
def DocRange (range : TextRange) : Prop :=
  ∃ s ∈ f.scopes, ∃ comment ∈ f.docComments s, ∃ r ∈ DocComment.references comment.text,
    range = r.range.shift comment.offset

/-- The bytes of the name of an import outside groups. -/
def ImportNameRange (range : TextRange) : Prop :=
  ∃ s ∈ f.scopes, ∃ item ∈ f.scopeImports s, item.groupLead? = none ∧ range = f.tokenRange item.nameToken

/-- The bytes of a `use` statement of a scope, perhaps with the blanks and the line break that follow. -/
def UseRange (range : TextRange) : Prop :=
  ∃ s ∈ f.scopes, ∃ l ∈ f.scopeUses s, range = f.range l.statement ∨
    ∃ before blanks behind, f.text = before ++ blanks ++ '\n' :: behind ∧
      Text.byteSize before = (f.range l.statement).stop ∧ (∀ c ∈ blanks, isBlank c) ∧
      range = ⟨(f.range l.statement).start, (f.range l.statement).stop + Text.byteSize blanks + 1⟩

/-- The place where a scope without imports gets its first ones. -/
def InsertionPoint (range : TextRange) : Prop :=
  ∃ s ∈ f.scopes, f.scopeUses s = [] ∧ ∃ anchor, f.importAnchor? s = some anchor ∧
    range = .emptyAt (f.tokenRange anchor).stop

variable {f} {s : Scope}

/-- Edits of references of a scope, each of another one. -/
def CodeEdits (f : SourceFile) (s : Scope) (edits : List TextEdit) : Prop :=
  ∃ rs : List Reference, rs.Sublist (f.references s.first s.stop) ∧
    edits.map (·.range) = rs.map fun r => f.tokenRange r.token

theorem codeEdits_filterMap {new? : Reference → Option TextEdit}
    (h : ∀ r e, new? r = some e → e.range = f.tokenRange r.token) :
    f.CodeEdits s ((f.references s.first s.stop).filterMap new?) := by
  refine ⟨(f.references s.first s.stop).filter fun r => (new? r).isSome, List.filter_sublist, ?_⟩
  generalize f.references s.first s.stop = rs
  induction rs with
  | nil => rfl
  | cons r rs ih =>
    cases hr : new? r with
    | none => rwa [List.filterMap_cons_none hr, List.filter_cons_of_neg (by rw [hr]; exact Bool.false_ne_true)]
    | some e =>
      rw [List.filterMap_cons_some hr, List.filter_cons_of_pos (by rw [hr]; rfl), List.map_cons, List.map_cons,
        ih, h r e hr]

theorem CodeEdits.reference {edits : List TextEdit} (h : f.CodeEdits s edits) {e : TextEdit} (he : e ∈ edits) :
    ∃ r ∈ f.references s.first s.stop, e.range = f.tokenRange r.token := by
  obtain ⟨rs, hsub, hranges⟩ := h
  have hmem : e.range ∈ edits.map (·.range) := List.mem_map_of_mem he
  rw [hranges] at hmem
  obtain ⟨r, hr, hrange⟩ := List.mem_map.mp hmem
  exact ⟨r, hsub.subset hr, hrange.symm⟩

theorem CodeEdits.apart {edits : List TextEdit} (h : (parse t).CodeEdits s edits) :
    edits.Pairwise TextEdit.Apart := by
  obtain ⟨rs, hsub, hranges⟩ := h
  let Distant (a b : TextRange) : Prop := a.stop ≤ b.start ∨ b.stop ≤ a.start
  have hpairwise : (rs.map fun r => (parse t).tokenRange r.token).Pairwise Distant := by
    refine List.pairwise_map.mpr (((references_increasing _ _ _).sublist hsub).imp fun {r r'} hlt => ?_)
    dsimp only [Distant]
    rw [tokenRange_parse, tokenRange_parse]
    exact Or.inl (Lexer.offsetAt_mono t hlt)
  rw [← hranges, List.pairwise_map] at hpairwise
  exact hpairwise

/-- The edits of the comments of a scope. -/
def docTokenEdits (f : SourceFile) (s : Scope) (rename : Text → Option Text) : List TextEdit :=
  (f.docComments s).filterMap fun comment => comment.docEdit? (comment.docEdits rename)

variable {rename : Text → Option Text} {e : TextEdit}

theorem mem_docTokenEdits (he : e ∈ f.docTokenEdits s rename) : ∃ comment ∈ f.docComments s,
    e = ⟨comment.range, TextEdit.applyAll (comment.docEdits rename) comment.text⟩ := by
  obtain ⟨comment, hcomment, hedit⟩ := List.mem_filterMap.mp he
  exact ⟨comment, hcomment, docEdit?_eq_some hedit⟩

theorem docTokenEdits_apart : ((parse t).docTokenEdits s rename).Pairwise TextEdit.Apart := by
  have htokens : (parse t).tokens.toList.Pairwise fun a b => a.stop ≤ b.offset := by
    change (tokenize t).toArray.toList.Pairwise _
    rw [Lexer.tokenize_eq_place]
    exact Piece.place_pairwise 0 _
  have hcomments : ((parse t).docComments s).Pairwise fun a b => a.stop ≤ b.offset :=
    htokens.sublist (List.filter_sublist.trans ((List.drop_sublist _ _).trans (List.take_sublist _ _)))
  refine hcomments.filterMap _ fun a b hle x hx y hy => Or.inl ?_
  rw [docEdit?_eq_some hx, docEdit?_eq_some hy]
  exact hle

/-- An edit of a comment only makes edits of names in it. -/
theorem docTokenEdits_within (hs : s ∈ (parse t).scopes) {P : TextRange → Prop}
    (hP : ∀ range, (parse t).DocRange range → P range) (he : e ∈ (parse t).docTokenEdits s rename) :
    e.EditsWithin P t := by
  obtain ⟨comment, hcomment, rfl⟩ := mem_docTokenEdits he
  obtain ⟨-, i, hi, -⟩ := mem_docComments hcomment
  rw [tokens_parse] at hi
  obtain ⟨a', b', haround, hoffset'⟩ := Lexer.exists_around hi
  intro a old b hsplit hrange
  have hoffset : comment.offset = Text.byteSize a := congrArg (·.start) hrange
  obtain rfl : old = comment.text := by
    rw [List.append_assoc] at hsplit haround
    obtain ⟨rfl, hrest⟩ := TextEdit.eq_of_byteSize_eq (hsplit.symm.trans haround) (by omega)
    refine (TextEdit.eq_of_byteSize_eq hrest ?_).1
    have hstop : comment.stop = Text.byteSize a + Text.byteSize old := congrArg (·.stop) hrange
    rw [Token.stop] at hstop
    omega
  have hinner := (comment.docEdits_replaces rename).shift (Text.byteSize a)
  rw [Nat.zero_add] at hinner
  refine ⟨_, hinner, fun e' he' => hP _ ?_⟩
  obtain ⟨e'', he'', rfl⟩ := List.mem_map.mp he'
  obtain ⟨r, hr, hedit⟩ := List.mem_filterMap.mp he''
  obtain ⟨new, -, rfl⟩ := Option.map_eq_some_iff.mp hedit
  exact ⟨s, hs, comment, hcomment, r, hr, by rw [hoffset]⟩

/-- An edit of one token of a scope. -/
def IsTokenEdit (f : SourceFile) (s : Scope) (e : TextEdit) (i : Nat) : Prop :=
  ∃ token, f.tokens[i]? = some token ∧ s.first ≤ i ∧ i < s.stop ∧ e.range = token.range

theorem IsTokenEdit.range {i : Nat} (h : (parse t).IsTokenEdit s e i) :
    e.range = ⟨offsetAt t i, offsetAt t (i + 1)⟩ := by
  obtain ⟨token, htoken, -, -, hrange⟩ := h
  rw [hrange, token_range htoken]

theorem IsTokenEdit.within {i : Nat} (h : (parse t).IsTokenEdit s e i) : e.IsWithin t i (i + 1) :=
  TextEdit.isWithin_of_stretch h.range

theorem IsTokenEdit.liesIn {i : Nat} (h : (parse t).IsTokenEdit s e i) : e.LiesIn t :=
  TextEdit.liesIn_of_stretch (Nat.le_succ i) h.range

theorem IsTokenEdit.apart {e' : TextEdit} {s' : Scope} {i j : Nat} (h : (parse t).IsTokenEdit s e i)
    (h' : (parse t).IsTokenEdit s' e' j) (hne : i ≠ j) : e.Apart e' :=
  h.within.apart_of_token h'.within (by omega)

/-- Where a reference may be: at a name outside all `use` statements. -/
def HoldsReference (f : SourceFile) (i : Nat) : Prop :=
  (f.kind? i).any TokenKind.isName ∧ ∀ span ∈ f.importSpans, ¬(span.1 ≤ i ∧ i < span.2)

theorem CodeEdits.token {edits : List TextEdit} (h : f.CodeEdits s edits) (he : e ∈ edits) :
    ∃ i, f.IsTokenEdit s e i ∧ f.HoldsReference i := by
  obtain ⟨r, hr, hrange⟩ := h.reference he
  obtain ⟨token, htoken, hname, -, hfirst, hstop, houtside⟩ := references_token hr
  rw [tokenRange_eq htoken] at hrange
  exact ⟨r.token, ⟨token, htoken, hfirst, hstop, hrange⟩, by rw [kind?, htoken]; exact hname, houtside⟩

theorem docTokenEdits_token (he : e ∈ f.docTokenEdits s rename) :
    ∃ i, f.IsTokenEdit s e i ∧ f.kind? i = some .docComment := by
  obtain ⟨comment, hcomment, rfl⟩ := mem_docTokenEdits he
  obtain ⟨hkind, i, hi, hinside⟩ := mem_docComments hcomment
  rw [Scope.containsToken, Bool.and_eq_true, decide_eq_true_eq, decide_eq_true_eq] at hinside
  exact ⟨i, ⟨comment, hi, hinside.1, hinside.2, rfl⟩, by rw [kind?, hi, ← hkind]; rfl⟩

theorem CodeEdits.apart_comments {edits : List TextEdit} (h : (parse t).CodeEdits s edits) :
    ∀ e ∈ edits, ∀ e' ∈ (parse t).docTokenEdits s rename, e.Apart e' := by
  intro e he e' he'
  obtain ⟨i, hi, hname, -⟩ := h.token he
  obtain ⟨j, hj, hdoc⟩ := docTokenEdits_token he'
  refine hi.apart hj ?_
  rintro rfl
  rw [hdoc] at hname
  cases hname

theorem CodeEdits.codeRange {edits : List TextEdit} (hs : s ∈ f.scopes) (h : f.CodeEdits s edits)
    (he : e ∈ edits) : f.CodeRange e.range := by
  obtain ⟨r, hr, hrange⟩ := h.reference he
  exact ⟨s, hs, r, hr, hrange⟩

/-- The edits of the scopes of a file, each of tokens of its scope, are all made. -/
theorem makesAll_of_scopes {P : TextRange → Prop} {edits : Scope → List TextEdit}
    (hmem : ∀ s ∈ (parse t).scopes, ∀ e ∈ edits s,
      (∃ i, (parse t).IsTokenEdit s e i) ∧ e.EditsWithin P t)
    (hapart : ∀ s ∈ (parse t).scopes, (edits s).Pairwise TextEdit.Apart) :
    MakesAll P ((parse t).scopes.flatMap edits) t
      (TextEdit.applyAll ((parse t).scopes.flatMap edits) t) := by
  have hpairwise : ((parse t).scopes.flatMap edits).Pairwise TextEdit.Apart := by
    refine List.pairwise_flatMap.mpr ⟨hapart, (scopes_pairwise t).imp_of_mem ?_⟩
    intro s s' hs hs' hle e he e' he'
    obtain ⟨⟨i, hi⟩, -⟩ := hmem s hs e he
    obtain ⟨⟨j, hj⟩, -⟩ := hmem s' hs' e' he'
    refine hi.apart hj ?_
    obtain ⟨-, -, -, histop, -⟩ := hi
    obtain ⟨-, -, hjfirst, -⟩ := hj
    omega
  have hedits : ∀ e ∈ (parse t).scopes.flatMap edits, e.LiesIn t ∧ e.EditsWithin P t := by
    intro e he
    obtain ⟨s, hs, he⟩ := List.mem_flatMap.mp he
    obtain ⟨⟨i, hi⟩, hwithin⟩ := hmem s hs e he
    exact ⟨hi.liesIn, hwithin⟩
  obtain ⟨made, dropped, hperm, hdropped, hreplaces⟩ :=
    TextEdit.applyAll_replaces (P := fun _ => True) (fun e he => (hedits e he).1)
      (hpairwise.imp fun h _ => h)
  obtain rfl : dropped = [] :=
    List.eq_nil_iff_forall_not_mem.mpr fun e he => hdropped e he trivial
  rw [List.append_nil] at hperm
  exact ⟨hpairwise, ⟨made, hperm, hreplaces⟩, hreplaces.touches (show t = [] ++ t from rfl)
    fun e he => (hedits e (hperm.subset he)).2⟩

theorem codeEdits_qualify (f : SourceFile) (s : Scope) :
    f.CodeEdits s ((f.references s.first s.stop).filterMap fun r =>
      ((f.context s).qualify? r.text r.kind).map fun new => ⟨f.tokenRange r.token, new⟩) := by
  refine codeEdits_filterMap fun r e he => ?_
  obtain ⟨new, -, rfl⟩ := Option.map_eq_some_iff.mp he
  rfl

theorem makesAll_qualify (t : Text) :
    MakesAll (fun range => IsEdited (parse t).qualifyEdits range ∧ (parse t).CodeRange range ∨
        (parse t).DocRange range)
      (parse t).qualifyEdits t (Adaptation.qualify t) := by
  have hcode := (parse t).codeEdits_qualify
  refine makesAll_of_scopes (fun s hs e he => ?_) fun s hs => ?_
  · have hedited : IsEdited (parse t).qualifyEdits e.range := ⟨e, List.mem_flatMap.mpr ⟨s, hs, he⟩, rfl⟩
    rcases List.mem_append.mp he with he | he
    · obtain ⟨i, hi, -⟩ := (hcode s).token he
      exact ⟨⟨i, hi⟩, TextEdit.editsWithin_of_range (Or.inl ⟨hedited, (hcode s).codeRange hs he⟩)⟩
    · obtain ⟨i, hi, -⟩ := docTokenEdits_token he
      exact ⟨⟨i, hi⟩, docTokenEdits_within hs (fun _ => Or.inr) he⟩
  · exact List.pairwise_append.mpr ⟨(hcode s).apart, docTokenEdits_apart, (hcode s).apart_comments⟩

variable {x : RenameIndex}

theorem renameImport?_eq_some {item : ImportItem} (h : f.renameImport? x item = some e) :
    item.groupLead? = none ∧ e.range = f.tokenRange item.nameToken := by
  rw [renameImport?] at h
  split at h
  · cases h
  · rename_i hgroup
    obtain ⟨new, -, hedit⟩ := Option.bind_eq_some_iff.mp h
    cases hedit
    exact ⟨by simpa using hgroup, rfl⟩

theorem importEdit_token (hs : s ∈ (parse t).scopes)
    (he : e ∈ ((parse t).scopeImports s).filterMap ((parse t).renameImport? x)) :
    ∃ i, (parse t).IsTokenEdit s e i ∧ (parse t).isCode i ∧
      ∃ span ∈ (parse t).importSpans, span.1 ≤ i ∧ i < span.2 := by
  obtain ⟨item, hitem, hedit⟩ := List.mem_filterMap.mp he
  obtain ⟨-, hrange⟩ := renameImport?_eq_some hedit
  obtain ⟨-, -, hspan⟩ := nameToken_inside hitem
  obtain ⟨child, hchild, -, hfirst, hstop, token, htoken, htrivia⟩ := imported_inside hs hitem
  obtain ⟨hfirst', hstop'⟩ := inside_parent (home_mem_outline hs) child hchild
  obtain ⟨hhome, hhome'⟩ := home_span hs ⟨rfl, rfl⟩
  rw [tokenRange_eq htoken] at hrange
  refine ⟨item.nameToken, ⟨token, htoken, by omega, by omega, hrange⟩, ?_, hspan⟩
  rw [isCode, kind?, htoken]
  simpa using htrivia

theorem importEdits_apart (hs : s ∈ (parse t).scopes) :
    (((parse t).scopeImports s).filterMap ((parse t).renameImport? x)).Pairwise TextEdit.Apart := by
  refine (scopeImports_inOrder hs).filterMap _ fun a b hlt e he e' he' => ?_
  obtain ⟨-, hrange⟩ := renameImport?_eq_some he
  obtain ⟨-, hrange'⟩ := renameImport?_eq_some he'
  rw [tokenRange_parse] at hrange hrange'
  exact (TextEdit.isWithin_of_stretch hrange).apart (TextEdit.isWithin_of_stretch hrange') hlt

theorem renameScope_eq (f : SourceFile) (x : RenameIndex) (s : Scope) : (f.renameScope x s).1 =
    (f.references s.first s.stop).filterMap (f.renameReference? x (f.context s)) ++
      (f.scopeImports s).filterMap (f.renameImport? x) ++ f.docTokenEdits s (renameDocName? x) := by
  rw [renameScope, docTokenEdits, List.filterMap_map]
  rfl

theorem codeEdits_rename (f : SourceFile) (x : RenameIndex) (s : Scope) :
    f.CodeEdits s ((f.references s.first s.stop).filterMap (f.renameReference? x (f.context s))) := by
  refine codeEdits_filterMap fun r e he => ?_
  obtain ⟨new, -, rfl⟩ := Option.map_eq_some_iff.mp he
  rfl

theorem renames_edits (f : SourceFile) (x : RenameIndex) :
    (f.renames x).edits = f.scopes.flatMap fun s => (f.renameScope x s).1 := List.flatMap_map ..

/-- The second step changes references, names in comments and imported names. -/
theorem makesAll_rename (x : RenameIndex) (t : Text) :
    MakesAll (fun range => IsEdited ((parse t).renames x).edits range ∧
        ((parse t).CodeRange range ∨ (parse t).ImportNameRange range) ∨ (parse t).DocRange range)
      ((parse t).renames x).edits t (Adaptation.rename x t).text := by
  have hcode := (parse t).codeEdits_rename x
  rw [Adaptation.rename, renames_edits]
  refine makesAll_of_scopes (fun s hs e he => ?_) fun s hs => ?_
  · have hedited : IsEdited ((parse t).scopes.flatMap fun s => ((parse t).renameScope x s).1) e.range :=
      ⟨e, List.mem_flatMap.mpr ⟨s, hs, he⟩, rfl⟩
    rw [renameScope_eq, List.mem_append, List.mem_append] at he
    rcases he with (he | he) | he
    · obtain ⟨i, hi, -⟩ := (hcode s).token he
      exact ⟨⟨i, hi⟩, TextEdit.editsWithin_of_range (Or.inl ⟨hedited, Or.inl ((hcode s).codeRange hs he)⟩)⟩
    · obtain ⟨i, hi, -⟩ := importEdit_token hs he
      obtain ⟨item, hitem, hedit⟩ := List.mem_filterMap.mp he
      obtain ⟨hgroup, hrange⟩ := renameImport?_eq_some hedit
      exact ⟨⟨i, hi⟩, TextEdit.editsWithin_of_range
        (Or.inl ⟨hedited, Or.inr ⟨s, hs, item, hitem, hgroup, hrange⟩⟩)⟩
    · obtain ⟨i, hi, -⟩ := docTokenEdits_token he
      exact ⟨⟨i, hi⟩, docTokenEdits_within hs (fun _ => Or.inr) he⟩
  · rw [renameScope_eq]
    refine List.pairwise_append.mpr ⟨List.pairwise_append.mpr
      ⟨(hcode s).apart, importEdits_apart hs, fun e he e' he' => ?_⟩, docTokenEdits_apart, fun e he e' he' => ?_⟩
    · obtain ⟨i, hi, -, houtside⟩ := (hcode s).token he
      obtain ⟨j, hj, -, span, hspan, hinside⟩ := importEdit_token hs he'
      refine hi.apart hj ?_
      rintro rfl
      exact houtside span hspan hinside
    · rcases List.mem_append.mp he with he | he
      · exact (hcode s).apart_comments e he e' he'
      · obtain ⟨i, hi, hcode', -⟩ := importEdit_token hs he
        obtain ⟨j, hj, hdoc⟩ := docTokenEdits_token he'
        refine hi.apart hj ?_
        rintro rfl
        rw [isCode, hdoc] at hcode'
        cases hcode'

theorem shortenAll_sublist (c : ImportChoice) (rs : List Reference) :
    ((c.shortenAll rs).1.map (·.1)).Sublist rs := by
  induction rs generalizing c with
  | nil => exact .slnil
  | cons r rs ih =>
    rw [ImportChoice.shortenAll_cons]
    dsimp only
    cases (c.shorten (.ofText r.text) r.kind).1 with
    | none => exact (ih _).cons r
    | some short => exact (ih _).cons_cons r

theorem codeEdits_shortening (f : SourceFile) (s : Scope) :
    f.CodeEdits s ((f.shortening s).1.map fun (r, short) => ⟨f.tokenRange r.token, short⟩) := by
  refine ⟨(f.shortening s).1.map (·.1), (shortenAll_sublist _ _).trans List.filter_sublist, ?_⟩
  rw [List.map_map, List.map_map]
  rfl

theorem importScope_parts (f : SourceFile) (s : Scope) : ∃ imports, f.importScope s =
    (f.shortening s).1.map (fun (r, short) => ⟨f.tokenRange r.token, short⟩) ++
      f.docTokenEdits s (f.docShort? s) ++ imports ∧
    ∀ e ∈ imports, ∃ block, e ∈ f.placeImports s block := by
  rw [importScope_eq, commentEdits, List.filterMap_map]
  refine ⟨_, rfl, fun e he => ?_⟩
  split at he
  · exact ⟨_, he⟩
  · cases he

theorem statementLine_cases (f : SourceFile) (s : Statement) : f.statementLine s = f.range s ∨
    ∃ blanks behind offset, f.tokens[s.stop]? = some ⟨.whitespace, blanks ++ '\n' :: behind, offset⟩ ∧
      f.statementLine s = ⟨(f.range s).start, (f.range s).stop + Text.byteSize blanks + 1⟩ := by
  rw [statementLine]
  split
  · rename_i blanks offset htoken
    split
    · rename_i before after hsplit
      obtain rfl := Text.splitAtFirst?_eq_some hsplit
      exact Or.inr ⟨before, after, offset, htoken, rfl⟩
    · exact Or.inl rfl
  · exact Or.inl rfl

/-- The edits of imports are of `use` statements, or insert the first imports of a scope. -/
theorem mem_placeImports {block : Text} (he : e ∈ f.placeImports s block) :
    (∃ l ∈ f.scopeUses s, e.range = f.range l.statement ∨ e.range = f.statementLine l.statement) ∨
      (f.scopeUses s = [] ∧ ∃ anchor, f.importAnchor? s = some anchor ∧
        e.range = .emptyAt (f.tokenRange anchor).stop) := by
  rw [placeImports] at he
  split at he
  · rename_i first others huses
    have hmem (statement : Statement) (h : statement ∈ first :: others) :
        ∃ l ∈ f.scopeUses s, l.statement = statement := List.mem_map.mp (huses ▸ h)
    refine Or.inl ?_
    rcases List.mem_cons.mp he with rfl | he
    · obtain ⟨l, hl, rfl⟩ := hmem first List.mem_cons_self
      exact ⟨l, hl, Or.inl rfl⟩
    · obtain ⟨other, hother, rfl⟩ := List.mem_map.mp he
      obtain ⟨l, hl, rfl⟩ := hmem other (List.mem_cons_of_mem first hother)
      exact ⟨l, hl, Or.inr rfl⟩
  · rename_i huses
    refine Or.inr ⟨List.map_eq_nil_iff.mp huses, ?_⟩
    split at he
    · cases he
    · split at he
      · rename_i anchor hanchor
        obtain rfl := List.mem_singleton.mp he
        exact ⟨anchor, hanchor, rfl⟩
      · cases he

theorem scopeUse_span {l : Located} (hl : l ∈ (parse t).scopeUses s) :
    l.statement.first < l.statement.stop ∧
      (l.statement.first, l.statement.stop) ∈ (parse t).importSpans := by
  obtain ⟨hmem, himports⟩ := List.mem_filter.mp hl
  rw [Bool.and_eq_true] at himports
  obtain ⟨items, hitems⟩ := Option.isSome_iff_exists.mp himports.2
  refine ⟨?_, List.mem_filterMap.mpr ⟨l, hmem, by rw [hitems]; rfl⟩⟩
  rcases mem_outline_cases hmem with rfl | htail
  · cases hitems
  · obtain ⟨_, _, hplaced⟩ := exists_placed htail
    exact hplaced.covers.first_lt_stop (Code.ordered_ofTokens _ _)

/-- The line break behind a statement belongs to the token that follows it. -/
theorem useEdit_within {l : Located} (hl : l ∈ (parse t).scopeUses s)
    (h : e.range = (parse t).range l.statement ∨ e.range = (parse t).statementLine l.statement) :
    e.IsWithin t l.statement.first (l.statement.stop + 1) := by
  have hstatement := range_parse (t := t) (scopeUse_span hl).1
  have hplain (h : e.range = (parse t).range l.statement) :
      e.IsWithin t l.statement.first (l.statement.stop + 1) :=
    (TextEdit.isWithin_of_stretch (h.trans hstatement)).mono (Nat.le_refl _) (Nat.le_succ _)
  rcases h with h | h
  · exact hplain h
  · rcases statementLine_cases (parse t) l.statement with hline | ⟨blanks, behind, offset, htoken, hline⟩
    · exact hplain (h.trans hline)
    · rw [tokens_parse] at htoken
      have hplace : offset = offsetAt t l.statement.stop := Lexer.offset_eq htoken
      have hstop : offset + Text.byteSize (blanks ++ '\n' :: behind) = offsetAt t (l.statement.stop + 1) :=
        Lexer.stop_eq htoken
      have hbreak : Text.byteSize (blanks ++ '\n' :: behind) = Text.byteSize blanks + (1 + Text.byteSize behind) :=
        Text.byteSize_append _ _
      rw [TextEdit.IsWithin, h, hline, hstatement]
      dsimp only
      omega

/-- An edit of tokens that hold no reference. -/
def SparesReferences (t : Text) (e : TextEdit) : Prop :=
  ∃ a b, e.IsWithin t a b ∧ ∀ i, (parse t).HoldsReference i → ¬(a ≤ i ∧ i < b)

theorem IsTokenEdit.spares {i : Nat} (h : (parse t).IsTokenEdit s e i) (hi : ¬(parse t).HoldsReference i) :
    SparesReferences t e := by
  refine ⟨i, i + 1, h.within, fun j hj hinside => ?_⟩
  obtain rfl : j = i := by omega
  exact hi hj

theorem docTokenEdits_spares (he : e ∈ (parse t).docTokenEdits s rename) : SparesReferences t e := by
  obtain ⟨i, hi, hdoc⟩ := docTokenEdits_token he
  refine hi.spares fun hreference => ?_
  have hname := hreference.1
  rw [hdoc] at hname
  cases hname

/-- An edit that replaces or inserts imports changes a part of the text that holds no reference. -/
theorem importEdit_place (hs : s ∈ (parse t).scopes) {block : Text} (he : e ∈ (parse t).placeImports s block) :
    e.LiesIn t ∧ ((parse t).UseRange e.range ∨ (parse t).InsertionPoint e.range) ∧ SparesReferences t e := by
  rcases mem_placeImports he with ⟨l, hl, hrange⟩ | ⟨huses, anchor, hanchor, hrange⟩
  · obtain ⟨hlt, hspan⟩ := scopeUse_span hl
    have hwithin := useEdit_within hl hrange
    have hstatement := range_parse (t := t) hlt
    obtain hrange | ⟨blanks, behind, offset, htoken, hrange⟩ : e.range = (parse t).range l.statement ∨ ∃ blanks behind offset,
        (parse t).tokens[l.statement.stop]? = some ⟨.whitespace, blanks ++ '\n' :: behind, offset⟩ ∧
          e.range = ⟨((parse t).range l.statement).start,
            ((parse t).range l.statement).stop + Text.byteSize blanks + 1⟩ := by
      rcases hrange with hrange | hrange
      · exact Or.inl hrange
      · rw [hrange]
        exact statementLine_cases _ _
    · have hstretch := hrange.trans hstatement
      refine ⟨TextEdit.liesIn_of_stretch (Nat.le_of_lt hlt) hstretch, Or.inl ⟨s, hs, l, hl, Or.inl hrange⟩,
        l.statement.first, l.statement.stop, TextEdit.isWithin_of_stretch hstretch, fun i hi => ?_⟩
      exact hi.2 _ hspan
    · rw [tokens_parse] at htoken
      obtain ⟨a, b, haround, hoffset⟩ := Lexer.exists_around htoken
      have htext : t = a ++ blanks ++ '\n' :: (behind ++ b) := by
        rw [haround]
        simp
      have hsize : Text.byteSize a = offsetAt t l.statement.stop := hoffset.trans (Lexer.offset_eq htoken)
      rw [hstatement] at hrange
      refine ⟨?_, Or.inl ⟨s, hs, l, hl, Or.inr ⟨a, blanks, behind ++ b, htext, by rw [hstatement]; exact hsize,
        ?_, by rw [hstatement]; exact hrange⟩⟩, l.statement.first, l.statement.stop + 1, hwithin, ?_⟩
      · obtain ⟨x, old, y, hsplit, hx⟩ : (⟨⟨offsetAt t l.statement.first, offsetAt t l.statement.stop⟩, []⟩ :
            TextEdit).LiesIn t := TextEdit.liesIn_of_stretch (Nat.le_of_lt hlt) rfl
        obtain ⟨hx, hxstop⟩ := TextRange.mk.inj hx
        rw [List.append_assoc] at htext
        obtain ⟨hsame, -⟩ := TextEdit.eq_of_byteSize_eq (hsplit.symm.trans htext)
          (by rw [Text.byteSize_append]; omega)
        refine ⟨x, old ++ blanks ++ ['\n'], behind ++ b, ?_, ?_⟩
        · rw [htext, ← hsame]
          simp
        · rw [hrange, hx, Text.byteSize_append, Text.byteSize_append, hxstop]
          simp [Text.byteSize, Char.utf8Size, Nat.add_assoc]
      · intro c hc
        exact Lexer.isBlank_of_whitespace (List.mem_of_getElem? htoken) rfl c (List.mem_append_left _ hc)
      · intro i hi hinside
        rcases Nat.lt_or_ge i l.statement.stop with hlt' | hge
        · exact hi.2 _ hspan ⟨hinside.1, hlt'⟩
        · obtain rfl : i = l.statement.stop := by omega
          have hname := hi.1
          rw [kind?, tokens_parse, htoken] at hname
          cases hname
  · rw [tokenRange_parse] at hrange
    refine ⟨TextEdit.liesIn_of_stretch (Nat.le_refl _) hrange, Or.inr ⟨s, hs, huses, anchor, hanchor, ?_⟩,
      anchor + 1, anchor + 1, TextEdit.isWithin_of_stretch hrange, fun i _ => by omega⟩
    rw [tokenRange_parse]
    exact hrange

/-- What the third step may change. -/
def ImportStepRange (f : SourceFile) (range : TextRange) : Prop :=
  f.CodeRange range ∨ f.DocRange range ∨ f.UseRange range ∨ f.InsertionPoint range

/-- Every edit of the third step is one of a part of the text that it may change: of references first, and
then of tokens that hold none. -/
theorem importScope_cases (hs : s ∈ (parse t).scopes) :
    (∀ e ∈ (parse t).importScope s, e.LiesIn t ∧ e.EditsWithin (parse t).ImportStepRange t) ∧
      ∃ code others, (parse t).importScope s = code ++ others ∧ (parse t).CodeEdits s code ∧
        ∀ e ∈ others, SparesReferences t e := by
  obtain ⟨imports, hscope, himports⟩ := (parse t).importScope_parts s
  have hcode := (parse t).codeEdits_shortening s
  rw [hscope]
  refine ⟨fun e he => ?_, _, _, List.append_assoc _ _ _, hcode, fun e he => ?_⟩
  · rw [List.mem_append, List.mem_append] at he
    rcases he with (he | he) | he
    · obtain ⟨i, hi, -⟩ := hcode.token he
      exact ⟨hi.liesIn, TextEdit.editsWithin_of_range (Or.inl (hcode.codeRange hs he))⟩
    · obtain ⟨i, hi, -⟩ := docTokenEdits_token he
      exact ⟨hi.liesIn, docTokenEdits_within hs (fun _ h => Or.inr (Or.inl h)) he⟩
    · obtain ⟨block, he⟩ := himports e he
      obtain ⟨hlies, hrange, -⟩ := importEdit_place hs he
      exact ⟨hlies, TextEdit.editsWithin_of_range (Or.inr (Or.inr hrange))⟩
  · rcases List.mem_append.mp he with he | he
    · exact docTokenEdits_spares he
    · obtain ⟨block, he⟩ := himports e he
      exact (importEdit_place hs he).2.2

theorem IsTokenEdit.apart_of_spares {e' : TextEdit} {i : Nat} (h : (parse t).IsTokenEdit s e i)
    (hi : (parse t).HoldsReference i) (h' : SparesReferences t e') : e.Apart e' := by
  obtain ⟨a, b, hwithin, hspares⟩ := h'
  exact h.within.apart_of_token hwithin (hspares i hi)

theorem SparesReferences.not_codeRange (h : SparesReferences t e) : ¬(parse t).CodeRange e.range := by
  rintro ⟨s, hs, r, hr, hrange⟩
  obtain ⟨token, htoken, hname, -, hfirst, hstop, houtside⟩ := references_token hr
  rw [tokenRange_eq htoken] at hrange
  have hedit : (parse t).IsTokenEdit s e r.token := ⟨token, htoken, hfirst, hstop, hrange⟩
  have hapart := hedit.apart_of_spares ⟨by rw [kind?, htoken]; exact hname, houtside⟩ h
  rw [tokens_parse] at htoken
  have hlt : e.range.start < e.range.stop := by
    rw [hrange]
    exact Lexer.lt_stop_of_mem_tokenize (List.mem_of_getElem? htoken)
  rcases hapart with hle | hle <;> omega

/-- An edit of a reference is apart from all others. -/
theorem importEdits_apart_of_reference (t : Text) : (parse t).importEdits.Pairwise fun e e' =>
    (parse t).CodeRange e.range ∨ (parse t).CodeRange e'.range → e.Apart e' := by
  refine List.pairwise_flatMap.mpr ⟨fun s hs => ?_, (scopes_pairwise t).imp_of_mem ?_⟩
  · obtain ⟨-, code, others, hscope, hcode, hothers⟩ := importScope_cases hs
    rw [hscope]
    refine List.pairwise_append.mpr ⟨?_, List.pairwise_of_forall_mem_list fun e he e' he' => ?_,
      fun e he e' he' _ => ?_⟩
    · refine hcode.apart.imp ?_
      exact fun hapart _ => hapart
    · rintro (h | h)
      · exact absurd h (hothers e he).not_codeRange
      · exact absurd h (hothers e' he').not_codeRange
    · obtain ⟨i, hi, hreference⟩ := hcode.token he
      exact hi.apart_of_spares hreference (hothers e' he')
  · intro s s' hs hs' hle e he e' he' h
    obtain ⟨-, code, others, hscope, hcode, hothers⟩ := importScope_cases hs
    obtain ⟨-, code', others', hscope', hcode', hothers'⟩ := importScope_cases hs'
    rw [hscope, List.mem_append] at he
    rw [hscope', List.mem_append] at he'
    rcases he with he | he <;> rcases he' with he' | he'
    · obtain ⟨i, hi, -⟩ := hcode.token he
      obtain ⟨j, hj, -⟩ := hcode'.token he'
      refine hi.apart hj ?_
      obtain ⟨-, -, -, histop, -⟩ := hi
      obtain ⟨-, -, hjfirst, -⟩ := hj
      omega
    · obtain ⟨i, hi, hreference⟩ := hcode.token he
      exact hi.apart_of_spares hreference (hothers' e' he')
    · obtain ⟨j, hj, hreference⟩ := hcode'.token he'
      exact (hj.apart_of_spares hreference (hothers e he)).symm
    · rcases h with h | h
      · exact absurd h (hothers e he).not_codeRange
      · exact absurd h (hothers' e' he').not_codeRange

theorem reimport_touches (t : Text) : (∃ made dropped, (made ++ dropped).Perm (parse t).importEdits ∧
      (∀ e ∈ dropped, ¬(parse t).CodeRange e.range) ∧ Replaces 0 made t (Adaptation.reimport t)) ∧
    Touches (parse t).ImportStepRange t (Adaptation.reimport t) := by
  have hedits : ∀ e ∈ (parse t).importEdits, e.LiesIn t ∧ e.EditsWithin (parse t).ImportStepRange t := by
    intro e he
    obtain ⟨s, hs, he⟩ := List.mem_flatMap.mp he
    exact (importScope_cases hs).1 e he
  obtain ⟨made, dropped, hperm, hdropped, hreplaces⟩ :=
    TextEdit.applyAll_replaces (P := fun e => (parse t).CodeRange e.range) (fun e he => (hedits e he).1)
      (importEdits_apart_of_reference t)
  exact ⟨⟨made, dropped, hperm, hdropped, hreplaces⟩, hreplaces.touches (show t = [] ++ t from rfl) fun e he =>
    (hedits e (hperm.subset (List.mem_append_left _ he))).2⟩

end SourceFile

/-- The steps of moving code change only what they mean to. The first two make all of their edits: of
references, of names in comments and, in the second step, of imported names. The third one drops no edit of a
reference, and changes besides names only `use` statements, with the blanks and the line break behind them, and
the places where first imports go. In comments, too, no edit is dropped. -/
theorem Adaptation.steps_touch_only (t : Text) (x : RenameIndex) :
    let f := SourceFile.parse t
    MakesAll (fun range => IsEdited f.qualifyEdits range ∧ f.CodeRange range ∨ f.DocRange range)
      f.qualifyEdits t (qualify t) ∧
    MakesAll (fun range => IsEdited (f.renames x).edits range ∧ (f.CodeRange range ∨ f.ImportNameRange range) ∨
        f.DocRange range)
      (f.renames x).edits t (rename x t).text ∧
    (∃ made dropped, (made ++ dropped).Perm f.importEdits ∧ (∀ e ∈ dropped, ¬f.CodeRange e.range) ∧
      Replaces 0 made t (reimport t)) ∧
    Touches (fun range => f.CodeRange range ∨ f.DocRange range ∨ f.UseRange range ∨ f.InsertionPoint range) t
      (reimport t) ∧
    ∀ (comment : Token) (rename : Text → Option Text), Replaces 0 (comment.docEdits rename) comment.text
      (TextEdit.applyAll (comment.docEdits rename) comment.text) := by
  intro f
  obtain ⟨hmade, htouches⟩ := SourceFile.reimport_touches t
  exact ⟨SourceFile.makesAll_qualify t, SourceFile.makesAll_rename x t, hmade, htouches,
    Token.docEdits_replaces⟩

end NamespaceMigration
