import NamespaceMigration.Proofs.Rewriting.References

/-! The first two steps together. The second one replaces whole tokens too, and of the references it
finds after the first one, so that every name is written by what it means: the new name of the symbol,
or its old one in full. -/
namespace NamespaceMigration

open Lexer (tokenize IsName)

namespace RenameIndex

variable (x : RenameIndex)

/-- The new name that the second step gives to a reference. -/
def newSpelling? (c : NameContext) (r : Reference) : Option QualifiedName :=
  if isWrittenInFull r.text then x.newName? r.text r.kind
  else x.fallbackName? (c.resolve r.text r.kind) r.kind

/-- The name that an entry gives to a symbol, in full; the old spelling if it is no other one. -/
def spelling (e? : Option IndexEntry) (old : Text) : Text :=
  ((e?.filter IndexEntry.changes).map (·.new.written)).getD old

/-- How a reference is written once symbols have their new names. A symbol that gets another name is
written so in full; one that keeps it is written in full if it is known which one is meant. -/
def adapted (c : NameContext) (r : Reference) : Text :=
  match c.resolve r.text r.kind with
  | .resolved name =>
    spelling (x.find? r.kind name.text) (if isWrittenInFull r.text then r.text else name.written)
  | .fallback namespaced global =>
    spelling ((x.find? r.kind namespaced.text).or (x.find? r.kind global.text)) r.text

end RenameIndex

namespace SourceFile

variable {x : RenameIndex} {u : Text}

/-- The texts that the second step writes for the tokens of a file. -/
def renamedTokens (f : SourceFile) (x : RenameIndex) : List Text :=
  f.tokens.toList.map fun token =>
    (TextEdit.replacement? (f.renames x).edits token.range).getD token.text

/-- An edit of the second step replaces a reference by its new name, a name inside a `use` statement,
or a comment. -/
inductive RenameEdit (f : SourceFile) (x : RenameIndex) (s : Scope) : TextEdit → Prop
  | name {r : Reference} {token : Token} {new : QualifiedName} :
      r ∈ f.references s.first s.stop → f.tokens[r.token]? = some token →
      x.newSpelling? (f.context s) r = some new → RenameEdit f x s ⟨token.range, new.written⟩
  | imported {i : Nat} {token : Token} {new : Text} :
      (∃ span ∈ f.importSpans, span.1 ≤ i ∧ i < span.2) → f.tokens[i]? = some token →
      RenameEdit f x s ⟨token.range, new⟩
  | comment {comment : Token} {new : Text} :
      comment ∈ f.docComments s → RenameEdit f x s ⟨comment.range, new⟩

/-- Imported names stand inside `use` statements. -/
theorem nameToken_inside {s : Scope} {item : ImportItem} (h : item ∈ (parse u).scopeImports s) :
    ∃ token, (parse u).tokens[item.nameToken]? = some token ∧
      ∃ span ∈ (parse u).importSpans, span.1 ≤ item.nameToken ∧ item.nameToken < span.2 := by
  have hordered : (Code.ofText u).Ordered := Code.ordered_ofTokens _ _
  obtain ⟨l, hl, hitem⟩ := List.mem_flatMap.mp h
  have houtline : l ∈ (parse u).outline := List.mem_of_mem_filter hl
  have hinside : Parser.ImportsInside (.ofText u) l.statement :=
    outline_forall (fun items hitems => by cases hitems)
      (Parser.topStatements_importsInside hordered) l houtline
  cases hitems : l.statement.importItems? with
  | none =>
    rw [hitems] at hitem
    cases hitem
  | some items =>
    rw [hitems] at hitem
    have hkind : l.statement.kind = .imports items := by
      rw [Statement.importItems?] at hitems
      split at hitems
      · rename_i hkind
        cases hitems
        exact hkind
      · cases hitems
    obtain ⟨p, n, hcovers, hall⟩ := hinside items hkind
    obtain ⟨q, hpq, hqn, hindex⟩ := hall item hitem
    have hsize : q < (Code.ofText u).size := Nat.lt_of_lt_of_le hqn hcovers.le
    obtain ⟨found, hfound⟩ := Code.exists_item hsize
    refine ⟨found.2, ?_, (l.statement.first, l.statement.stop), ?_, ?_⟩
    · rw [hindex, Code.tokenIndex_eq hfound]
      exact (item_spec hfound).1
    · exact List.mem_filterMap.mpr ⟨l, houtline, by rw [hitems]; rfl⟩
    · rw [hindex]
      exact (hcovers.mem_iff hordered hsize).mpr ⟨Nat.le_of_lt hpq, hqn⟩

theorem mem_renames {e : TextEdit} (h : e ∈ ((parse u).renames x).edits) :
    ∃ s ∈ (parse u).scopes, (parse u).RenameEdit x s e := by
  obtain ⟨_, hscope, he⟩ := List.mem_flatMap.mp h
  obtain ⟨s, hs, rfl⟩ := List.mem_map.mp hscope
  refine ⟨s, hs, ?_⟩
  rw [renameScope, List.mem_append, List.mem_append] at he
  rcases he with (he | he) | he
  · obtain ⟨r, hr, hnew⟩ := List.mem_filterMap.mp he
    obtain ⟨new, hspelling, rfl⟩ := Option.map_eq_some_iff.mp hnew
    obtain ⟨token, htoken, -⟩ := references_token hr
    rw [tokenRange_eq htoken]
    exact .name hr htoken hspelling
  · obtain ⟨item, hitem, hnew⟩ := List.mem_filterMap.mp he
    obtain ⟨token, htoken, hspan⟩ := nameToken_inside hitem
    rw [renameImport?] at hnew
    split at hnew
    · cases hnew
    · obtain ⟨new, -, hedit⟩ := Option.bind_eq_some_iff.mp hnew
      cases hedit
      rw [tokenRange_eq htoken]
      exact .imported hspan htoken
  · obtain ⟨⟨comment, inner⟩, hc, hedit⟩ := List.mem_filterMap.mp he
    obtain ⟨comment, hmem, hpair⟩ := List.mem_map.mp hc
    cases hpair
    rw [docEdit?_eq_some hedit]
    exact .comment hmem

theorem renameEdit_token {s : Scope} {e : TextEdit} (h : (parse u).RenameEdit x s e) :
    ∃ token ∈ tokenize u, e.range = token.range := by
  cases h with
  | name _ htoken _ =>
    rw [tokens_parse] at htoken
    exact ⟨_, List.mem_of_getElem? htoken, rfl⟩
  | imported _ htoken =>
    rw [tokens_parse] at htoken
    exact ⟨_, List.mem_of_getElem? htoken, rfl⟩
  | comment hc =>
    obtain ⟨-, i, hi, -⟩ := mem_docComments hc
    rw [tokens_parse] at hi
    exact ⟨_, List.mem_of_getElem? hi, rfl⟩

theorem rename_text (x : RenameIndex) (u : Text) :
    (Adaptation.rename x u).text = ((parse u).renamedTokens x).flatten := by
  have hedits : ∀ e ∈ ((parse u).renames x).edits, ∃ token ∈ tokenize u, e.range = token.range := by
    intro e he
    obtain ⟨s, -, hedit⟩ := mem_renames he
    exact renameEdit_token hedit
  rw [Adaptation.rename, renamedTokens, TextEdit.applyAll_place hedits, List.flatMap_def]
  rfl

/-- A reference becomes its new name, if it gets one. -/
theorem replacement?_reference {s : Scope} (hs : s ∈ (parse u).scopes) {r : Reference}
    (hr : r ∈ (parse u).references s.first s.stop) {token : Token}
    (htoken : (parse u).tokens[r.token]? = some token) :
    TextEdit.replacement? ((parse u).renames x).edits token.range =
      (x.newSpelling? ((parse u).context s) r).map (·.written) := by
  have hindex {i : Nat} {other : Token} (hother : (parse u).tokens[i]? = some other)
      (hrange : other.range = token.range) : i = r.token :=
    Lexer.index_eq_of_range_eq ((tokens_parse u i).symm.trans hother)
      ((tokens_parse u _).symm.trans htoken) hrange
  obtain ⟨token', htoken', hname, -, -, -, houtside⟩ := references_token hr
  rw [htoken, Option.some.injEq] at htoken'
  subst htoken'
  refine TextEdit.replacement?_eq (fun e he hrange => ?_) fun new hnew => ?_
  · obtain ⟨s', hs', hedit⟩ := mem_renames he
    cases hedit with
    | @name r' _ _ hr' htoken' hspelling =>
      have hsame := hindex htoken' hrange
      have hscope := containsToken_of_mem hr'
      rw [hsame] at hscope
      obtain rfl := scope_unique hs' hs hscope (containsToken_of_mem hr)
      obtain rfl := references_unique hr' hr hsame
      rw [hspelling]
      rfl
    | imported hspan htoken' =>
      obtain rfl := hindex htoken' hrange
      obtain ⟨span, hmem, hinside⟩ := hspan
      exact absurd hinside (houtside span hmem)
    | comment hc =>
      obtain ⟨hkind, i, hi, -⟩ := mem_docComments hc
      obtain rfl := hindex hi hrange
      rw [htoken, Option.some.injEq] at hi
      rw [hi, hkind] at hname
      cases hname
  · obtain ⟨name, hspelling, rfl⟩ := Option.map_eq_some_iff.mp hnew
    refine ⟨⟨token.range, name.written⟩, ?_, rfl⟩
    refine List.mem_flatMap.mpr ⟨_, List.mem_map_of_mem hs, ?_⟩
    rw [renameScope]
    refine List.mem_append_left _ (List.mem_append_left _ (List.mem_filterMap.mpr ⟨r, hr, ?_⟩))
    rw [← tokenRange_eq htoken]
    exact Option.map_eq_some_iff.mpr ⟨name, hspelling, rfl⟩

/-- What is no reference, no comment that documents something and outside all `use` statements stays. -/
theorem replacement?_other {i : Nat} {token : Token} (htoken : (parse u).tokens[i]? = some token)
    (hreference : ∀ s ∈ (parse u).scopes, ∀ r ∈ (parse u).references s.first s.stop, r.token ≠ i)
    (hdoc : token.kind ≠ .docComment)
    (houtside : ∀ span ∈ (parse u).importSpans, ¬(span.1 ≤ i ∧ i < span.2)) :
    TextEdit.replacement? ((parse u).renames x).edits token.range = none := by
  have hindex {j : Nat} {other : Token} (hother : (parse u).tokens[j]? = some other)
      (hrange : other.range = token.range) : j = i :=
    Lexer.index_eq_of_range_eq ((tokens_parse u j).symm.trans hother)
      ((tokens_parse u i).symm.trans htoken) hrange
  refine TextEdit.replacement?_eq (fun e he hrange => ?_) fun new hnew => nomatch hnew
  obtain ⟨s, hs, hedit⟩ := mem_renames he
  cases hedit with
  | @name r _ _ hr htoken' _ => exact absurd (hindex htoken' hrange) (hreference s hs r hr)
  | imported hspan htoken' =>
    obtain rfl := hindex htoken' hrange
    obtain ⟨span, hmem, hinside⟩ := hspan
    exact absurd hinside (houtside span hmem)
  | comment hc =>
    obtain ⟨hkind, j, hj, -⟩ := mem_docComments hc
    obtain rfl := hindex hj hrange
    rw [htoken, Option.some.injEq] at hj
    rw [hj] at hdoc
    exact absurd hkind hdoc

end SourceFile

namespace RenameIndex

variable {x : RenameIndex} {c : NameContext} {kind : SymbolKind}

theorem find?_written (n : QualifiedName) : x.find? kind n.written = x.find? kind n.text := by
  have hkey : lookupKey kind n.written = lookupKey kind n.text := by
    rw [← QualifiedName.key_ofText, QualifiedName.key_written, QualifiedName.key]
  rw [find?, find?, hkey]

theorem spelling_of_changes {e : IndexEntry} (h : e.changes) (old : Text) :
    spelling (some e) old = e.new.written := by
  rw [spelling, Option.filter_some, if_pos h]
  rfl

theorem spelling_of_not_changes {e : IndexEntry} (h : ¬e.changes) (old : Text) :
    spelling (some e) old = old := by
  rw [spelling, Option.filter_some, if_neg h]
  rfl

/-- A name in full that is the new name already is no other one. -/
theorem newName?_written {n : QualifiedName} (hn : IsName n.text) :
    ((x.newName? n.written kind).map (·.written)).getD n.written =
      spelling (x.find? kind n.text) n.written := by
  have hdrop : dropBackslashes n.written = n.text := by
    change dropBackslashes n.text = n.text
    exact hn.dropBackslashes
  rw [newName?, find?_written, hdrop]
  cases x.find? kind n.text with
  | none => rfl
  | some e =>
    rw [Option.bind_eq_bind, Option.bind_some]
    by_cases hchanges : e.changes
    · rw [spelling_of_changes hchanges]
      by_cases hsame : e.new.text = n.text
      · have hwritten : e.new.written = n.written := congrArg ('\\' :: ·) hsame
        rw [if_neg fun hand => hand.2 hsame, hwritten]
        rfl
      · rw [if_pos ⟨hchanges, hsame⟩]
        rfl
    · rw [if_neg fun hand => hchanges hand.1, spelling_of_not_changes hchanges]
      rfl

theorem fallbackName?_fallback (namespaced global : QualifiedName) (written : Text) :
    ((x.fallbackName? (.fallback namespaced global) kind).map (·.written)).getD written =
      spelling ((x.find? kind namespaced.text).or (x.find? kind global.text)) written := by
  rw [fallbackName?]
  cases (x.find? kind namespaced.text).or (x.find? kind global.text) with
  | none => rfl
  | some e =>
    rw [Option.bind_eq_bind, Option.bind_some]
    by_cases hchanges : e.changes
    · rw [if_pos hchanges, spelling_of_changes hchanges]
      rfl
    · rw [if_neg hchanges, spelling_of_not_changes hchanges]
      rfl

theorem adapted_resolved {r : Reference} {name : QualifiedName}
    (h : c.resolve r.text r.kind = .resolved name) : x.adapted c r =
      spelling (x.find? r.kind name.text) (if isWrittenInFull r.text then r.text else name.written) := by
  rw [adapted, h]

theorem adapted_fallback {r : Reference} {namespaced global : QualifiedName}
    (h : c.resolve r.text r.kind = .fallback namespaced global) : x.adapted c r =
      spelling ((x.find? r.kind namespaced.text).or (x.find? r.kind global.text)) r.text := by
  rw [adapted, h]

/-- The reference as the first step writes it. -/
def qualified (c : NameContext) (r : Reference) : Reference :=
  { r with text := (c.qualify? r.text r.kind).getD r.text }

/-- What the second step makes of a reference that the first step has seen is decided by what the
reference meant before. -/
theorem newSpelling?_qualified (hc : c.HasNames) {r : Reference}
    (hr : isWrittenInFull r.text = false → IsName r.text)
    (hfull : ∀ u, r.text = '\\' :: u → IsName u) :
    ((x.newSpelling? c (qualified c r)).map (·.written)).getD (qualified c r).text =
      x.adapted c r := by
  by_cases hwritten : isWrittenInFull r.text
  · obtain ⟨u, hu⟩ : ∃ u, r.text = '\\' :: u := by
      rw [isWrittenInFull, beq_iff_eq] at hwritten
      exact List.head?_eq_some_iff.mp hwritten
    have hname : QualifiedName.ofText u = ⟨u⟩ := by
      rw [QualifiedName.ofText, (hfull u hu).dropBackslashes]
    have hresolve : c.resolve r.text r.kind = .resolved ⟨u⟩ := by
      rw [hu, ← hname]
      rfl
    have hsame : qualified c r = r := by
      rw [qualified, NameContext.qualify?, if_pos hwritten]
      rfl
    have htext : r.text = QualifiedName.written ⟨u⟩ := hu
    rw [hsame, newSpelling?, if_pos hwritten, adapted_resolved hresolve, if_pos hwritten, htext]
    exact newName?_written (hfull u hu)
  · have hname := hr (by simpa using hwritten)
    cases hresolve : c.resolve r.text r.kind with
    | resolved n =>
      have hqualified : qualified c r = { r with text := n.written } := by
        rw [qualified, NameContext.qualify?, if_neg hwritten, hresolve]
        rfl
      have hn : IsName n.text := NameContext.resolve_isName hc hname hresolve
      have hspelling : x.newSpelling? c { r with text := n.written } = x.newName? n.written r.kind := by
        rw [newSpelling?]
        exact if_pos rfl
      rw [hqualified, hspelling, adapted_resolved hresolve, if_neg hwritten]
      exact newName?_written hn
    | fallback namespaced global =>
      have hsame : qualified c r = r := by
        rw [qualified, NameContext.qualify?, if_neg hwritten, hresolve]
        rfl
      rw [hsame, newSpelling?, if_neg hwritten, adapted_fallback hresolve, hresolve]
      exact fallbackName?_fallback namespaced global r.text

end RenameIndex

namespace SourceFile

variable {x : RenameIndex} {t : Text}

/-- The places and the kinds of the references of every scope. -/
def referencePlaces (f : SourceFile) : List (List (Nat × SymbolKind)) :=
  f.scopes.map fun s => (f.references s.first s.stop).map fun r => (r.token, r.kind)

theorem referencePlaces_qualify (h : (parse t).UsesWellFormed) :
    (parse (Adaptation.qualify t)).referencePlaces = (parse t).referencePlaces := by
  have hscopes := (alike_qualify h).scopes
  let places (f : SourceFile) (s : Scope) : List (Nat × SymbolKind) :=
    (f.references s.first s.stop).map fun r => (r.token, r.kind)
  have hbare (f g : SourceFile) : f.scopes.map (places g) = (f.scopes.map Scope.bare).map (places g) := by
    rw [List.map_map]
    rfl
  change (parse (Adaptation.qualify t)).scopes.map (places (parse (Adaptation.qualify t))) = _
  rw [hbare, ← hscopes, ← hbare]
  refine List.map_congr_left fun s hs => ?_
  dsimp only [places]
  rw [references_qualify h hs, List.map_map]
  rfl

/-- The text of a reference is a name, or one in full. -/
theorem reference_isName {s : Scope} {r : Reference} (hr : r ∈ (parse t).references s.first s.stop) :
    (isWrittenInFull r.text = false → IsName r.text) ∧ ∀ u, r.text = '\\' :: u → IsName u := by
  obtain ⟨token, htoken, hname, htext, -⟩ := references_token hr
  rw [tokens_parse] at htoken
  have hshape := Lexer.pieces_shape (List.mem_map_of_mem (List.mem_of_getElem? htoken))
  rw [← htext]
  by_cases hkind : token.kind = .nameFullyQualified
  · rw [hkind] at hshape
    obtain ⟨v, hv, hisName⟩ := hshape
    change token.text = '\\' :: v at hv
    rw [hv]
    refine ⟨nofun, fun u hu => ?_⟩
    cases hu
    exact hisName
  · have hisName := hshape.isName hname hkind
    refine ⟨fun _ => hisName, fun u hu => ?_⟩
    have hhead := hisName.isSpace.head
    change token.text.head? ≠ _ at hhead
    rw [hu] at hhead
    exact absurd rfl hhead

/-- The second step finds the reference as the first step has written it. -/
theorem qualified_mem (h : (parse t).UsesWellFormed) {s : Scope} (hs : s ∈ (parse t).scopes)
    {r : Reference} (hr : r ∈ (parse t).references s.first s.stop) :
    ∃ token, (parse (Adaptation.qualify t)).tokens[r.token]? = some token ∧
      token.text = (RenameIndex.qualified ((parse t).context s) r).text ∧
      RenameIndex.qualified ((parse t).context s) r ∈
        (parse (Adaptation.qualify t)).references s.first s.stop := by
  obtain ⟨token, htoken, -, htext, -⟩ := references_token hr
  obtain ⟨token', htoken', hpiece⟩ := qualify_token htoken
  have hqualified := qualified?_reference hs hr htoken
  have htext' : token'.text = (RenameIndex.qualified ((parse t).context s) r).text := by
    have hsnd : token'.text = ((parse t).qualifiedPiece token).2 := congrArg Prod.snd hpiece
    rw [hsnd, qualifiedPiece, hqualified, RenameIndex.qualified]
    cases ((parse t).context s).qualify? r.text r.kind with
    | none => exact htext
    | some new => rfl
  refine ⟨token', htoken', htext', ?_⟩
  rw [references_qualify h hs, List.mem_map]
  refine ⟨r, hr, ?_⟩
  rw [tokenText, htoken', Option.map_some, Option.getD_some, htext']
  rfl

theorem renamedTokens_reference (h : (parse t).UsesWellFormed) {s : Scope} (hs : s ∈ (parse t).scopes)
    {r : Reference} (hr : r ∈ (parse t).references s.first s.stop) :
    ((parse (Adaptation.qualify t)).renamedTokens x)[r.token]? =
      some (x.adapted ((parse t).context s) r) := by
  obtain ⟨token, htoken, htext, hmem⟩ := qualified_mem h hs hr
  obtain ⟨s', hs', hbare⟩ := (alike_qualify h).exists_scope hs
  have hcontext := (alike_qualify h).context hbare
  have hfirst : s'.first = s.first := congrArg (·.first) hbare.symm
  have hstop : s'.stop = s.stop := congrArg (·.stop) hbare.symm
  rw [← hfirst, ← hstop] at hmem
  have hreplacement := replacement?_reference (x := x) hs' hmem htoken
  obtain ⟨hname, hfull⟩ := reference_isName hr
  rw [renamedTokens, List.getElem?_map, Array.getElem?_toList, htoken, Option.map_some, hreplacement,
    ← hcontext, htext, RenameIndex.newSpelling?_qualified (context_hasNames hs) hname hfull]

theorem renamedTokens_other (h : (parse t).UsesWellFormed) {i : Nat} {token : Token}
    (htoken : (parse t).tokens[i]? = some token)
    (hreference : ∀ s ∈ (parse t).scopes, ∀ r ∈ (parse t).references s.first s.stop, r.token ≠ i)
    (hdoc : token.kind ≠ .docComment)
    (houtside : ∀ span ∈ (parse t).importSpans, ¬(span.1 ≤ i ∧ i < span.2)) :
    ((parse (Adaptation.qualify t)).renamedTokens x)[i]? = some token.text := by
  obtain ⟨token', htoken', hpiece⟩ := qualify_token htoken
  have hkept : (parse t).qualifiedPiece token = (token.kind, token.text) := by
    rw [qualifiedPiece]
    cases hnew : (parse t).qualified? token with
    | none => rfl
    | some new =>
      rcases qualified?_cases htoken hnew with ⟨s, hs, r, hr, hindex, -⟩ | ⟨hkind, -⟩
      · exact absurd hindex (hreference s hs r hr)
      · exact absurd hkind hdoc
  rw [hkept] at hpiece
  obtain ⟨hkind, htext⟩ := Prod.mk.inj hpiece
  have hreference' : ∀ s ∈ (parse (Adaptation.qualify t)).scopes,
      ∀ r ∈ (parse (Adaptation.qualify t)).references s.first s.stop, r.token ≠ i := by
    intro s' hs' r' hr'
    obtain ⟨s, hs, hbare⟩ := (alike_qualify h).symm.exists_scope hs'
    have hfirst : s'.first = s.first := congrArg (·.first) hbare
    have hstop : s'.stop = s.stop := congrArg (·.stop) hbare
    rw [hfirst, hstop, references_qualify h hs] at hr'
    obtain ⟨r, hr, rfl⟩ := List.mem_map.mp hr'
    exact hreference s hs r hr
  have hnone := replacement?_other (x := x) htoken' hreference' (hkind ▸ hdoc)
    ((alike_qualify h).importSpans ▸ houtside)
  rw [renamedTokens, List.getElem?_map, Array.getElem?_toList, htoken', Option.map_some, hnone,
    Option.getD_none, htext]

end SourceFile

/-- The first two steps are one: they look up what every name means and write the new name of that.
The second step finds the references of the first, at the same tokens and of the same kinds, in every
scope. The text is written token by token: a reference by what it meant in its scope at first, and
what is no reference, documents nothing and stands in no `use` statement as it was. -/
theorem Adaptation.renameAll_by_meaning (x : RenameIndex) {t : Text}
    (h : (SourceFile.parse t).UsesWellFormed) :
    let f := SourceFile.parse t
    let g := SourceFile.parse (qualify t)
    g.referencePlaces = f.referencePlaces ∧
      (renameAll x t).text = (g.renamedTokens x).flatten ∧
      (∀ s ∈ f.scopes, ∀ r ∈ f.references s.first s.stop,
        (g.renamedTokens x)[r.token]? = some (x.adapted (f.context s) r)) ∧
      ∀ (i : Nat) (token : Token), f.tokens[i]? = some token →
        (∀ s ∈ f.scopes, ∀ r ∈ f.references s.first s.stop, r.token ≠ i) →
        token.kind ≠ .docComment → (∀ span ∈ f.importSpans, ¬(span.1 ≤ i ∧ i < span.2)) →
        (g.renamedTokens x)[i]? = some token.text := by
  refine ⟨SourceFile.referencePlaces_qualify h, SourceFile.rename_text x _, ?_, ?_⟩
  · exact fun s hs r hr => SourceFile.renamedTokens_reference h hs hr
  · exact fun i token htoken hreference hdoc houtside =>
      SourceFile.renamedTokens_other h htoken hreference hdoc houtside

/-- An imported class and a global function, both with new names. -/
def importedClass : Text := "<?php namespace A; use B\\C; new C(); f();"

def importedIndex : RenameIndex :=
  ⟨[⟨.type, ⟨"B\\C"⟩, ⟨"Acme\\C"⟩, 0, 0⟩, ⟨.function, ⟨['f']⟩, ⟨"Acme\\f"⟩, 0, 1⟩]⟩

theorem importedClass_wellFormed : (SourceFile.parse importedClass).UsesWellFormed := by
  decide +kernel

theorem importedClass_scopes : (SourceFile.parse importedClass).scopes.length = 1 := by
  decide +kernel

def importedScope : Scope :=
  (SourceFile.parse importedClass).scopes.get ⟨0, by rw [importedClass_scopes]; decide⟩

theorem importedClass_by_meaning :
    ((SourceFile.parse (Adaptation.qualify importedClass)).renamedTokens importedIndex)[13]? =
        some ("\\Acme\\C" : Text) ∧
      ((SourceFile.parse (Adaptation.qualify importedClass)).renamedTokens importedIndex)[18]? =
        some ("\\Acme\\f" : Text) := by
  have h := (Adaptation.renameAll_by_meaning importedIndex importedClass_wellFormed).2.2.1
    importedScope (List.get_mem _ _)
  let f := SourceFile.parse importedClass
  let type : Reference := ⟨13, .type, ['C']⟩
  let function : Reference := ⟨18, .function, ['f']⟩
  obtain ⟨⟨hclass, hclassText⟩, hfunction, hfunctionText⟩ :
      (type ∈ f.references importedScope.first importedScope.stop ∧
        importedIndex.adapted (f.context importedScope) type = "\\Acme\\C") ∧
      function ∈ f.references importedScope.first importedScope.stop ∧
        importedIndex.adapted (f.context importedScope) function = "\\Acme\\f" := by
    decide +kernel
  exact ⟨(h _ hclass).trans (congrArg some hclassText), (h _ hfunction).trans (congrArg some hfunctionText)⟩

/-- A malformed `use` statement. Nothing is imported, so the name in it is a reference, and written in
full it makes the statement well-formed. -/
def relativeUse : Text := "<?php\nnamespace A;\nuse namespace\\Foo;\n"

theorem relativeUse_loses_reference :
    (SourceFile.parse (Adaptation.qualify relativeUse)).referencePlaces ≠
      (SourceFile.parse relativeUse).referencePlaces := by
  decide +kernel

end NamespaceMigration
