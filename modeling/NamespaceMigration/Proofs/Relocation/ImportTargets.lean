import NamespaceMigration.Proofs.Moving.ClassNames
import NamespaceMigration.Proofs.Planning.Writable
import NamespaceMigration.Proofs.Relocation.ImportTable

/-! New targets for the imports of a file. Names and comments elsewhere change no import, and the imported names
change one after the other, from the last one to the first one. -/
namespace NamespaceMigration

open Lexer (pieces Lexes IsName)
open SourceFile (parse)

namespace Parser

/-- What is imported outside groups is a name behind a comma or a word of its `use` statement. -/
def NamesItems (c : Code) (kind : StatementKind) : Prop :=
  ∀ items, kind = .imports items → ∀ item ∈ items, item.groupLead? = none → ∃ q,
    item.nameToken = c.tokenIndex (q + 1) ∧ c.isAtAny TokenKind.importNames (q + 1) ∧
      c.isAtAny TokenKind.importLeads q

theorem shape_namesItems (c : Code) (inner : Inner) (p : Nat) : NamesItems c (shape c inner p).value.1 := by
  intro items hitems
  obtain ⟨huse, hshape⟩ := shape_imports hitems
  rw [hshape] at hitems
  exact useStatement_names huse hitems

theorem namespaceStatement_namesItems (c : Code) (inner : Inner) (p : Nat) :
    NamesItems c (namespaceStatement c inner p).value.1 := by
  intro items hitems
  obtain ⟨_, _, _, hspace, -⟩ := namespaceStatement_kind (c := c) inner p
  cases hspace.symm.trans hitems

end Parser

namespace Lexer

theorem HasNameShape.nameLength_pos {kind : TokenKind} {t : Text} (h : HasNameShape kind t) (hkind : kind.isName) :
    0 < nameLength t := by
  by_cases hfull : kind = .nameFullyQualified
  · subst hfull
    obtain ⟨u, rfl, hu⟩ := h
    rw [nameLength, if_neg (by decide), if_pos ⟨rfl, hu.1⟩]
    exact Nat.add_pos_left Nat.one_pos _
  · exact nameLength_pos_of_head (h.isName hkind hfull).1

end Lexer

namespace SourceFile

variable {t : Text}

theorem imported_hasWords {s : Scope} {item : ImportItem} (h : item ∈ (parse t).scopeImports s) : item.HasWords := by
  obtain ⟨l, hl, items, hitems, hmem⟩ := mem_scopeImports h
  have hwords := outline_words t l hl
  rw [hitems] at hwords
  exact hwords item hmem

/-- A name that is imported outside groups comes after a gap. -/
theorem gap_before_import {s : Scope} {item : ImportItem} (hitem : item ∈ (parse t).scopeImports s)
    (halone : item.groupLead? = none) :
    ∃ init p q after, pieces t = init ++ [p] ++ q :: after ∧ (init ++ [p]).length = item.nameToken ∧
      p.1.isGap ∧ q.1 ∈ TokenKind.importNames := by
  obtain ⟨l, hl, items, hitems, hmem⟩ := mem_scopeImports hitem
  have hnames : ∀ l ∈ (parse t).outline, Parser.NamesItems (.ofText t) l.statement.kind :=
    outline_forall (P := fun s => Parser.NamesItems (.ofText t) s.kind) (fun _ hitems => nomatch hitems)
      (Parser.topStatements_everywhere (c := .ofText t) (fun _ _ hitems => nomatch hitems)
        (Parser.shape_namesItems _) fun inner p _ => Parser.namespaceStatement_namesItems _ inner p)
  obtain ⟨q, hindex, hname, hlead⟩ := hnames l hl items hitems item hmem halone
  obtain ⟨kind, hkind, hat⟩ := Code.exists_kind_of_isAtAny hname
  obtain ⟨word, hword, hbefore⟩ := Code.exists_kind_of_isAtAny hlead
  have hplaces := Code.tokenIndex_ofText (Code.lt_size_of_kind? hat)
  rw [← hindex, ← Nat.zero_add item.nameToken] at hplaces
  obtain ⟨before, p, after, ht, hlength, hcode, hp⟩ := Piece.exists_split _ hplaces
  have hpiece : (Piece.code (pieces t))[q + 1]? = some p := by
    rw [ht, Piece.code_append, ← hcode, List.getElem?_append_right (Nat.le_refl _), Nat.sub_self, Piece.code_cons,
      hp]
    rfl
  have hpkind : p.1 = kind := by
    rw [Code.kind?_ofText, hpiece] at hat
    exact Option.some.inj hat
  -- The word or the comma before the name.
  obtain ⟨k, hk⟩ : ∃ k, (Piece.code before).getLast? = some k := by
    rw [← Option.isSome_iff_exists, List.getLast?_isSome, ← List.length_pos_iff, hcode]
    exact Nat.succ_pos q
  have hkword : k.1 = word := by
    rw [List.getLast?_eq_getElem?, hcode, Nat.add_sub_cancel] at hk
    rw [Code.kind?_ofText, ht, Piece.code_append, List.getElem?_append_left (by omega), hk] at hbefore
    exact Option.some.inj hbefore
  have hleads : ∀ kind ∈ TokenKind.importLeads, kind ∈ .comma :: Word.kinds := by decide
  have hnames : ∀ kind ∈ TokenKind.importNames, kind.isName := by decide
  have hshape : Lexer.HasNameShape p.1 p.2 := Lexer.pieces_shape (t := t) (by rw [ht]; simp)
  obtain ⟨init, r, rfl, hgap⟩ := Lexes.exists_gap (ht ▸ Lexer.lexes_pieces t) hk (hleads _ (hkword ▸ hword))
    (hshape.nameLength_pos (hnames _ (hpkind ▸ hkind)))
  exact ⟨init, r, p, after, ht, hlength, hgap, hpkind ▸ hkind⟩

theorem Alike.importTable {f g : SourceFile} (h : f.Alike g) : f.importTable = g.importTable := by
  have hscopes : List.Forall₂ (fun s s' : Scope => s.bare = s'.bare) f.scopes g.scopes := by
    have heq : List.Forall₂ Eq (f.scopes.map Scope.bare) (g.scopes.map Scope.bare) := by
      rw [List.forall₂_eq_eq_eq]
      exact h.scopes
    rwa [List.forall₂_map_left_iff, List.forall₂_map_right_iff] at heq
  unfold SourceFile.importTable
  rw [← List.forall₂_eq_eq_eq, List.forall₂_map_left_iff, List.forall₂_map_right_iff]
  refine hscopes.imp fun s s' hbare => ?_
  have hspace : s.bare.space? = s'.bare.space? := by rw [hbare]
  exact Prod.ext hspace (h.scopeImports hbare)

variable {edits : List TextEdit}

theorem ne_error_of_errors (herrors : (parse t).errors = []) : ∀ p ∈ pieces t, p.1 ≠ .error := by
  intro p hp herror
  have hfaults := faults_of_errors herrors
  rw [Code.matching_ofText] at hfaults
  refine BracketMatching.ne_error_of_faults hfaults p.1 (List.mem_map_of_mem ?_) herror
  exact List.mem_filter.mpr ⟨hp, by rw [herror]; rfl⟩

/-- A step that renames no import leaves the imports what they are. -/
theorem importTable_adapt (hedits : (parse t).AdaptEdits False edits) (herrors : (parse t).errors = []) :
    pieces (Piece.print ((Lexer.tokenize t).map (adaptedPiece edits))) = (Lexer.tokenize t).map (adaptedPiece edits) ∧
      (parse (Piece.print ((Lexer.tokenize t).map (adaptedPiece edits)))).errors = [] ∧
      (parse (Piece.print ((Lexer.tokenize t).map (adaptedPiece edits)))).importTable = (parse t).importTable := by
  have hall : tokenSlice t ([] : List Piece).length (pieces t).length = Lexer.tokenize t := by
    rw [tokenSlice, List.length_nil, List.drop_zero, pieces, List.length_map, List.take_length]
  have ht : pieces t = [] ++ pieces t ++ [] := by rw [List.append_nil, List.nil_append]
  have hrespells := respells_adaptedPiece hedits ht False.elim
  have hreference := fun i => reference_of_respelled (i := i) hedits ht False.elim
  rw [hall] at hrespells hreference
  generalize (Lexer.tokenize t).map (adaptedPiece edits) = qs at *
  have hpieces := hrespells.pieces rfl
  have hmatch : Piece.MatchAll (pieces t) (pieces (Piece.print qs)) := hpieces.symm ▸ hrespells.matchAll
  have hdiffers : ∀ i, Code.Differs t (Piece.print qs) i → ∃ s ∈ (parse t).scopes,
      ∃ r ∈ (parse t).references s.first s.stop, i < (Code.ofText t).size ∧ r.token = (Code.ofText t).tokenIndex i := by
    intro i hi
    rw [Code.Differs, hpieces] at hi
    obtain ⟨hlt, s, hs, r, hr, hindex⟩ := hreference i hi
    rw [Piece.code_nil, List.length_nil, Nat.zero_add] at hindex
    exact ⟨s, hs, r, hr, by rwa [Code.size_ofText], hindex⟩
  have hcode := Code.respelled_of_matchAll hmatch fun i hi => by
    obtain ⟨s, hs, r, hr, hlt, hindex⟩ := hdiffers i hi
    obtain ⟨item, hitem⟩ := Code.exists_item hlt
    exact isFree_of_reference hs hr hitem (by rw [hindex, Code.tokenIndex_eq hitem])
  have ho : (Code.ofText t).Ordered := Code.ordered_ofTokens _ _
  have hfine : Parser.Fine (.ofText t) (Code.Differs t (Piece.print qs)) (Parser.topStatements (.ofText t)) := by
    refine ⟨fun e he => ?_, fun s hs => ?_⟩
    · rw [topErrors herrors] at he
      exact absurd he List.not_mem_nil
    · refine (Statement.Everywhere.imp (fun s hs items hitems i hi => ?_) (root_referenceFree (parse t))).child hs
      obtain ⟨scope, hscope, r, hr, -, hindex⟩ := hdiffers i hi
      exact hindex ▸ hs items hitems scope hscope r hr
  obtain ⟨-, hvalue⟩ := Parser.topStatements_like ho hcode hfine
  have hsize : (parse (Piece.print qs)).tokens.size = (parse t).tokens.size := by
    rw [size_tokens, size_tokens, hmatch.length_eq]
  have halike : (parse (Piece.print qs)).Alike (parse t) := by
    refine ⟨?_, hsize⟩
    rw [root_parse, root_parse, Statement.bare, Statement.bare, hvalue, hsize]
  refine ⟨hpieces, errors_eq_nil_iff.mpr ⟨?_, ?_⟩, halike.importTable⟩
  · exact (congrArg _ (Code.matching_of_matchAll hmatch)).trans (faults_of_errors herrors)
  · exact Parser.topStatements_clears ho hcode hfine (topErrors herrors)

end SourceFile

theorem forall₂_trans {α β γ : Type} {R : α → β → Prop} {S : β → γ → Prop} {T : α → γ → Prop} {as : List α} {bs : List β}
    {cs : List γ} (h : List.Forall₂ R as bs) (h' : List.Forall₂ S bs cs)
    (hT : ∀ a ∈ as, ∀ b c, R a b → S b c → T a c) : List.Forall₂ T as cs := by
  induction h generalizing cs with
  | nil =>
    cases h'
    exact .nil
  | cons hR _ ih =>
    cases h' with
    | cons hS hrest =>
      rw [List.forall_mem_cons] at hT
      exact .cons (hT.1 _ _ hR hS) (ih hrest hT.2)

namespace SameTable

variable {R S T : ImportItem → ImportItem → Prop} {xs ys zs : List ImportRow}

theorem trans (h : SameTable R xs ys) (h' : SameTable S ys zs)
    (hT : ∀ x ∈ xs.flatMap (·.2), ∀ y z, R x y → S y z → T x z) : SameTable T xs zs := by
  refine forall₂_trans h h' fun row hrow row' row'' hR hS => ⟨hS.1.trans hR.1, ?_⟩
  exact forall₂_trans hR.2 hS.2 fun x hx => hT x (List.mem_flatMap.mpr ⟨row, hrow, hx⟩)

theorem of_same (h : ∀ x ∈ xs.flatMap (·.2), R x x) : SameTable R xs xs := by
  refine List.forall₂_same.mpr fun row hrow => ⟨rfl, List.forall₂_same.mpr fun x hx => ?_⟩
  exact h x (List.mem_flatMap.mpr ⟨row, hrow, hx⟩)

theorem imp (h : SameTable R xs ys) (hT : ∀ x ∈ xs.flatMap (·.2), ∀ y, R x y → T x y) : SameTable T xs ys :=
  h.trans (of_same (R := Eq) fun _ _ => rfl) fun x hx y _ hR heq => heq ▸ hT x hx y hR

theorem exists_of_mem (h : SameTable R xs ys) {x : ImportItem} (hx : x ∈ xs.flatMap (·.2)) :
    ∃ y ∈ ys.flatMap (·.2), R x y := by
  obtain ⟨row, hrow, hx⟩ := List.mem_flatMap.mp hx
  obtain ⟨i, hi⟩ := List.mem_iff_getElem?.mp hrow
  rcases forall₂_getElem? h i with ⟨hnone, -⟩ | ⟨a, b, ha, hb, hrows⟩
  · rw [hnone] at hi
    cases hi
  · obtain rfl := Option.some.inj (ha.symm.trans hi)
    obtain ⟨j, hj⟩ := List.mem_iff_getElem?.mp hx
    rcases forall₂_getElem? hrows.2 j with ⟨hnone, -⟩ | ⟨x', y, hx', hy, hR⟩
    · rw [hnone] at hj
      cases hj
    · obtain rfl := Option.some.inj (hx'.symm.trans hj)
      exact ⟨y, List.mem_flatMap.mpr ⟨b, List.mem_of_getElem? hb, List.mem_of_getElem? hy⟩, hR⟩

end SameTable

namespace ImportItem

/-- What has become of an import once those from a token on have changed. -/
structure Becomes (change : ImportItem → ImportItem) (first : Nat) (item item' : ImportItem) : Prop where
  before : item.nameToken < first → item' = item
  place : first ≤ item.nameToken → first ≤ item'.nameToken
  changed : first ≤ item.nameToken → { item' with nameToken := item.nameToken } = change item

variable {change : ImportItem → ImportItem} {first : Nat} {new : Text} {short? : Option Text} {item item' item'' : ImportItem}

theorem Becomes.keep (h : Becomes change (first + 1) item item')
    (hsame : item.nameToken = first → change item = item) : Becomes change first item item' := by
  refine ⟨fun hlt => h.before (Nat.lt_succ_of_lt hlt), fun hle => ?_, fun hle => ?_⟩
  · rcases Nat.lt_or_eq_of_le hle with hlt | heq
    · exact Nat.le_of_succ_le (h.place hlt)
    · rw [h.before (by omega)]
      exact hle
  · rcases Nat.lt_or_eq_of_le hle with hlt | heq
    · exact h.changed hlt
    · rw [h.before (by omega), hsame heq.symm]

theorem Becomes.follow (h : Becomes change (first + 1) item item') (hfollows : Follows first new short? item' item'')
    (hchange : item.nameToken = first → change item = item.retarget new short?) : Becomes change first item item'' := by
  by_cases hlt : item.nameToken < first + 1
  · obtain rfl := h.before hlt
    cases hfollows with
    | before hbefore => exact ⟨fun _ => rfl, fun hle => hle, fun hle => by omega⟩
    | here heq => exact ⟨fun hbefore => by omega, fun hle => hle, fun _ => (hchange heq).symm⟩
    | after hafter => omega
  · have hplace := h.place (by omega)
    cases hfollows with
    | before hbefore => omega
    | here heq => omega
    | after _ hindex =>
      exact ⟨fun hbefore => by omega, fun _ => Nat.le_of_lt hindex, fun _ => h.changed (by omega)⟩

end ImportItem

namespace Lexer.Recasts

variable {gap : Bool} {front back : List (Piece × List Piece)}

theorem undo (h : Recasts gap (front ++ back)) : Recasts gap (front.map (fun r => (r.1, [r.1])) ++ back) := by
  induction front generalizing gap with
  | nil => exact h
  | cons r front ih =>
    cases h with
    | cons _ hrest => exact .cons (.same _) (ih hrest)

theorem pieces_partial {t : Text} (h : Recasts false (front ++ back)) (ht : (front ++ back).map (·.1) = pieces t)
    (hvalid : ∀ p ∈ pieces t, p.1 ≠ .error) :
    pieces (Piece.print (front.map (·.1) ++ back.flatMap (·.2))) = front.map (·.1) ++ back.flatMap (·.2) := by
  have hsources : (front.map (fun r => (r.1, [r.1])) ++ back).map (·.1) = pieces t := by
    rw [← ht]
    simp [Function.comp_def]
  have hflat : (front.map (fun r => (r.1, [r.1])) ++ back).flatMap (·.2) = front.map (·.1) ++ back.flatMap (·.2) := by
    rw [List.flatMap_append, List.flatMap_map, List.map_eq_flatMap]
  rw [← hflat]
  refine Lexer.pieces_print (h.undo.lexes ?_ ⟨rfl, rfl, rfl⟩ ?_)
  · exact hsources ▸ Lexer.lexes_pieces t
  · exact hsources ▸ hvalid

end Lexer.Recasts

/-- What comes in the place of a token: itself, or a new target for all imports that have it. -/
inductive TargetsAt (items : List ImportItem) (change : ImportItem → ImportItem) (i : Nat) :
    Piece × List Piece → Prop
  | same {p : Piece} : (∀ item ∈ items, item.nameToken = i → change item = item) → TargetsAt items change i (p, [p])
  | target {p q : Piece} {short? : Option Text} {item : ImportItem} : item ∈ items → item.nameToken = i →
      item.groupLead? = none → (short?.isSome → item.alias? = none) → p.1 ∈ TokenKind.importNames →
      q.1 ∈ TokenKind.importNames →
      (∀ item ∈ items, item.nameToken = i → change item = item.retarget (dropBackslashes q.2) short?) →
      TargetsAt items change i (p, q :: ImportItem.aliasPieces short?)

namespace SourceFile

variable {t : Text} {rs : List (Piece × List Piece)} {change : ImportItem → ImportItem}

theorem mem_importTable {f : SourceFile} {item : ImportItem} :
    item ∈ f.importTable.flatMap (·.2) ↔ ∃ s ∈ f.scopes, item ∈ f.scopeImports s := by
  rw [importTable, List.flatMap_map, List.mem_flatMap]

/-- The induction is on what has changed, which is what comes last. -/
theorem importTable_partial (herrors : (parse t).errors = []) (hrs : Lexer.Recasts false rs)
    (ht : rs.map (·.1) = pieces t)
    (hrows : ∀ i r, rs[i]? = some r → TargetsAt ((parse t).importTable.flatMap (·.2)) change i r)
    {front back : List (Piece × List Piece)} (hsplit : rs = front ++ back) :
    (parse (Piece.print (front.map (·.1) ++ back.flatMap (·.2)))).errors = [] ∧
      SameTable (ImportItem.Becomes change front.length) (parse t).importTable
        (parse (Piece.print (front.map (·.1) ++ back.flatMap (·.2)))).importTable := by
  have hvalid := ne_error_of_errors herrors
  induction back generalizing front with
  | nil =>
    have hprint : Piece.print (front.map (·.1) ++ ([] : List (Piece × List Piece)).flatMap (·.2)) = t := by
      rw [List.append_nil] at hsplit
      rw [List.flatMap_nil, List.append_nil, ← hsplit, ht, Lexer.print_pieces]
    rw [hprint]
    refine ⟨herrors, .of_same fun item hitem => ?_⟩
    obtain ⟨s, hs, hitem⟩ := mem_importTable.mp hitem
    obtain ⟨token, htoken, -⟩ := nameToken_inside hitem
    have hlt : item.nameToken < front.length := by
      have hlength := congrArg List.length ht
      rw [List.length_map, hsplit, List.append_nil] at hlength
      rw [hlength, ← size_tokens]
      exact (Array.getElem?_eq_some_iff.mp htoken).1
    exact ⟨fun _ => rfl, fun hle => by omega, fun hle => by omega⟩
  | cons r back ih =>
    have hsplit' : rs = (front ++ [r]) ++ back := by rw [hsplit, List.append_assoc, List.singleton_append]
    obtain ⟨herrors', htable⟩ := ih hsplit'
    have hpieces := Lexer.Recasts.pieces_partial (hsplit ▸ hrs) (hsplit ▸ ht) hvalid
    have hpieces' := Lexer.Recasts.pieces_partial (hsplit' ▸ hrs) (hsplit' ▸ ht) hvalid
    have hr : rs[front.length]? = some r := by
      rw [hsplit, List.getElem?_append_right (Nat.le_refl _), Nat.sub_self, List.getElem?_cons_zero]
    rw [List.length_append, List.length_singleton] at htable
    cases hrows _ r hr with
    | @same p hsame =>
      have hflat : front.map (·.1) ++ ((p, [p]) :: back).flatMap (·.2) =
          (front ++ [(p, [p])]).map (·.1) ++ back.flatMap (·.2) := by simp
      rw [hflat]
      exact ⟨herrors', htable.imp fun item hitem item' h => h.keep (hsame item hitem)⟩
    | @target p q short? item hitem htoken halone hshort hp hq hchange =>
      obtain ⟨item', hitem', hbecomes⟩ := htable.exists_of_mem hitem
      obtain rfl := hbecomes.before (by omega)
      obtain ⟨s, hs, himported⟩ := mem_importTable.mp hitem'
      have hbefore : pieces (Piece.print ((front ++ [(p, q :: ImportItem.aliasPieces short?)]).map (·.1) ++
          back.flatMap (·.2))) = front.map (·.1) ++ p :: back.flatMap (·.2) := by
        rw [hpieces']
        simp
      have hafter : pieces (Piece.print (front.map (·.1) ++ ((p, q :: ImportItem.aliasPieces short?) :: back).flatMap
          (·.2))) = front.map (·.1) ++ (q :: ImportItem.aliasPieces short?) ++ back.flatMap (·.2) := by
        rw [hpieces]
        simp
      have hlength : (front.map (·.1)).length = front.length := List.length_map _
      obtain ⟨herrors'', hnext⟩ := importTable_retargeted hbefore hafter hp hq herrors' hs himported
        (htoken.trans hlength.symm) halone hshort
      rw [hlength] at hnext
      exact ⟨herrors'', htable.trans hnext fun x hx y z hxy hyz => hxy.follow hyz (hchange x hx)⟩

end SourceFile

namespace RenameIndex

variable (x : RenameIndex)

/-- An import with its new name. -/
def retarget (item : ImportItem) : ImportItem :=
  match x.target? item with
  | none => item
  | some (new, short?) => item.retarget new.text short?

/-- With its new name alone, an import would have another short name. -/
def NeedsAlias (item : ImportItem) : Prop := item.groupLead? = none ∧ item.alias? = none ∧
  ∃ new, x.newName? item.name item.kind = some new ∧ new.short ≠ lastSegment item.name

variable {x} {item : ImportItem}

theorem needsAlias_of_target {new : QualifiedName} {short : Text} (h : x.target? item = some (new, some short)) :
    x.NeedsAlias item := by
  obtain ⟨halone, hnew, hshort⟩ := target?_eq_some h
  obtain ⟨halias, hne, rfl⟩ := hshort short rfl
  exact ⟨halone, halias, new, hnew, hne⟩

end RenameIndex

namespace SourceFile

variable {t : Text} {x : RenameIndex}

theorem eq_of_nameToken {f : SourceFile} (h : Parser.ItemsInOrder (f.importTable.flatMap (·.2))) {item item' : ImportItem}
    (hitem : item ∈ f.importTable.flatMap (·.2)) (hitem' : item' ∈ f.importTable.flatMap (·.2))
    (htoken : item.nameToken = item'.nameToken) : item = item' := by
  refine List.inj_on_of_nodup_map (f := ImportItem.nameToken) ?_ hitem hitem' htoken
  rw [List.Nodup, List.pairwise_map]
  exact h.imp Nat.ne_of_lt

/-- What is written for an imported name. -/
theorem written_import {i : Nat} {token : Token} (htoken : (parse t).tokens[i]? = some token) {item : ImportItem}
    (hitem : item ∈ (parse t).importTable.flatMap (·.2)) (hindex : item.nameToken = i) :
    written ((parse t).renames x).edits token = ((x.target? item).map fun target =>
      target.1.text ++ Piece.print (ImportItem.aliasPieces target.2)).getD token.text := by
  obtain ⟨s, hs, himported⟩ := mem_importTable.mp hitem
  have hreference : ∀ s ∈ (parse t).scopes, ∀ r ∈ (parse t).references s.first s.stop, r.token ≠ i := by
    intro s' hs' r hr hr'
    obtain ⟨-, -, span, hspan, hinside⟩ := nameToken_inside himported
    obtain ⟨-, -, -, -, -, -, houtside⟩ := references_token hr
    exact houtside span hspan (by rw [hr', ← hindex]; exact hinside)
  have hcode : token.kind ≠ .docComment := by
    obtain ⟨_, _, _, _, _, token', htoken', htrivia⟩ := imported_inside hs himported
    rw [hindex, htoken, Option.some.injEq] at htoken'
    intro hdoc
    rw [← htoken', hdoc] at htrivia
    cases htrivia
  have hwritten : TextEdit.replacement? ((parse t).renames x).edits token.range = (x.target? item).map fun target =>
      target.1.text ++ Piece.print (ImportItem.aliasPieces target.2) := by
    refine TextEdit.replacement?_eq (fun e he hrange => ?_) fun new hnew => ?_
    · obtain ⟨s', hs', item', hitem', hindex', hedit⟩ := exists_renameImport htoken hcode hreference he hrange
      obtain rfl := eq_of_nameToken (importTable_inOrder t) (mem_importTable.mpr ⟨s', hs', hitem'⟩) hitem
        (hindex'.trans hindex.symm)
      rw [RenameIndex.renameImport?_eq] at hedit
      obtain ⟨target, htarget, rfl⟩ := Option.map_eq_some_iff.mp hedit
      rw [htarget, Option.map_some]
    · obtain ⟨target, htarget, rfl⟩ := Option.map_eq_some_iff.mp hnew
      have hedit : (parse t).renameImport? x item = _ := RenameIndex.renameImport?_eq (parse t)
      rw [htarget, Option.map_some] at hedit
      have hmem := List.mem_filterMap.mpr ⟨item, himported, hedit⟩
      exact ⟨_, List.mem_flatMap.mpr ⟨_, List.mem_map_of_mem hs, List.mem_append_left _ (List.mem_append_right _ hmem)⟩,
        tokenRange_eq (hindex ▸ htoken)⟩
  rw [written, hwritten]

/-- The pieces of a text with all its changes but those of imports. -/
def piecesBeside (x : RenameIndex) (t : Text) : List Piece :=
  (Lexer.tokenize t).map (adaptedPiece ((parse t).besidesImports ((parse t).renames x).edits))

theorem importTable_piecesBeside (hx : x.HasNames) (herrors : (parse t).errors = []) :
    pieces (Piece.print (piecesBeside x t)) = piecesBeside x t ∧
      (parse (Piece.print (piecesBeside x t))).errors = [] ∧
      (parse (Piece.print (piecesBeside x t))).importTable = (parse t).importTable :=
  importTable_adapt (adaptEdits_besidesImports (adaptEdits_rename hx t)) herrors

/-- What comes in the place of a token: what the step writes for it. -/
theorem exists_targetsAt (hx : x.IsWritable) (herrors : (parse t).errors = [])
    (hwords : ∀ item ∈ (parse t).importTable.flatMap (·.2), x.NeedsAlias item →
      Word.keywordKind? (lastSegment item.name) = none)
    {j : Nat} {token : Token} (htoken : (parse t).tokens[j]? = some token) :
    ∃ ps, Lexer.RecastAs (Lexer.gapBefore false (piecesBeside x t) j)
        (adaptedPiece ((parse t).besidesImports ((parse t).renames x).edits) token) ps ∧
      Piece.print ps = written ((parse t).renames x).edits token ∧
      TargetsAt ((parse t).importTable.flatMap (·.2)) x.retarget j
        (adaptedPiece ((parse t).besidesImports ((parse t).renames x).edits) token, ps) := by
  by_cases himports : (parse t).ImportsAt j
  swap
  · refine ⟨_, .same _, ?_, .same fun item hitem hindex => absurd ?_ himports⟩
    · rw [Piece.print_cons, Piece.print_nil, List.append_nil, adaptedPiece_text, written, written,
        replacement?_besides htoken himports]
    · obtain ⟨s, hs, hitem⟩ := mem_importTable.mp hitem
      exact ⟨s, hs, item, hitem, hindex⟩
  obtain ⟨s, hs, item, himported, hindex⟩ := himports
  have hitem := mem_importTable.mpr ⟨s, hs, himported⟩
  have hsame : ∀ other ∈ (parse t).importTable.flatMap (·.2), other.nameToken = j → other = item := by
    intro other hother h
    exact eq_of_nameToken (importTable_inOrder t) hother hitem (h.trans hindex.symm)
  have hkept : adaptedPiece ((parse t).besidesImports ((parse t).renames x).edits) token = (token.kind, token.text) := by
    rw [adaptedPiece, replacement?_import htoken ⟨s, hs, item, himported, hindex⟩]
  rw [hkept, written_import htoken hitem hindex]
  cases htarget : x.target? item with
  | none =>
    refine ⟨_, .same _, List.append_nil _, .same fun other hother h => ?_⟩
    rw [hsame other hother h, RenameIndex.retarget, htarget]
  | some target =>
    obtain ⟨new, short?⟩ := target
    obtain ⟨halone, hnew, hshort⟩ := RenameIndex.target?_eq_some htarget
    obtain ⟨entry, hentry, hchanges, rfl⟩ := RenameIndex.mem_of_newName? hnew
    obtain ⟨hname, himportable⟩ := (hx entry hentry hchanges).isNameOf
    -- The import stands after a gap, also once the names elsewhere have changed.
    obtain ⟨hpieces, -, htable⟩ := importTable_piecesBeside hx.hasNames herrors
    obtain ⟨s', hs', himported'⟩ := mem_importTable.mp (htable.symm ▸ hitem)
    obtain ⟨init, p, q, after, hsplit, hlength, hgap, hq⟩ := gap_before_import himported' halone
    rw [hpieces] at hsplit
    have hat : (piecesBeside x t)[j]? = some (token.kind, token.text) := by
      rw [piecesBeside, List.getElem?_map, ← tokens_parse, htoken, Option.map_some, hkept]
    obtain rfl : (token.kind, token.text) = q := by
      rw [hsplit, ← hindex, ← hlength, List.getElem?_append_right (Nat.le_refl _), Nat.sub_self] at hat
      exact (Option.some.inj hat).symm
    have hbefore : Lexer.gapBefore false (piecesBeside x t) j := by
      rw [← hindex, ← hlength, List.length_append, List.length_singleton, Lexer.gapBefore, hsplit,
        List.append_assoc, List.getElem?_append_right (Nat.le_refl _), Nat.sub_self]
      exact hgap
    have hkind : token.kind.isName := by
      have hall : ∀ kind ∈ TokenKind.importNames, kind.isName := by decide
      exact hall _ hq
    refine ⟨_, .name hbefore hkind hname fun short heq => ?_, rfl, ?_⟩
    · obtain rfl : short? = some short := heq
      obtain ⟨-, -, rfl⟩ := hshort short rfl
      exact ⟨(imported_hasWords himported).name.lastSegment, lastSegment_not_mem _,
        hwords item hitem (RenameIndex.needsAlias_of_target htarget)⟩
    · have hplain : dropBackslashes entry.new.text = entry.new.text := by
        refine dropBackslashes_eq_self fun hhead => ?_
        have := hname.isName.1
        rw [hhead] at this
        exact absurd this (by decide)
      refine .target hitem hindex halone (fun hsome => ?_) hq himportable fun other hother h => ?_
      · obtain ⟨short, hsome⟩ := Option.isSome_iff_exists.mp hsome
        exact (hshort short hsome).1
      · rw [hsame other hother h, RenameIndex.retarget, htarget, hplain]

/-- Some pieces are what the step writes for a token. -/
def WrittenAt (x : RenameIndex) (t : Text) (j : Nat) (ps : List Piece) : Prop :=
  ∃ token, (Lexer.tokenize t)[j]? = some token ∧ Piece.print ps = written ((parse t).renames x).edits token ∧
    ∃ p, (piecesBeside x t)[j]? = some p ∧ TargetsAt ((parse t).importTable.flatMap (·.2)) x.retarget j (p, ps)

/-- The imports after the step. -/
theorem importTable_rename (hx : x.IsWritable) (herrors : (parse t).errors = [])
    (hwords : ∀ item ∈ (parse t).importTable.flatMap (·.2), x.NeedsAlias item →
      Word.keywordKind? (lastSegment item.name) = none) :
    (parse (Adaptation.rename x t).text).errors = [] ∧
      SameTable (ImportItem.Becomes x.retarget 0) (parse t).importTable
        (parse (Adaptation.rename x t).text).importTable := by
  obtain ⟨hpieces, herrors', htable⟩ := importTable_piecesBeside hx.hasNames herrors
  have hrow : ∀ j p, (piecesBeside x t)[j]? = some p →
      ∃ ps, Lexer.RecastAs (Lexer.gapBefore false (piecesBeside x t) j) p ps ∧ WrittenAt x t j ps := by
    intro j p hp
    have hp' := hp
    rw [piecesBeside, List.getElem?_map, Option.map_eq_some_iff] at hp'
    obtain ⟨token, htoken, rfl⟩ := hp'
    obtain ⟨ps, hrecast, hprint, htargets⟩ := exists_targetsAt hx herrors hwords ((tokens_parse t j).trans htoken)
    exact ⟨ps, hrecast, token, htoken, hprint, _, hp, htargets⟩
  obtain ⟨rs, hrs, hsources, hall⟩ := Lexer.exists_recasts hrow
  have hlength : rs.length = (Lexer.tokenize t).length := by
    rw [← List.length_map (·.1), hsources, piecesBeside, List.length_map]
  have hprint : Piece.print (rs.flatMap (·.2)) = (Adaptation.rename x t).text := by
    refine (Piece.print_flatMap (forall₂_of_getElem? hlength fun j r token hr htoken => ?_)).trans
      (applyAll_written (adaptEdits_rename hx.hasNames t)).symm
    obtain ⟨token', htoken', hprint, -⟩ := hall j r hr
    rwa [Option.some.inj (htoken'.symm.trans htoken)] at hprint
  have hrows : ∀ i r, rs[i]? = some r →
      TargetsAt ((parse (Piece.print (piecesBeside x t))).importTable.flatMap (·.2)) x.retarget i r := by
    intro i r hr
    obtain ⟨token, -, -, p, hp, htargets⟩ := hall i r hr
    have hr' : (piecesBeside x t)[i]? = some r.1 := by
      rw [← hsources, List.getElem?_map, hr, Option.map_some]
    rw [htable]
    rwa [Option.some.inj (hp.symm.trans hr')] at htargets
  have hpartial := importTable_partial herrors' hrs (hsources.trans hpieces.symm) hrows (show rs = [] ++ rs from rfl)
  rw [List.map_nil, List.nil_append, hprint] at hpartial
  exact ⟨hpartial.1, htable ▸ hpartial.2⟩

end SourceFile

/-- An import keeps its kind and its short name. Outside groups it has the new name of what it imports if that is
another one, and else it has the name that it had. -/
structure RenameIndex.Retargets (x : RenameIndex) (item item' : ImportItem) : Prop where
  kind : item'.kind = item.kind
  shortName : item'.shortName = item.shortName
  grouped : item'.groupLead?.isSome = item.groupLead?.isSome
  changed : item.groupLead? = none → ∀ e, x.find? item.kind item.name = some e → e.changes → item'.name = e.new.text
  kept : (item.groupLead?.isSome ∨ ∀ e, x.find? item.kind item.name = some e → e.changes = false) →
    item'.name = item.name

namespace RenameIndex

variable {x : RenameIndex} {item item' : ImportItem}

theorem newName?_of_find? {e : IndexEntry} (he : x.find? item.kind item.name = some e) :
    x.newName? item.name item.kind =
      if e.changes ∧ e.new.text ≠ dropBackslashes item.name then some e.new else none := by
  rw [newName?, he]
  rfl

theorem newName?_of_unchanged (h : ∀ e, x.find? item.kind item.name = some e → e.changes = false) :
    x.newName? item.name item.kind = none := by
  cases hfind : x.find? item.kind item.name with
  | none =>
    rw [newName?, hfind]
    rfl
  | some e =>
    rw [newName?_of_find? hfind, if_neg]
    rw [h e hfind]
    exact fun hchanges => Bool.false_ne_true hchanges.1

theorem shortName_retarget : (x.retarget item).shortName = item.shortName := by
  rw [retarget]
  cases htarget : x.target? item with
  | none => rfl
  | some target =>
    rw [target?] at htarget
    split at htarget
    · cases htarget
    · obtain ⟨new, -, rfl⟩ := Option.map_eq_some_iff.mp htarget
      dsimp only [ImportItem.retarget, ImportItem.shortName]
      split
      · rename_i halias
        rw [halias.1]
        rfl
      · rename_i hnot
        cases halias : item.alias? with
        | some short => rfl
        | none =>
          have hsame : new.short = lastSegment item.name := by simpa [halias] using hnot
          exact hsame

theorem name_retarget (hname : Lexer.IsName item.name) (halone : item.groupLead? = none) {e : IndexEntry}
    (he : x.find? item.kind item.name = some e) (hchanges : e.changes) : (x.retarget item).name = e.new.text := by
  have hplain : dropBackslashes item.name = item.name := hname.dropBackslashes
  rw [retarget, target?, if_neg (by simp [halone]), newName?_of_find? he, hplain]
  by_cases hsame : e.new.text = item.name
  · rw [if_neg fun h => h.2 hsame]
    exact hsame.symm
  · rw [if_pos ⟨hchanges, hsame⟩]
    rfl

theorem target?_eq_none (h : item.groupLead?.isSome ∨ x.newName? item.name item.kind = none) :
    x.target? item = none := by
  rw [target?]
  split
  · rfl
  · rename_i halone
    rw [h.resolve_left halone]
    rfl

theorem Retargets.of_eq (hname : Lexer.IsName item.name)
    (h : { item' with nameToken := item.nameToken } = x.retarget item) : x.Retargets item item' := by
  have hlead : item'.groupLead? = item.groupLead? := by
    refine (congrArg ImportItem.groupLead? h).trans ?_
    rw [retarget]
    cases x.target? item <;> rfl
  have hkind : item'.kind = item.kind := by
    refine (congrArg ImportItem.kind h).trans ?_
    rw [retarget]
    cases x.target? item <;> rfl
  refine ⟨hkind, (congrArg ImportItem.shortName h).trans shortName_retarget, by rw [hlead],
    fun halone e he hchanges => ?_, fun hkept => ?_⟩
  · exact (congrArg ImportItem.name h).trans (name_retarget hname halone he hchanges)
  · refine (congrArg ImportItem.name h).trans ?_
    rw [retarget, target?_eq_none (hkept.imp_right newName?_of_unchanged)]

end RenameIndex

namespace SourceFile

variable {t : Text} {x : RenameIndex}

/-- Once an index of planned files with legal new names has renamed a text, the text imports what it imported, by the
same short names and under the new names, unless a short name that has to be written as an alias is a keyword. -/
theorem imports_retargeted_iff (hx : x.IsPlanned) (hlegal : x.IsLegal) (herrors : (parse t).errors = []) :
    ((parse (Adaptation.rename x t).text).errors = [] ∧
      SameTable x.Retargets (parse t).importTable (parse (Adaptation.rename x t).text).importTable) ↔
    ∀ item ∈ (parse t).importTable.flatMap (·.2), x.NeedsAlias item →
      Word.keywordKind? (lastSegment item.name) = none := by
  constructor
  · rintro ⟨-, htable⟩ item hitem ⟨halone, halias, new, hnew, hne⟩
    obtain ⟨item', hitem', hretargets⟩ := htable.exists_of_mem hitem
    obtain ⟨s, hs, himported⟩ := mem_importTable.mp hitem'
    have hname : item'.name = new.text := by
      obtain ⟨e, hfind, -⟩ := Option.bind_eq_some_iff.mp hnew
      rw [RenameIndex.newName?_of_find? hfind] at hnew
      split at hnew
      · rename_i hchanges
        cases hnew
        exact hretargets.changed halone e hfind hchanges.1
      · cases hnew
    have hshort : item'.shortName = lastSegment item.name := by
      rw [hretargets.shortName, ImportItem.shortName, halias, Option.getD_none]
    rw [ImportItem.shortName, hname] at hshort
    cases halias' : item'.alias? with
    | none =>
      rw [halias'] at hshort
      exact absurd hshort hne
    | some short =>
      rw [halias'] at hshort
      exact hshort ▸ ((imported_hasWords himported).short short halias').plain
  · intro hwords
    obtain ⟨herrors', htable⟩ := importTable_rename (hx.isWritable hlegal) herrors hwords
    refine ⟨herrors', htable.imp fun item hitem item' h => ?_⟩
    obtain ⟨s, hs, himported⟩ := mem_importTable.mp hitem
    exact .of_eq (imported_hasWords himported).name (h.changed (Nat.zero_le _))

/-- A function that is imported by the name of a magic constant. Written as an alias that name is the constant. -/
def magicFunction : Text := "<?php\nnamespace N;\nfunction __class__() {}\n"

def magicIndex : RenameIndex := .ofFiles [.ofText (.ofLead "Acme") "a.php" magicFunction]

def magicImport : Text := "<?php\nuse function N\\__CLASS__;\n"

theorem magicImport_not_retargeted :
    ¬((parse (Adaptation.rename magicIndex magicImport).text).errors = [] ∧
      SameTable magicIndex.Retargets (parse magicImport).importTable
        (parse (Adaptation.rename magicIndex magicImport).text).importTable) := by
  have hentries : magicIndex.entries = [⟨.function, ⟨"N\\__class__"⟩, ⟨"Acme\\N\\__class__"⟩, 0, 0⟩] := by
    decide +kernel
  have hplanned : magicIndex.IsPlanned := by
    refine RenameIndex.isPlanned_ofFiles (List.forall_mem_singleton.mpr fun d hd => ?_)
    exact ⟨.ofLead "Acme", "a.php", magicFunction, hd⟩
  have hlegal : magicIndex.IsLegal := by
    rw [RenameIndex.IsLegal, hentries]
    exact List.forall_mem_singleton.mpr (by decide +kernel)
  obtain ⟨herrors, hitem⟩ : (parse magicImport).errors = [] ∧
      (⟨.function, "N\\__CLASS__", none, 5, none⟩ : ImportItem) ∈ (parse magicImport).importTable.flatMap (·.2) := by
    decide +kernel
  rw [imports_retargeted_iff hplanned hlegal herrors]
  intro hwords
  have hnone := hwords _ hitem ⟨rfl, rfl, ⟨"Acme\\N\\__class__"⟩, by decide +kernel, by decide +kernel⟩
  exact absurd hnone (by decide +kernel)

end SourceFile

end NamespaceMigration
