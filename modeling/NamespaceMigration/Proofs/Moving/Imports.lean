import NamespaceMigration.Proofs.Moving.Cutting
import NamespaceMigration.Proofs.Moving.OwnFile
import NamespaceMigration.Proofs.Rendering.Renamed

/-! Imports that are moved with code. A step writes a `use` statement for a `use` statement, also where it
gives an imported name another one and the old short name as an alias. -/
namespace NamespaceMigration

open Lexer (pieces Lexes Closed Recasts RecastAs)
open SourceFile (parse)
open TokenKind (IsUse)

theorem TokenKind.IsUse.ne_error {kinds : List TokenKind} (h : IsUse kinds) : ∀ kind ∈ kinds, kind ≠ .error := by
  have hfaults : (BracketMatching.ofKindsFrom 0 [] kinds).faults = [] := BracketMatching.faults_of_nest h.nest
  exact BracketMatching.ne_error_of_faults hfaults

/-- With other names a `use` statement is one if its code is. -/
theorem IsUsePieces.recast {ps : List Piece} (h : IsUsePieces ps) {rs : List (Piece × List Piece)}
    (hrs : Recasts false rs) (hps : rs.map (·.1) = ps) (hkinds : IsUse ((Piece.code (rs.flatMap (·.2))).map (·.1))) :
    IsUsePieces (rs.flatMap (·.2)) := by
  have hne {qs : List Piece} (hqs : IsUse ((Piece.code qs).map (·.1))) {p : Piece} (hp : p ∈ qs) : p.1 ≠ .error := by
    intro herror
    refine hqs.ne_error p.1 (List.mem_map_of_mem (List.mem_filter.mpr ⟨hp, ?_⟩)) herror
    rw [herror]
    rfl
  have hhalts : ∀ q ∈ rs.flatMap (·.2), q.1 ≠ .kwHaltCompiler := by
    intro q hq
    obtain ⟨r, hr, hq⟩ := List.mem_flatMap.mp hq
    obtain ⟨_, hrecast⟩ := hrs.exists_recastAs r hr
    exact hrecast.not_halts (h.halts r.1 (hps ▸ List.mem_map_of_mem hr)) q hq
  have hlexes := h.closed .between [] ⟨rfl, rfl, rfl⟩ (.nil _)
  rw [List.append_nil, ← hps] at hlexes
  have hlexes := hrs.lexes hlexes ⟨rfl, rfl, rfl⟩ fun p hp => hne h.kinds (hps ▸ hp)
  obtain ⟨init, q, hinit, hq⟩ := h.last
  obtain ⟨w, rest, hfirst⟩ := h.exists_use
  -- The keyword and the semicolon stay.
  obtain ⟨rs', rfl⟩ : ∃ rs', rs = rs' ++ [(q, [q])] := by
    rcases List.eq_nil_or_concat rs with rfl | ⟨rs', r, rfl⟩
    · rw [hinit] at hps
      exact absurd hps.symm (by simp)
    · rw [List.concat_eq_append] at hrs hps ⊢
      rw [List.map_append, hinit] at hps
      obtain rfl : r.1 = q := by simpa using (List.append_inj' hps rfl).2
      obtain ⟨_, hrecast⟩ := hrs.exists_recastAs r (by simp)
      have hsame := hrecast.eq_same (by rw [hq]; rfl) (by rw [hq]; exact TokenKind.noConfusion)
      exact ⟨rs', by rw [← hsame]⟩
  rw [List.flatMap_append] at hlexes hkinds hhalts ⊢
  have hend : [(q, [q])].flatMap (·.2) = [q] := rfl
  rw [hend] at hlexes hkinds hhalts ⊢
  refine ⟨?_, hkinds, ?_, ⟨_, q, rfl, hq⟩, hhalts⟩
  · refine hlexes.closed ⟨rfl, rfl, rfl⟩ (by rw [hq]; rfl) (fun p hp => hne hkinds (List.mem_append_left _ hp))
      fun p hp => hhalts p (List.mem_append_left _ hp)
  · rw [hfirst] at hps
    cases rs' with
    | nil =>
      obtain rfl : q = (.kwUse, w) := (List.cons.inj hps).1
      cases hq
    | cons r rs' =>
      have hr : r.1 = (.kwUse, w) := (List.cons.inj hps).1
      obtain ⟨_, hrecast⟩ := hrs.exists_recastAs r (by simp)
      have hsame := hrecast.eq_same (by rw [hr]; rfl) (by rw [hr]; exact TokenKind.noConfusion)
      exact ⟨r.1, _, by rw [List.flatMap_cons, hsame]; rfl, by rw [hr]; rfl⟩

namespace Part

theorem IsAlone.eq {part part' : Part} (h : part.IsAlone) (h' : part'.IsAlone) (hlead : part.lead = part'.lead)
    (hprint : Piece.print part.content = Piece.print part'.content) : part = part' := by
  obtain ⟨lead, content, statement⟩ := part
  obtain ⟨lead', content', statement'⟩ := part'
  obtain rfl : lead = lead' := hlead
  have hpieces := h.read.pieces
  have hpieces' := h'.read.pieces
  dsimp only at hprint hpieces hpieces'
  rw [hprint, hpieces'] at hpieces
  obtain rfl : content' = content := List.append_cancel_left (List.append_cancel_right hpieces)
  have hs := h.read.read.symm.trans h'.read.read
  obtain rfl : statement = statement' := Statement.move_inj _ _ (congrArg (·.value) hs)
  rfl

namespace IsUse

variable {part : Part} {items : List ImportItem} (h : part.IsUse items)
include h

theorem useStatement : Parser.useStatement (.ofText ("<?php\n" ++ Piece.print part.content ++ ";")) 0 =
    ⟨.imports (items.map (ImportItem.move 1)), (Piece.code part.content).length, []⟩ := by
  have hkind : (part.statement.move 1).kind = .imports (items.map (ImportItem.move 1)) := by
    rw [Statement.kind_move, h.kind]
    rfl
  exact (Parser.useStatement_of_reading h.alone.read.read hkind).2

theorem kwUse : (Code.ofText ("<?php\n" ++ Piece.print part.content ++ ";")).kind? 0 = some .kwUse := by
  have hkind : (part.statement.move 1).kind = .imports (items.map (ImportItem.move 1)) := by
    rw [Statement.kind_move, h.kind]
    rfl
  exact (Parser.useStatement_of_reading h.alone.read.read hkind).1

/-- With other names, perhaps with an alias where there is none, it is a `use` statement, too. -/
theorem recast {rs : List (Piece × List Piece)} (hrs : Recasts false rs) (hcontent : rs.map (·.1) = part.content)
    (hkinds : ∀ j r, rs[j]? = some r → (Piece.code r.2).map (·.1) = (Piece.code [r.1]).map (·.1) ∨
      ∃ item ∈ items, item.groupLead? = none ∧ item.nameToken = j ∧ ∃ name ∈ TokenKind.importNames,
        (Piece.code r.2).map (·.1) = [name] ∨
          item.alias? = none ∧ (Piece.code r.2).map (·.1) = [name, .kwAs, .ident]) :
    ∃ (part' : Part) (items' : List ImportItem), part'.IsUse items' ∧ part'.lead = part.lead ∧
      part'.content = rs.flatMap (·.2) := by
  have ho : (Code.ofText ("<?php\n" ++ Piece.print part.content ++ ";")).Ordered := Code.ordered_ofTokens _ _
  have hread := h.alone.read.pieces
  have hlength : (Piece.code [(TokenKind.openTag, "<?php\n".toList)]).length = 0 := rfl
  let crs := rs.filter fun r => !r.1.1.isTrivia
  have hcrs : crs.map (·.1) = Piece.code part.content := by
    rw [← hcontent, Piece.code, List.filter_map]
    rfl
  let written (q : Nat) : List TokenKind := (crs[q]?.map fun r => (Piece.code r.2).map (·.1)).getD []
  have hreaddresses : Parser.Readdresses (.ofText ("<?php\n" ++ Piece.print part.content ++ ";"))
      (items.map (ImportItem.move 1)) written 0 (Piece.code part.content).length := by
    intro q _ hq
    obtain ⟨m, hm, hindex⟩ := Code.tokenIndex_stretch hread hq
    have hpiece := List.getElem?_eq_getElem hq
    obtain ⟨hkind, -⟩ := Code.piece_at hread hpiece
    rw [hlength, Nat.zero_add] at hindex hkind
    have hm0 : (Piece.places 0 (rs.map (·.1)))[q]? = some (0 + m) := by rw [hcontent, hm, Nat.zero_add]
    have hr : crs[q]? = rs[m]? := Piece.getElem?_filter (·.1) rs hm0
    have hqcrs : q < crs.length := by rwa [← List.length_map (·.1), hcrs]
    have hsome : rs[m]? = some crs[q] := by rw [← hr, List.getElem?_eq_getElem hqcrs]
    have hwritten : written q = (Piece.code crs[q].2).map (·.1) := by
      simp only [written, List.getElem?_eq_getElem hqcrs, Option.map_some, Option.getD_some]
    have hfirst : crs[q].1 = (Piece.code part.content)[q] := by
      simp only [← hcrs, List.getElem_map]
    have hcode : (Piece.code [crs[q].1]).map (·.1) = [crs[q].1.1] := by
      have := (List.mem_filter.mp (List.getElem_mem hqcrs)).2
      rw [Piece.code_cons, if_neg (by simpa using this)]
      rfl
    rw [hwritten, hkind]
    rcases hkinds m _ hsome with hsame | ⟨item, hitem, hlead, htoken, hname⟩
    · exact .inl (by rw [hsame, hcode, hfirst]; rfl)
    · exact .inr ⟨item.move 1, List.mem_map_of_mem hitem, hlead, by rw [hindex, ← htoken]; rfl, hname⟩
  have huse := Parser.isUse_of_useStatement ho h.kwUse (by rw [h.useStatement])
    (by rw [h.useStatement]) (by rw [h.useStatement]; exact hreaddresses)
  rw [h.useStatement] at huse
  have hwritten (i : Nat) (r : Piece × List Piece) (hr : crs[i]? = some r) :
      written (0 + i) = (Piece.code r.2).map (·.1) := by
    rw [Nat.zero_add]
    simp only [written, hr, Option.map_some, Option.getD_some]
  have hall := Parser.writtenKinds_eq_flatMap hwritten
  have hlen : crs.length = (Piece.code part.content).length := by rw [← hcrs, List.length_map]
  rw [Nat.zero_add, hlen] at hall
  dsimp only at huse
  rw [hall, ← List.map_flatMap, ← hrs.code_flatMap] at huse
  have hpieces := h.pieces.recast hrs hcontent huse
  obtain ⟨part', halone, hlead, hcontent', items', hitems⟩ := hpieces.exists_isAlone h.alone.lead
  exact ⟨part', items', ⟨halone, hcontent' ▸ hpieces, hitems⟩, hlead, hcontent'⟩

end IsUse
end Part

namespace SourceFile

open Lexer (gapBefore)

variable {t : Text} {renames : Prop} {edits : List TextEdit}

theorem piece_of_token {before ps after : List Piece} (ht : pieces t = before ++ ps ++ after) {j : Nat}
    {token : Token} (hj : j < ps.length) (htoken : (parse t).tokens[before.length + j]? = some token) :
    ps[j]? = some (token.kind, token.text) := by
  have hpiece : (pieces t)[before.length + j]? = some (token.kind, token.text) := by
    rw [pieces, List.getElem?_map, ← tokens_parse, htoken]
    rfl
  rwa [ht, List.append_assoc, List.getElem?_append_right (Nat.le_add_right _ _), Nat.add_sub_cancel_left,
    List.getElem?_append_left hj] at hpiece

theorem exists_recasts {before ps after : List Piece} (ht : pieces t = before ++ ps ++ after)
    {R : Nat → List Piece → Prop}
    (h : ∀ j token, j < ps.length → (parse t).tokens[before.length + j]? = some token →
      ∃ qs, RecastAs (gapBefore false ps j) (token.kind, token.text) qs ∧
        Piece.print qs = written edits token ∧ R j qs) :
    ∃ rs, Recasts false rs ∧ rs.map (·.1) = ps ∧
      Piece.print (rs.flatMap (·.2)) = writtenSlice t edits before.length ps.length ∧
      ∀ j r, rs[j]? = some r → R j r.2 := by
  have hslice := map_tokenSlice ht
  have hpiece {j : Nat} {p : Piece} (hp : ps[j]? = some p) : ∃ token,
      (tokenSlice t before.length ps.length)[j]? = some token ∧ (token.kind, token.text) = p ∧
        (parse t).tokens[before.length + j]? = some token := by
    rw [← hslice, List.getElem?_map, Option.map_eq_some_iff] at hp
    obtain ⟨token, htoken, rfl⟩ := hp
    refine ⟨token, htoken, rfl, ?_⟩
    rw [tokenSlice, List.getElem?_take] at htoken
    split at htoken
    · rwa [List.getElem?_drop, ← tokens_parse] at htoken
    · cases htoken
  obtain ⟨rs, hrs, hps, hall⟩ := Lexer.exists_recasts
    (R := fun j qs => (∀ token, (tokenSlice t before.length ps.length)[j]? = some token →
      Piece.print qs = written edits token) ∧ R j qs) fun j p hp => by
    obtain ⟨token, hslice, rfl, htoken⟩ := hpiece hp
    obtain ⟨qs, hqs, hprint, hR⟩ := h j token (List.getElem?_eq_some_iff.mp hp).1 htoken
    refine ⟨qs, hqs, fun token' htoken' => ?_, hR⟩
    rw [← Option.some.inj (hslice.symm.trans htoken')]
    exact hprint
  refine ⟨rs, hrs, hps, ?_, fun j r hr => (hall j r hr).2⟩
  have hlength : rs.length = (tokenSlice t before.length ps.length).length := by
    rw [← List.length_map (fun token : Token => (token.kind, token.text)), hslice, ← hps, List.length_map]
  exact Piece.print_flatMap (forall₂_of_getElem? hlength fun j r token hr htoken => (hall j r hr).1 token htoken)

/-- Where nothing is imported and no name stands, at most the words of a comment change. -/
theorem exists_recastAs (hedits : (parse t).AdaptEdits renames edits) {i : Nat} {token : Token}
    (htoken : (parse t).tokens[i]? = some token)
    (hreference : ∀ s ∈ (parse t).scopes, ∀ r ∈ (parse t).references s.first s.stop, r.token ≠ i)
    (hplain : renames → ¬(parse t).ImportsAt i) (gap : Bool) :
    ∃ qs, RecastAs gap (token.kind, token.text) qs ∧ Piece.print qs = written edits token ∧
      qs.map (·.1) = [token.kind] := by
  rw [written]
  cases hnew : TextEdit.replacement? edits token.range with
  | none => exact ⟨_, .same _, List.append_nil _, rfl⟩
  | some new =>
    cases adapts_of_replacement? hedits htoken hnew with
    | reference hs hr hindex _ => exact absurd hindex (hreference _ hs _ hr)
    | comment _ _ hkind hrename =>
      have hpiece : (token.kind, token.text) ∈ pieces t := by
        rw [tokens_parse] at htoken
        exact List.mem_map_of_mem (List.mem_of_getElem? htoken)
      rw [hkind] at hpiece ⊢
      obtain ⟨c, u, hc, htext⟩ := Lexer.docComment_shape hpiece
      obtain ⟨v, hv, hreworded⟩ := Token.docEdits_reworded hc htext hrename
      refine ⟨[(.docComment, '/' :: '*' :: '*' :: c :: v)], ?_, ?_, rfl⟩
      · rw [htext]
        exact .comment hc hreworded
      · rw [Option.getD_some, hv]
        exact List.append_nil _
    | imported hrenames himports => exact absurd himports (hplain hrenames)

end SourceFile

namespace Part

variable {t : Text} {renames : Prop} {edits : List TextEdit}

theorem IsUse.first {part : Part} {items : List ImportItem} (h : part.IsUse items) : part.statement.first = 0 := by
  obtain ⟨w, rest, hcontent⟩ := h.pieces.exists_use
  obtain ⟨m, hm, hindex⟩ := Code.tokenIndex_stretch (i := 0) h.alone.read.pieces h.alone.read.pos
  rw [hcontent] at hm
  obtain rfl : m = 0 := (Option.some.inj hm).symm
  have hfirst := (StandsAlone.eq_node h.alone.read).1
  rw [Statement.first_move] at hfirst
  have := hfirst.trans hindex
  rw [List.length_singleton] at this
  omega

theorem IsUse.not_reference {part : Part} {items : List ImportItem} (h : part.IsUse items) {n : Nat}
    {l : Located} (hl : l ∈ (parse t).outline) (hstands : part.statement.move n ∈ l.statement.children)
    {i : Nat} (hle : n ≤ i) (hlt : i < n + part.content.length) :
    ∀ s ∈ (parse t).scopes, ∀ r ∈ (parse t).references s.first s.stop, r.token ≠ i := by
  rintro s hs r hr rfl
  have hfree := ((outline_everywhere [] 0 _ (SourceFile.root_referenceFree _) l hl).child hstands).here
  refine hfree _ (by rw [Statement.kind_move, h.kind]; rfl) s hs r hr ?_
  rw [Statement.first_move, Statement.stop_move, h.first, h.alone.isRead.last]
  exact ⟨hle, hlt⟩

/-- A step that renames nothing keeps what a `use` statement imports. -/
theorem IsUse.adapt {part : Part} {items : List ImportItem} (h : part.IsUse items)
    (hedits : (parse t).AdaptEdits False edits) {before after : List Piece}
    (ht : Lexer.pieces t = before ++ part.content ++ after) {l : Located} (hl : l ∈ (parse t).outline)
    (hstands : part.statement.move before.length ∈ l.statement.children) :
    ∃ part' : Part, part'.lead = part.lead ∧
      Piece.print part'.content = SourceFile.writtenSlice t edits before.length part.content.length ∧
      part'.IsUse items ∧ part'.content.map (·.1) = part.content.map (·.1) := by
  obtain ⟨rs, hrs, hcontent, hprint, hall⟩ := SourceFile.exists_recasts ht
    (R := fun j qs => ∀ p, part.content[j]? = some p → qs.map (·.1) = [p.1]) fun j token hj htoken => by
    obtain ⟨qs, hqs, hprint, hkinds⟩ := SourceFile.exists_recastAs hedits htoken
      (h.not_reference hl hstands (Nat.le_add_right _ _) (by omega)) False.elim _
    refine ⟨qs, hqs, hprint, fun p hp => ?_⟩
    obtain rfl := Option.some.inj ((SourceFile.piece_of_token ht hj htoken).symm.trans hp)
    exact hkinds
  have hsame {j : Nat} {r : Piece × List Piece} (hr : rs[j]? = some r) : ∃ w, r.2 = [(r.1.1, w)] := by
    have hkinds := hall j r hr r.1 (by rw [← hcontent, List.getElem?_map, hr]; rfl)
    obtain ⟨q, hq, hkind⟩ := List.map_eq_singleton_iff.mp hkinds
    exact ⟨q.2, by rw [hq, ← hkind]⟩
  obtain ⟨part', items', huse, hlead, hcontent'⟩ := h.recast hrs hcontent fun j r hr => by
    obtain ⟨w, hw⟩ := hsame hr
    left
    rw [hw, Piece.code_cons, Piece.code_cons]
    split <;> rfl
  obtain ⟨part'', halone, hlead', hprint', hbare⟩ := h.alone.adapt hedits ht hl hstands False.elim
  obtain rfl : part' = part'' :=
    huse.alone.eq halone (hlead.trans hlead'.symm) (by rw [hcontent', hprint, hprint'])
  obtain rfl : items' = items := by
    have hkinds := congrArg Statement.kind hbare
    rw [Statement.bare_kind, Statement.bare_kind, huse.kind, h.kind] at hkinds
    exact StatementKind.imports.inj hkinds
  refine ⟨part', hlead, hprint', huse, ?_⟩
  rw [hcontent', ← hcontent, List.map_flatMap, List.map_map, List.map_eq_flatMap]
  refine List.flatMap_congr fun r hr => ?_
  obtain ⟨j, hj⟩ := List.mem_iff_getElem?.mp hr
  obtain ⟨w, hw⟩ := hsame hj
  rw [hw]
  rfl

end Part

theorem IsSpaceName.isNameOf {u : Text} (h : IsSpaceName u) :
    Lexer.IsNameOf (Lexer.nameKind (some .kwNamespace) u) u ∧
      Lexer.nameKind (some .kwNamespace) u ∈ TokenKind.importNames := by
  have hread (last : Option TokenKind) :
      Lexer.nameKind last u = Lexer.nameKind (some .kwNamespace) u := by
    by_cases hfull : '\\' ∈ u
    · rw [Lexer.nameKind, Lexer.nameKind, if_pos hfull, if_pos hfull]
    · have hkind := h.kind
      have hplain : (some TokenKind.kwNamespace).any TokenKind.makesNextIdent = false := rfl
      rw [Lexer.nameKind, if_neg hfull, hplain, if_neg Bool.false_ne_true] at hkind
      rw [Lexer.nameKind, Lexer.nameKind, if_neg hfull, if_neg hfull, hplain, if_neg Bool.false_ne_true]
      have hnone : Word.keywordKind? u = none := by
        cases hkeyword : Word.keywordKind? u with
        | none => rfl
        | some kind =>
          have hname := Lexer.keywordKind?_isName hkeyword
          rw [hkeyword] at hkind
          rcases hkind with rfl | rfl <;> cases hname
      rw [hnone]
      exact ite_self _
  refine ⟨⟨h.isName, ?_, hread⟩, ?_⟩
  · rcases h.kind with hkind | hkind <;> rw [hkind] <;> rfl
  · rcases h.kind with hkind | hkind <;> rw [hkind] <;> decide

namespace RenameIndex

/-- An index whose new names can be written in `use` statements, where they are other ones. -/
def IsWritable (x : RenameIndex) : Prop := ∀ e ∈ x.entries, e.changes → IsSpaceName e.new.text

theorem IsWritable.hasNames {x : RenameIndex} (h : x.IsWritable) : x.HasNames :=
  fun e he hchanges => (h e he hchanges).isName

/-- A name that is imported can get its new name: it stands after a gap, and is a word if it has to become an
alias. -/
def Fits (x : RenameIndex) (gap : Bool) (item : ImportItem) : Prop :=
  ∀ new, item.groupLead? = none → x.newName? item.name item.kind = some new →
    gap ∧ (item.alias? = none → new.short ≠ lastSegment item.name → Lexer.IsWordOf (lastSegment item.name))

variable (x : RenameIndex)

/-- The new name of an import, if it gets one, and the alias that it gets with that. -/
def target? (item : ImportItem) : Option (QualifiedName × Option Text) :=
  if item.groupLead?.isSome then none
  else (x.newName? item.name item.kind).map fun new =>
    (new, if item.alias? = none ∧ new.short ≠ lastSegment item.name then some (lastSegment item.name) else none)

variable {x : RenameIndex} {item : ImportItem} {new : QualifiedName} {short? : Option Text}

theorem target?_eq_some (h : x.target? item = some (new, short?)) : item.groupLead? = none ∧
    x.newName? item.name item.kind = some new ∧
      ∀ short, short? = some short → item.alias? = none ∧ new.short ≠ short ∧ short = lastSegment item.name := by
  rw [target?] at h
  split at h
  · cases h
  · rename_i halone
    obtain ⟨new', hnew, heq⟩ := Option.map_eq_some_iff.mp h
    obtain ⟨rfl, rfl⟩ := Prod.mk.inj heq
    refine ⟨by simpa using halone, hnew, fun short hshort => ?_⟩
    split at hshort
    · rename_i halias
      obtain rfl := Option.some.inj hshort
      exact ⟨halias.1, halias.2, rfl⟩
    · cases hshort

theorem renameImport?_eq (f : SourceFile) : f.renameImport? x item = (x.target? item).map fun target =>
    ⟨f.tokenRange item.nameToken, target.1.text ++ Piece.print (ImportItem.aliasPieces target.2)⟩ := by
  rw [SourceFile.renameImport?, target?]
  split
  · rfl
  · cases x.newName? item.name item.kind with
    | none => rfl
    | some new =>
      simp only [Option.map_some, Option.bind_eq_bind, Option.bind_some, Option.some.injEq, TextEdit.mk.injEq, true_and]
      split
      · simp [ImportItem.aliasPieces]
      · rfl

end RenameIndex

namespace SourceFile

variable {t : Text} {x : RenameIndex}

/-- Code that is renamed outside of references is an imported name. -/
theorem exists_renameImport {i : Nat} {token : Token} {e : TextEdit}
    (htoken : (parse t).tokens[i]? = some token) (hkind : token.kind ≠ .docComment)
    (hreference : ∀ s ∈ (parse t).scopes, ∀ r ∈ (parse t).references s.first s.stop, r.token ≠ i)
    (he : e ∈ ((parse t).renames x).edits) (hrange : e.range = token.range) :
    ∃ s ∈ (parse t).scopes, ∃ item ∈ (parse t).scopeImports s, item.nameToken = i ∧
      (parse t).renameImport? x item = some e := by
  have hindex {j : Nat} {other : Token} (hother : (parse t).tokens[j]? = some other)
      (hsame : e.range = other.range) : j = i ∧ other = token := by
    obtain rfl : j = i := Lexer.index_eq_of_range_eq ((tokens_parse t j).symm.trans hother)
      ((tokens_parse t i).symm.trans htoken) (hsame.symm.trans hrange)
    exact ⟨rfl, Option.some.inj (hother.symm.trans htoken)⟩
  obtain ⟨_, hscope, he⟩ := List.mem_flatMap.mp he
  obtain ⟨s, hs, rfl⟩ := List.mem_map.mp hscope
  rw [renameScope, List.mem_append, List.mem_append] at he
  rcases he with (he | he) | he
  · obtain ⟨r, hr, hedit⟩ := List.mem_filterMap.mp he
    obtain ⟨_, -, rfl⟩ := Option.map_eq_some_iff.mp hedit
    obtain ⟨other, hother, -⟩ := references_token hr
    exact absurd (hindex hother (tokenRange_eq hother)).1 (hreference s hs r hr)
  · obtain ⟨item, hitem, hedit⟩ := List.mem_filterMap.mp he
    obtain ⟨other, hother, -⟩ := nameToken_inside hitem
    have hsame : e.range = (parse t).tokenRange item.nameToken := by
      rw [RenameIndex.renameImport?_eq] at hedit
      obtain ⟨_, -, rfl⟩ := Option.map_eq_some_iff.mp hedit
      rfl
    exact ⟨s, hs, item, hitem, (hindex hother (hsame.trans (tokenRange_eq hother))).1, hedit⟩
  · obtain ⟨_, hc, hedit⟩ := List.mem_filterMap.mp he
    obtain ⟨comment, hmem, rfl⟩ := List.mem_map.mp hc
    obtain ⟨hdoc, j, hj, -⟩ := mem_docComments hmem
    have hsame : e.range = comment.range := by
      rw [docEdit?_eq_some hedit]
    obtain ⟨-, rfl⟩ := hindex hj hsame
    exact absurd hdoc hkind

end SourceFile

namespace Part.IsUse

open Lexer (gapBefore)

variable {t : Text} {part : Part} {items : List ImportItem} (h : part.IsUse items)
include h

theorem exists_name {item : ImportItem} (hitem : item ∈ items) (hlead : item.groupLead? = none) :
    ∃ kind w, part.content[item.nameToken]? = some (kind, w) ∧ kind.isName := by
  obtain ⟨q, hindex, hat, -⟩ := Parser.useStatement_names h.kwUse (by rw [h.useStatement]) _
    (List.mem_map_of_mem hitem) hlead
  obtain ⟨kind, hmem, hkind⟩ := Code.exists_kind_of_isAtAny hat
  have hname : kind.isName := by
    have hall : ∀ kind ∈ TokenKind.importNames, kind.isName := by decide
    exact hall kind hmem
  have hpiece := SourceFile.kind?_tokenIndex (Code.lt_size_of_kind? hkind)
  rw [hkind, SourceFile.kind?_parse, ← hindex, h.alone.read.pieces, ImportItem.move, Nat.add_comm,
    List.append_assoc, List.singleton_append, List.getElem?_cons_succ] at hpiece
  by_cases hlt : item.nameToken < part.content.length
  · rw [List.getElem?_append_left hlt, Option.map_eq_some_iff] at hpiece
    obtain ⟨⟨kind', w⟩, hpiece, rfl⟩ := hpiece
    exact ⟨kind', w, hpiece, hname⟩
  · rw [List.getElem?_append_right (Nat.le_of_not_lt hlt)] at hpiece
    obtain ⟨p, hp, rfl⟩ := Option.map_eq_some_iff.mp hpiece
    rw [List.mem_singleton.mp (List.mem_of_getElem? hp)] at hname
    cases hname

/-- Once its names have got their new names it is a `use` statement, too. -/
theorem rename {x : RenameIndex} (hx : x.IsWritable) {before after : List Piece}
    (ht : Lexer.pieces t = before ++ part.content ++ after) {l : Located} (hl : l ∈ (parse t).outline)
    (hstands : part.statement.move before.length ∈ l.statement.children)
    (hitems : ∀ s ∈ (parse t).scopes, ∀ item ∈ (parse t).scopeImports s, before.length ≤ item.nameToken →
      item.nameToken < before.length + part.content.length → ∃ item' ∈ items, item = item'.move before.length)
    (hfits : ∀ item ∈ items, x.Fits (gapBefore false part.content item.nameToken) item) :
    ∃ (part' : Part) (items' : List ImportItem), part'.lead = part.lead ∧
      Piece.print part'.content =
        SourceFile.writtenSlice t ((parse t).renames x).edits before.length part.content.length ∧
      part'.IsUse items' := by
  have hedits := SourceFile.adaptEdits_rename hx.hasNames t
  obtain ⟨rs, hrs, hcontent, hprint, hall⟩ := SourceFile.exists_recasts ht
    (R := fun j qs => ∀ p, part.content[j]? = some p → qs.map (·.1) = [p.1] ∨
      ∃ item ∈ items, item.groupLead? = none ∧ item.nameToken = j ∧ ∃ name ∈ TokenKind.importNames,
        (Piece.code qs).map (·.1) = [name] ∨
          item.alias? = none ∧ (Piece.code qs).map (·.1) = [name, .kwAs, .ident]) fun j token hj htoken => by
    have hpiece := SourceFile.piece_of_token ht hj htoken
    have hreference := h.not_reference hl hstands (Nat.le_add_right _ j) (by omega)
    by_cases himports : (parse t).ImportsAt (before.length + j)
    swap
    · obtain ⟨qs, hqs, hprint, hkinds⟩ := SourceFile.exists_recastAs hedits htoken hreference
        (fun _ => himports) (gapBefore false part.content j)
      refine ⟨qs, hqs, hprint, fun p hp => .inl ?_⟩
      obtain rfl := Option.some.inj (hpiece.symm.trans hp)
      exact hkinds
    have hcode : token.kind ≠ .docComment := by
      obtain ⟨s, hs, item, hitem, hindex⟩ := himports
      obtain ⟨_, _, _, _, _, token', htoken', htrivia⟩ := SourceFile.imported_inside hs hitem
      rw [hindex, htoken, Option.some.injEq] at htoken'
      rintro hdoc
      rw [← htoken', hdoc] at htrivia
      cases htrivia
    rw [SourceFile.written]
    cases hnew : TextEdit.replacement? ((parse t).renames x).edits token.range with
    | none =>
      refine ⟨_, .same _, List.append_nil _, fun p hp => .inl ?_⟩
      obtain rfl := Option.some.inj (hpiece.symm.trans hp)
      rfl
    | some text =>
      obtain ⟨e, he, hrange, rfl⟩ := TextEdit.exists_of_replacement? hnew
      obtain ⟨s, hs, item, hitem, hindex, hedit⟩ := SourceFile.exists_renameImport htoken hcode hreference he hrange
      obtain ⟨item, hmem, rfl⟩ := hitems s hs item hitem (by omega) (by omega)
      obtain rfl : item.nameToken = j := Nat.add_left_cancel hindex
      rw [RenameIndex.renameImport?_eq] at hedit
      obtain ⟨⟨new, short?⟩, htarget, rfl⟩ := Option.map_eq_some_iff.mp hedit
      obtain ⟨hlead, hnew, hshort⟩ := RenameIndex.target?_eq_some htarget
      obtain ⟨entry, hentry, hchanges, rfl⟩ := RenameIndex.mem_of_newName? hnew
      obtain ⟨hname, himportable⟩ := (hx entry hentry hchanges).isNameOf
      obtain ⟨hgap, hword⟩ := hfits item hmem _ hlead hnew
      obtain ⟨kind, w, hpiece', hkind⟩ := h.exists_name hmem hlead
      obtain ⟨rfl, rfl⟩ := Prod.mk.inj (Option.some.inj (hpiece.symm.trans hpiece'))
      refine ⟨_, .name hgap hkind hname fun short heq => ?_, rfl, fun p hp => .inr ?_⟩
      · obtain ⟨halias, hne, rfl⟩ := hshort short heq
        exact hword halias hne
      · refine ⟨item, hmem, hlead, rfl, _, himportable, ?_⟩
        have hcode : (Lexer.nameKind (some .kwNamespace) entry.new.text).isTrivia = false :=
          TokenKind.isTrivia_of_isName hname.names
        rw [Piece.code_cons, hcode, if_neg Bool.false_ne_true]
        cases short? with
        | none => exact .inl rfl
        | some short => exact .inr ⟨(hshort short rfl).1, rfl⟩
  obtain ⟨part', items', huse, hlead, hcontent'⟩ := h.recast hrs hcontent fun j r hr => by
    refine (hall j r hr r.1 (by rw [← hcontent, List.getElem?_map, hr]; rfl)).imp_left fun hkinds => ?_
    obtain ⟨q, hq, hkind⟩ := List.map_eq_singleton_iff.mp hkinds
    rw [hq, Piece.code_cons, Piece.code_cons, hkind]
    split <;> simp [hkind]
  exact ⟨part', items', hlead, by rw [hcontent', hprint], huse⟩

end Part.IsUse
end NamespaceMigration
