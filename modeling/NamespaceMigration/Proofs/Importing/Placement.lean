import NamespaceMigration.Proofs.Importing.Clashes
import NamespaceMigration.Proofs.Lexing.Modes
import NamespaceMigration.Proofs.Planning.Types
import NamespaceMigration.Proofs.Rewriting.Frames
import NamespaceMigration.Proofs.Statements.Headers

/-! Where the first imports of a scope go. In a file without problems they stand where code is read, inside no
other statement and before all names that they make short, unless a tag keeps them from it: one that ends the
header of the namespace or the last of the leading directives, or one that prints before the code begins. -/
namespace NamespaceMigration

open Lexer (tokenize offsetAt modeAt)

namespace ImportChoice

/-- Every alias is in use. It is so if all of them are new. -/
def AllUsed (c : ImportChoice) : Prop := ∀ kind, ∀ e ∈ c.context.aliases.get kind, c.isUsed kind e

/-- There is no alias at all. -/
def HasNone (c : ImportChoice) : Prop := ∀ kind, c.context.aliases.get kind = []

variable {c : ImportChoice}

theorem HasNone.allUsed (h : c.HasNone) : c.AllUsed := fun kind e he => by
  rw [h kind] at he
  cases he

theorem AllUsed.markUsed (h : c.AllUsed) (short : Text) (kind : SymbolKind) : (c.markUsed short kind).AllUsed :=
  fun kind' e he => isUsed_iff.mpr (List.mem_cons_of_mem _ (isUsed_iff.mp (h kind' e he)))

theorem AllUsed.markAll (h : c.AllUsed) (es : List TextEdit) :
    (es.foldl (fun c e => c.markAlias e.text .type) c).AllUsed := by
  induction es generalizing c with
  | nil => exact h
  | cons e es ih =>
    refine ih ?_
    change (c.markAlias e.text .type).AllUsed
    rw [ImportChoice.markAlias]
    split
    · exact h.markUsed _ _
    · exact h

theorem note_aliases (c : ImportChoice) (r : Reference) : (c.note r).context.aliases = c.context.aliases := by
  rw [note]
  split
  · split <;> rfl
  · split <;> rfl

theorem HasNone.noteAll (h : c.HasNone) (rs : List Reference) : (rs.foldl ImportChoice.note c).HasNone := by
  induction rs generalizing c with
  | nil => exact h
  | cons r rs ih =>
    refine ih fun kind => ?_
    rw [note_aliases]
    exact h kind

/-- An alias that is added is in use from then on. -/
theorem AllUsed.shorten (h : c.AllUsed) (name : QualifiedName) (kind : SymbolKind) :
    (c.shorten name kind).2.AllUsed := by
  rw [ImportChoice.shorten]
  split
  · split
    · exact h.markUsed _ _
    · exact h
  · split
    · exact h
    · intro kind' e he
      refine isUsed_iff.mpr ?_
      dsimp only at he ⊢
      cases hadd : c.context.addAlias? name (c.context.allocateAlias name kind) kind with
      | none =>
        rw [hadd] at he
        exact List.mem_cons_of_mem _ (isUsed_iff.mp (h kind' e he))
      | some context =>
        obtain ⟨-, rfl⟩ := NameContext.addAlias?_eq_some_iff.mp hadd
        rw [hadd] at he
        change e ∈ (c.context.aliases.modify kind _).get kind' at he
        rw [NameContext.get_modify_append, List.mem_append] at he
        rcases he with he | he
        · exact List.mem_cons_of_mem _ (isUsed_iff.mp (h kind' e he))
        · split at he
          · rename_i hkind
            subst hkind
            obtain rfl := List.mem_singleton.mp he
            exact List.mem_cons_self
          · cases he

theorem AllUsed.shortenAll (h : c.AllUsed) (rs : List Reference) : (c.shortenAll rs).2.AllUsed := by
  induction rs generalizing c with
  | nil => exact h
  | cons r rs ih =>
    rw [shortenAll_cons]
    exact ih (h.shorten _ _)

/-- An alias is only added for a name that becomes short. -/
theorem shorten_aliases {name : QualifiedName} {kind : SymbolKind} (h : (c.shorten name kind).1 = none) :
    (c.shorten name kind).2 = c := by
  rw [ImportChoice.shorten] at h ⊢
  split
  · rename_i short hshort
    rw [hshort] at h
    dsimp only at h
    split at h <;> cases h
  · rename_i hshort
    rw [hshort] at h
    dsimp only at h ⊢
    split
    · rfl
    · rename_i hlocal
      rw [if_neg hlocal] at h
      cases h

theorem shortenAll_aliases {rs : List Reference} (h : (c.shortenAll rs).1 = []) : (c.shortenAll rs).2 = c := by
  induction rs generalizing c with
  | nil => rfl
  | cons r rs ih =>
    rw [shortenAll_cons] at h ⊢
    obtain ⟨hhead, htail⟩ := List.append_eq_nil_iff.mp h
    have hnone : (c.shorten (.ofText r.text) r.kind).1 = none := by
      simpa using hhead
    have hsame := shorten_aliases hnone
    exact (ih htail).trans hsame

theorem importBlock_ne_nil {kind : SymbolKind} {e : AliasEntry} (he : e ∈ c.context.aliases.get kind)
    (hused : c.isUsed kind e) : c.importBlock.isEmpty = false := by
  have hline : importLine kind e ∈ SymbolKind.all.flatMap c.importLines := by
    refine List.mem_flatMap.mpr ⟨kind, by cases kind <;> decide, ?_⟩
    rw [importLines]
    exact List.mem_map_of_mem (List.mem_mergeSort.mpr (List.mem_filter.mpr ⟨he, hused⟩))
  have hend : ';' ∈ importLine kind e := List.mem_append_right _ (List.mem_singleton_self _)
  rw [importBlock]
  exact List.isEmpty_eq_false_iff.mpr (List.ne_nil_of_mem (Text.mem_join_of_mem hline hend))

end ImportChoice

namespace SourceFile

variable {t : Text} {f : SourceFile} {s : Scope}

theorem aliases_context (huses : f.scopeUses s = []) (kind : SymbolKind) :
    (f.context s).aliases.get kind = [] := by
  have himports : f.scopeImports s = [] := by rw [scopeImports, huses, List.flatMap_nil]
  change (NameContext.addDefinitions (f.scopeNames s) _).aliases.get kind = []
  rw [(NameContext.addDefinitions_frame _ _).2, himports, List.foldl_nil, NameContext.empty, PerKind.get_const]

theorem importChoice_context (f : SourceFile) (s : Scope) :
    (f.importChoice s).context = (f.shortening s).2.context := (ImportChoice.markAll _ _).1

theorem notedChoice_hasNone (huses : f.scopeUses s = []) : (f.notedChoice s).HasNone :=
  ImportChoice.HasNone.noteAll (fun kind => aliases_context huses kind) _

theorem importChoice_allUsed (huses : f.scopeUses s = []) : (f.importChoice s).AllUsed :=
  ((notedChoice_hasNone huses).allUsed.shortenAll _).markAll _

/-- The third step gives the scope an alias that it did not have. -/
def AllocatesAlias (f : SourceFile) (s : Scope) : Prop :=
  ∃ kind, ∃ e ∈ (f.importChoice s).context.aliases.get kind, e ∉ (f.context s).aliases.get kind

theorem AllocatesAlias.shortening (h : f.AllocatesAlias s) (huses : f.scopeUses s = []) :
    (f.shortening s).1 ≠ [] := by
  intro hnone
  obtain ⟨kind, e, he, -⟩ := h
  rw [importChoice_context, SourceFile.shortening, ImportChoice.shortenAll_aliases hnone,
    notedChoice_hasNone huses kind] at he
  cases he

/-- The edit that inserts the first imports of a scope after an anchor. -/
def firstImportsEdit (f : SourceFile) (s : Scope) (anchor : Nat) : TextEdit :=
  .insert (f.tokenRange anchor).stop (f.firstImports anchor (f.importChoice s).importBlock)

theorem firstImportsEdit_mem (huses : f.scopeUses s = []) (h : f.AllocatesAlias s) {anchor : Nat}
    (hanchor : f.importAnchor? s = some anchor) : f.firstImportsEdit s anchor ∈ f.importScope s := by
  obtain ⟨kind, e, he, hnew⟩ := h
  have hchanged :
      (AliasDiff.between (f.context s).aliases (f.importChoice s).context.aliases).isEmpty = false := by
    refine Bool.eq_false_iff.mpr fun hempty => ?_
    have hkind := List.all_eq_true.mp hempty kind (by cases kind <;> decide)
    rw [Bool.and_eq_true, AliasDiff.between, PerKind.get_ofFn, aliases_context huses kind] at hkind
    have hadded := List.filter_eq_nil_iff.mp (List.isEmpty_iff.mp hkind.1) e he
    exact hadded rfl
  have hblock := ImportChoice.importBlock_ne_nil he (importChoice_allUsed huses kind e he)
  rw [importScope_eq, hchanged, Bool.not_false, Bool.true_or, if_pos rfl, placeImports, huses, List.map_nil]
  dsimp only
  rw [hblock, if_neg Bool.false_ne_true, hanchor]
  exact List.mem_append_right _ (List.mem_singleton_self _)

/-- Where the first imports of a scope may go, in a file without problems: no tag ends the header of the
namespace, or the last of the leading directives, and these hold no name in full; in a file without either, no
tag that prints comes before the code. -/
def HasImportPlace (f : SourceFile) (s : Scope) : Prop :=
  let home := s.home.statement
  match home.kind with
  | .space _ token? _ => (f.next? (token?.getD home.first)).bind f.kind? ≠ some .closeTag
  | _ =>
    match f.leadingDirective? with
    | some directive => f.kind? (directive.stop - 1) ≠ some .closeTag ∧
        ∀ i < directive.stop, f.kind? i ≠ some .nameFullyQualified
    | none => ∀ i, f.kind? i = some .openTagEcho → ∃ j < i, f.kind? j = some .openTag

/-- A token of a scope after which imports work: no statement of the scope goes on there, all names in full come
later, and if there are any then the text between is read as code. -/
structure TakesImports (t : Text) (s : Scope) (anchor : Nat) : Prop where
  first : s.first ≤ anchor
  stop : anchor < s.stop
  apart : ∀ child ∈ s.home.statement.children, child.stop ≤ anchor + 1 ∨ anchor + 1 ≤ child.first
  before : ∀ i, s.first ≤ i → i < s.stop → (parse t).kind? i = some .nameFullyQualified → anchor < i
  code : ∀ i, anchor < i → (parse t).kind? i = some .nameFullyQualified → modeAt t (anchor + 1) = .code

theorem isCode_of_kind? {i : Nat} {kind : TokenKind} (h : f.kind? i = some kind) (hkind : kind.isTrivia = false) :
    f.isCode i := by
  rw [isCode, h, Option.any_some, hkind]
  rfl

theorem kind?_eq_some {i : Nat} {kind : TokenKind} (h : (parse t).kind? i = some kind) :
    ∃ token, (tokenize t)[i]? = some token ∧ token.kind = kind := by
  rw [kind?, tokens_parse] at h
  exact Option.map_eq_some_iff.mp h

theorem not_isCode_between {q i : Nat} (hq : q + 1 < (Code.ofText t).size) (h : (Code.ofText t).tokenIndex q < i)
    (h' : i < (Code.ofText t).tokenIndex (q + 1)) : ¬(parse t).isCode i := by
  have ho : (Code.ofText t).Ordered := Code.ordered_ofTokens _ _
  intro hcode
  obtain ⟨q', hq', rfl⟩ := exists_position hcode
  have hlt := (ho.tokenIndex_lt_iff (by omega) hq').mp h
  have hlt' := (ho.tokenIndex_lt_iff hq' hq).mp h'
  omega

theorem isCode_tokenIndex {q : Nat} (hq : q < (Code.ofText t).size) :
    (parse t).isCode ((Code.ofText t).tokenIndex q) := by
  obtain ⟨token, htoken, htrivia⟩ := Code.exists_token hq
  have htoken' : (parse t).tokens[(Code.ofText t).tokenIndex q]? = some token := htoken
  exact isCode_of_kind? (by rw [kind?, htoken']; rfl) htrivia

theorem next?_tokenIndex {q : Nat} (hq : q + 1 < (Code.ofText t).size) :
    (parse t).next? ((Code.ofText t).tokenIndex q) = some ((Code.ofText t).tokenIndex (q + 1)) := by
  have ho : (Code.ofText t).Ordered := Code.ordered_ofTokens _ _
  have hlt := ho.index q (q + 1) (Nat.lt_succ_self q) hq
  have hbound : (Code.ofText t).tokenIndex (q + 1) < (parse t).tokens.size := ho.bound (q + 1) hq
  rw [next?, List.find?_range'_eq_some]
  refine ⟨isCode_tokenIndex hq, ?_, fun i hi hi' => ?_⟩
  · rw [List.mem_range'_1]
    omega
  · simpa using not_isCode_between hq hi hi'

/-- The scope is the whole file, or a namespace statement of it. -/
theorem home_cases (hs : s ∈ f.scopes) : (s.home = ⟨0, f.root, []⟩ ∧ s.first = 0 ∧ s.stop = f.tokens.size) ∨
    (s.home.statement ∈ f.root.children ∧ s.first = s.home.statement.first ∧ s.stop = s.home.statement.stop ∧
      ∃ name? token? braced, s.home.statement.kind = .space name? token? braced) := by
  rw [scopes_eq] at hs
  split at hs
  · obtain rfl := List.mem_singleton.mp hs
    exact Or.inl ⟨rfl, rfl, rfl⟩
  · obtain ⟨l, hl, hscope⟩ := List.mem_filterMap.mp hs
    have hhome : s.home = l := by
      rw [Located.scope?] at hscope
      split at hscope
      · cases hscope
        rfl
      · cases hscope
    subst hhome
    refine Or.inr ⟨?_, Located.scope?_eq_some hscope⟩
    rw [← outline_top]
    exact List.mem_map_of_mem hl

theorem modeAt_of_later {i j : Nat} {kind : TokenKind} (hkind : (parse t).kind? j = some kind)
    (hcode : kind.isOutside = false ∧ kind ≠ .closeTag) (hfull : (parse t).kind? i = some .nameFullyQualified)
    (hlt : j < i) : modeAt t (j + 1) = .code := by
  obtain ⟨token, htoken, rfl⟩ := kind?_eq_some hkind
  obtain ⟨later, hlater, hlater'⟩ := kind?_eq_some hfull
  exact Lexer.modeAt_between htoken hcode.1 hcode.2 hlater (by rw [hlater']; rfl) hlt

/-- The end of the header of a namespace takes the first imports, if it is no tag. -/
theorem takesImports_space (herrors : (parse t).errors = []) {name? : Option Text} {token? : Option Nat}
    {braced : Bool} (hmem : s.home.statement ∈ (parse t).root.children)
    (hkind : s.home.statement.kind = .space name? token? braced) (hfirst : s.first = s.home.statement.first)
    (hstop : s.stop = s.home.statement.stop) (hplace : (parse t).HasImportPlace s) :
    ∃ anchor, (parse t).importAnchor? s = some anchor ∧ TakesImports t s anchor := by
  have ho : (Code.ofText t).Ordered := Code.ordered_ofTokens _ _
  obtain ⟨p, hp, hhome, hnone⟩ := Parser.topStatements_faultless ho (topErrors herrors) hmem
  obtain ⟨q, hheader, htoken⟩ := Parser.topItem_header ho hp (hhome ▸ hkind) hnone
  rw [← hhome] at hheader htoken
  have hsize := hheader.size
  have hlt := ho.index q (q + 1) (Nat.lt_succ_self q) hsize
  -- The token that ends the header is a brace or a semicolon.
  have hend : (Code.ofText t).isAtAny [.semicolon, .leftBrace] (q + 1) := by
    refine hheader.end_cases.resolve_right fun hclose => ?_
    rw [HasImportPlace, hkind] at hplace
    dsimp only at hplace
    rw [htoken, next?_tokenIndex hsize] at hplace
    exact hplace ((kind?_tokenIndex hsize).trans hclose)
  obtain ⟨kind, hstops, hkind'⟩ := Code.exists_kind_of_isAtAny hend
  have hanchor : (parse t).importAnchor? s = some ((Code.ofText t).tokenIndex (q + 1)) := by
    rw [importAnchor?, hkind]
    dsimp only
    rw [htoken, findToken?, List.find?_range'_eq_some]
    refine ⟨?_, ?_, fun i hi hi' => ?_⟩
    · rw [kind?_tokenIndex hsize]
      exact hend
    · have hinside := hheader.inside
      rw [List.mem_range'_1]
      omega
    · -- No brace and no semicolon comes before.
      rw [Bool.not_eq_true', Bool.eq_false_iff]
      intro hany
      obtain ⟨other, hother, hmem'⟩ := (Option.any_eq_true _ _).mp hany
      by_cases heq : i = (Code.ofText t).tokenIndex q
      · obtain ⟨inner, hinner, hcases⟩ := hheader.kind_of_le hheader.le (Nat.le_refl q)
        rw [heq, kind?_tokenIndex (by omega), hinner] at hother
        obtain rfl := Option.some.inj hother
        rcases hcases with rfl | rfl | rfl <;> cases hmem'
      · refine not_isCode_between hsize (by omega) hi' (isCode_of_kind? hother ?_)
        rcases List.mem_cons.mp (List.contains_iff_mem.mp hmem') with rfl | hmem'
        · rfl
        · rw [List.mem_singleton.mp hmem']
          rfl
  have hle : s.first ≤ (Code.ofText t).tokenIndex (q + 1) := by
    rw [hfirst, hheader.first]
    exact (ho.tokenIndex_le_iff hp hsize).mpr (Nat.le_succ_of_le hheader.le)
  refine ⟨_, hanchor, hle, ?_, fun child hchild => .inr (hheader.children child hchild), ?_, ?_⟩
  · rw [hstop]
    exact hheader.inside
  · intro i hi hi' hfull
    obtain ⟨j, hj, rfl⟩ := exists_position (isCode_of_kind? hfull rfl)
    rw [hfirst, hheader.first, ho.tokenIndex_le_iff hp hj] at hi
    rw [kind?_tokenIndex hj] at hfull
    exact ho.index _ _ (hheader.lt_of_full hi hfull) hj
  · intro i hi hfull
    refine modeAt_of_later ((kind?_tokenIndex hsize).trans hkind') ?_ hfull hi
    rcases List.mem_cons.mp hstops with rfl | hstops
    · exact ⟨rfl, nofun⟩
    · rw [List.mem_singleton.mp hstops]
      exact ⟨rfl, nofun⟩

theorem leadingDirective?_eq_some {d : Statement} (h : f.leadingDirective? = some d) :
    d ∈ f.root.children ∧ ∃ ds, d.kind = .declare ds false := by
  rw [leadingDirective?] at h
  obtain ⟨hstart, hdeclare⟩ := List.mem_filter.mp (List.mem_of_getLast? h)
  have hleads := List.mem_takeWhile_imp hstart
  refine ⟨(List.takeWhile_sublist _).subset hstart, ?_⟩
  split at hdeclare
  · rename_i ds braced hkind
    rw [hkind] at hleads
    cases braced
    · exact ⟨ds, hkind⟩
    · cases hleads
  · cases hdeclare

variable (hroot : s.home = ⟨0, (parse t).root, []⟩) (hfirst : s.first = 0) (hstop : s.stop = (parse t).tokens.size)
include hroot hfirst hstop

/-- The last of the leading directives takes the first imports, if it does not end at a tag and holds no names in
full. -/
theorem takesImports_directive (herrors : (parse t).errors = []) {d : Statement}
    (hd : (parse t).leadingDirective? = some d) (hclose : (parse t).kind? (d.stop - 1) ≠ some .closeTag)
    (hfull : ∀ i < d.stop, (parse t).kind? i ≠ some .nameFullyQualified) :
    ∃ anchor, (parse t).importAnchor? s = some anchor ∧ TakesImports t s anchor := by
  have ho : (Code.ofText t).Ordered := Code.ordered_ofTokens _ _
  obtain ⟨hmem, ds, hkind⟩ := leadingDirective?_eq_some hd
  obtain ⟨p, hp, hdirective, hnone⟩ := Parser.topStatements_faultless ho (topErrors herrors) hmem
  have hend := Parser.topItem_directive (hdirective ▸ hkind) hnone
  have hcovers := Parser.topItem_covers ho hp
  rw [← hdirective] at hcovers
  have hspan := hcovers.first_lt_stop ho
  have hlast : d.stop - 1 = (Code.ofText t).tokenIndex ((Parser.topItem (Code.ofText t) p).next - 1) := by
    rw [hcovers.stop]
    rfl
  have hlt := hcovers.lt
  have hle := hcovers.le
  have hbound := ho.bound ((Parser.topItem (Code.ofText t) p).next - 1) (by omega)
  have hanchor : (parse t).importAnchor? s = some (d.stop - 1) := by
    rw [importAnchor?, hroot, hd]
    rfl
  refine ⟨_, hanchor, by omega, ?_, fun child hchild => ?_, fun i _ _ hi => ?_, fun i hi hname => ?_⟩
  · rw [hstop, hlast]
    exact hbound
  · rw [hroot] at hchild
    rcases eq_or_of_pairwise (children_apart (parse t).root_mem_outline) hchild hmem with rfl | hle | hle <;> omega
  · by_contra hno
    exact hfull i (by omega) hi
  · rcases hend with ⟨q, hnext, hterminator⟩ | hnext
    · have hat : d.stop - 1 = (Code.ofText t).tokenIndex q := by rw [hlast, hnext, Nat.add_sub_cancel]
      obtain ⟨kind, hmem', hkind'⟩ := Code.exists_kind_of_isAtAny hterminator
      rw [← kind?_tokenIndex (by omega), ← hat] at hkind'
      refine modeAt_of_later hkind' ?_ hname hi
      rcases List.mem_cons.mp hmem' with rfl | hmem'
      · exact ⟨rfl, nofun⟩
      · rw [List.mem_singleton.mp hmem'] at hkind'
        exact absurd hkind' hclose
    · -- Nothing comes after a directive at the end of the file.
      obtain ⟨j, hj, rfl⟩ := exists_position (isCode_of_kind? hname rfl)
      rw [hlast] at hi
      have hlater := (ho.tokenIndex_lt_iff (by omega) hj).mp hi
      omega

/-- The tag that starts the code takes the first imports, if no tag that prints comes before. -/
theorem takesImports_openTag (hnone : (parse t).leadingDirective? = none)
    (hecho : ∀ i, (parse t).kind? i = some .openTagEcho → ∃ j < i, (parse t).kind? j = some .openTag) {i : Nat}
    (hi : (parse t).kind? i = some .nameFullyQualified) :
    ∃ anchor, (parse t).importAnchor? s = some anchor ∧ TakesImports t s anchor := by
  have ho : (Code.ofText t).Ordered := Code.ordered_ofTokens _ _
  -- Up to the first such tag there is text, and nothing else.
  have hhtml {n : Nat} (hn : ∀ k < n, (parse t).kind? k ≠ some .openTag) : modeAt t n = .html := by
    refine Lexer.modeAt_html fun k hk token htoken => ?_
    have hkind : (parse t).kind? k = some token.kind := by rw [kind?, tokens_parse, htoken]; rfl
    refine ⟨fun hopen => hn k hk (hopen ▸ hkind), fun hopen => ?_⟩
    obtain ⟨j, hj, hopen'⟩ := hecho k (hopen ▸ hkind)
    exact hn j (by omega) hopen'
  have hfull {k : Nat} (hk : (parse t).kind? k = some .nameFullyQualified) :
      ∃ j < k, (parse t).kind? j = some .openTag := by
    by_contra hno
    obtain ⟨token, htoken, hkind⟩ := kind?_eq_some hk
    have houtside := Lexer.isOutside_of_modeAt htoken (hhtml fun j hj hopen => hno ⟨j, hj, hopen⟩)
    rw [hkind] at houtside
    cases houtside
  obtain ⟨j, -, hopen⟩ := hfull hi
  have hbound : j < (parse t).tokens.size := by
    obtain ⟨token, htoken, -⟩ := kind?_eq_some hopen
    exact (List.getElem?_eq_some_iff.mp htoken).1
  obtain ⟨anchor, hfind⟩ : ∃ anchor, (parse t).findToken? [.openTag] 0 (parse t).tokens.size = some anchor := by
    rw [← Option.isSome_iff_exists, findToken?, List.find?_isSome]
    exact ⟨j, List.mem_range'_1.mpr (by omega), by rw [hopen]; rfl⟩
  have hanchor : (parse t).importAnchor? s = some anchor := by
    rw [importAnchor?, hroot, hnone]
    exact hfind
  rw [findToken?, List.find?_range'_eq_some] at hfind
  obtain ⟨htag, hinside, hbefore⟩ := hfind
  have htag : (parse t).kind? anchor = some .openTag := by
    obtain ⟨kind, hkind, hmem⟩ := (Option.any_eq_true _ _).mp htag
    rw [hkind, List.mem_singleton.mp (List.contains_iff_mem.mp hmem)]
  have hfirstTag : ∀ k < anchor, (parse t).kind? k ≠ some .openTag := by
    intro k hk hopen'
    have hno := hbefore k (Nat.zero_le k) hk
    rw [hopen'] at hno
    cases hno
  refine ⟨anchor, hanchor, by omega, ?_, fun child hchild => ?_, fun k _ _ hk => ?_, fun _ _ _ => ?_⟩
  · rw [List.mem_range'_1] at hinside
    omega
  · -- A statement in front of the tag is text, which ends before it.
    rw [hroot] at hchild
    obtain ⟨p, hp, rfl⟩ := Parser.mem_topStatements ho hchild
    have hcovers := Parser.topItem_covers ho hp
    rw [hcovers.first]
    by_cases hlt : (Code.ofText t).tokenIndex p < anchor
    · refine .inl ?_
      have hmode := hhtml fun k (hk : k < (Code.ofText t).tokenIndex p) => hfirstTag k (by omega)
      obtain ⟨token, htoken, -⟩ := Code.exists_token hp
      have htoken' : (tokenize t)[(Code.ofText t).tokenIndex p]? = some token := by
        rw [← tokens_parse]
        exact htoken
      have hkind : (parse t).kind? ((Code.ofText t).tokenIndex p) = some token.kind := by
        rw [kind?, tokens_parse, htoken']
        rfl
      have hhtmlKind := Lexer.kind_of_modeAt_html htoken' hmode
        (fun hopen' => hfirstTag _ hlt (hopen' ▸ hkind)) fun hopen' => by
          obtain ⟨k, hk, hopen''⟩ := hecho _ (hopen' ▸ hkind)
          exact hfirstTag k (by omega) hopen''
      rw [hhtmlKind, kind?_tokenIndex hp] at hkind
      rw [hcovers.stop, Parser.topItem_inlineHtml hkind]
      exact Nat.le_of_lt (Nat.succ_lt_succ hlt)
    · refine .inr ?_
      have hne : (Code.ofText t).tokenIndex p ≠ anchor := by
        intro heq
        have hcode := isCode_tokenIndex hp
        rw [isCode, heq, htag] at hcode
        cases hcode
      omega
  · obtain ⟨j', hj', hopen'⟩ := hfull hk
    have hle : ¬j' < anchor := fun hlt => hfirstTag j' hlt hopen'
    omega
  · obtain ⟨token, htoken, hkind⟩ := kind?_eq_some htag
    obtain ⟨rest, -, hnext⟩ := Lexer.scan_at htoken
    rw [hnext, hkind]
    exact Lexer.State.next_openTag (hhtml hfirstTag)

omit hroot hfirst hstop in
/-- In a file without problems an anchor is found, if no tag keeps it away. -/
theorem exists_takesImports (herrors : (parse t).errors = []) (hs : s ∈ (parse t).scopes)
    (hplace : (parse t).HasImportPlace s) {i : Nat} (hi : (parse t).kind? i = some .nameFullyQualified) :
    ∃ anchor, (parse t).importAnchor? s = some anchor ∧ TakesImports t s anchor := by
  rcases home_cases hs with ⟨hroot, hfirst, hstop⟩ | ⟨hmem, hfirst, hstop, name?, token?, braced, hkind⟩
  · have hfile := hplace
    rw [HasImportPlace, hroot] at hfile
    change (match (parse t).leadingDirective? with
      | some directive => _
      | none => _) at hfile
    cases hd : (parse t).leadingDirective? with
    | some d =>
      rw [hd] at hfile
      exact takesImports_directive hroot hfirst hstop herrors hd hfile.1 hfile.2
    | none =>
      rw [hd] at hfile
      exact takesImports_openTag hroot hfirst hstop hd hfile hi
  · exact takesImports_space herrors hmem hkind hfirst hstop hplace

omit hroot hfirst hstop

/-- What is inside a statement is in one of those directly inside it. -/
theorem exists_child {home : Located} (hhome : home ∈ (parse t).outline) {l : Located}
    (hl : l ∈ (parse t).outline) (h : l.isInside home.number) : ∃ child ∈ home.statement.children,
      child.first ≤ l.statement.first ∧ l.statement.stop ≤ child.stop := by
  have hrooted := rooted hl
  obtain ⟨number, statement, above⟩ := l
  induction above generalizing number statement with
  | nil => cases h
  | cons level outer ih =>
    have hparent := (hrooted level outer (List.suffix_refl _)).1
    have hchild : statement ∈ level.statement.children := by
      rw [← outline_inside _ _ hparent]
      exact List.mem_map_of_mem (List.mem_filter.mpr ⟨hl, by simp [Located.parent?]⟩)
    rw [Located.isInside, List.any_cons, Bool.or_eq_true, beq_iff_eq] at h
    rcases h with hhere | hout
    · obtain rfl := eq_of_number hhome hparent hhere.symm
      exact ⟨statement, hchild, Nat.le_refl _, Nat.le_refl _⟩
    · obtain ⟨child, hchild', hfirst, hstop⟩ := ih level.number level.statement hparent hout (rooted hparent)
      obtain ⟨hfirst', hstop'⟩ := inside_parent hparent statement hchild
      exact ⟨child, hchild', Nat.le_trans hfirst hfirst', Nat.le_trans hstop' hstop⟩

theorem shortening_full {r : Reference} {short : Text} (h : (r, short) ∈ ((parse t).shortening s).1) :
    s.first ≤ r.token ∧ r.token < s.stop ∧ (parse t).kind? r.token = some .nameFullyQualified := by
  have hmem := (shortenAll_sublist _ _).subset (List.mem_map_of_mem (f := Prod.fst) h)
  obtain ⟨hr, hfull⟩ := List.mem_filter.mp hmem
  obtain ⟨token, htoken, hname, htext, hfirst, hstop, -⟩ := references_token hr
  have hkind : (parse t).kind? r.token = some token.kind := by rw [kind?, htoken]; rfl
  refine ⟨hfirst, hstop, ?_⟩
  rw [tokens_parse] at htoken
  have hshape := Lexer.pieces_shape (List.mem_map_of_mem (List.mem_of_getElem? htoken))
  by_contra hne
  have hplain := hshape.isName hname fun heq => hne (heq ▸ hkind)
  rw [← htext] at hfull
  exact hplain.isSpace.head (by simpa [isWrittenInFull] using hfull)

theorem firstImportsEdit_range (s : Scope) (anchor : Nat) :
    ((parse t).firstImportsEdit s anchor).range = ⟨offsetAt t (anchor + 1), offsetAt t (anchor + 1)⟩ := by
  rw [firstImportsEdit, TextEdit.insert, tokenRange_parse]
  rfl

/-- No other edit of the third step touches the place of first imports. -/
theorem TakesImports.edits_apart {anchor : Nat} (h : TakesImports t s anchor) (hs : s ∈ (parse t).scopes)
    (huses : (parse t).scopeUses s = []) :
    ∀ e ∈ (parse t).importEdits, ((parse t).firstImportsEdit s anchor).Apart e := by
  have hhere : ((parse t).firstImportsEdit s anchor).IsWithin t (anchor + 1) (anchor + 1) :=
    TextEdit.isWithin_of_stretch (firstImportsEdit_range s anchor)
  have hstretch {e : TextEdit} {a b : Nat} (he : e.IsWithin t a b) (hout : b ≤ anchor + 1 ∨ anchor + 1 ≤ a) :
      ((parse t).firstImportsEdit s anchor).Apart e := by
    rcases hout with hle | hle
    · exact (he.apart hhere hle).symm
    · exact hhere.apart he hle
  intro e he
  obtain ⟨s', hs', he⟩ := List.mem_flatMap.mp he
  obtain ⟨imports, hscope, himports⟩ := (parse t).importScope_parts s'
  rw [hscope, List.mem_append, List.mem_append] at he
  rcases he with (he | he) | he
  · obtain ⟨i, hi, -⟩ := ((parse t).codeEdits_shortening s').token he
    exact hstretch hi.within (by omega)
  · obtain ⟨i, hi, -⟩ := docTokenEdits_token he
    exact hstretch hi.within (by omega)
  · obtain ⟨block, he⟩ := himports e he
    rcases mem_placeImports he with ⟨l, hl, hrange⟩ | ⟨-, anchor', -, hrange⟩
    · -- Imports are replaced in other scopes only.
      have hne : s' ≠ s := by
        rintro rfl
        rw [huses] at hl
        cases hl
      obtain ⟨hmem, hparent⟩ := List.mem_filter.mp hl
      rw [Bool.and_eq_true, beq_iff_eq] at hparent
      have hchild : l.statement ∈ s'.home.statement.children := by
        rw [← outline_inside _ _ (home_mem_outline hs')]
        exact List.mem_map_of_mem (List.mem_filter.mpr ⟨hmem, by simpa using hparent.1⟩)
      obtain ⟨hfirst, hstop⟩ := inside_parent (home_mem_outline hs') _ hchild
      obtain ⟨hhome, hhome'⟩ := home_span hs' ⟨rfl, rfl⟩
      have hscopes := (eq_or_of_pairwise (scopes_pairwise t) hs hs').resolve_left hne.symm
      have hanchor := h.first
      have hanchor' := h.stop
      exact hstretch (useEdit_within hl hrange) (by omega)
    · rw [tokenRange_parse] at hrange
      rw [TextEdit.Apart, firstImportsEdit_range, hrange]
      exact Nat.le_total _ _

/-- In a file without problems, the first imports of a scope are inserted where they work: where code is read,
inside no other statement of the scope, and before all names that became short. Only a tag can keep them from it:
one that ends the header of the namespace or the last of the leading directives, or one that prints before the
code begins. -/
theorem first_imports_work (herrors : (parse t).errors = []) (hs : s ∈ (parse t).scopes)
    (huses : (parse t).scopeUses s = []) (halias : (parse t).AllocatesAlias s)
    (hplace : (parse t).HasImportPlace s) : ∃ anchor, (parse t).importAnchor? s = some anchor ∧
      let e := (parse t).firstImportsEdit s anchor
      (∃ made dropped, (made ++ dropped).Perm (parse t).importEdits ∧ e ∈ made ∧
        Replaces 0 made t (Adaptation.reimport t)) ∧
      modeAt t (anchor + 1) = .code ∧
      (∀ l ∈ (parse t).outline, l.isInside s.home.number →
        ((parse t).range l.statement).stop ≤ e.range.start ∨ e.range.stop ≤ ((parse t).range l.statement).start) ∧
      ∀ r short, (r, short) ∈ ((parse t).shortening s).1 → e.range.stop ≤ ((parse t).tokenRange r.token).start := by
  obtain ⟨⟨r, short⟩, hr⟩ := List.exists_mem_of_ne_nil _ (halias.shortening huses)
  obtain ⟨hfirst, hstop, hfull⟩ := shortening_full hr
  obtain ⟨anchor, hanchor, htakes⟩ := exists_takesImports herrors hs hplace hfull
  refine ⟨anchor, hanchor, ?_, htakes.code _ (htakes.before _ hfirst hstop hfull) hfull, fun l hl hinside => ?_,
    fun r short hr => ?_⟩
  · have hmem : (parse t).firstImportsEdit s anchor ∈ (parse t).importEdits :=
      List.mem_flatMap.mpr ⟨s, hs, firstImportsEdit_mem huses halias hanchor⟩
    have hapart := htakes.edits_apart hs huses
    have hlies : ∀ e ∈ (parse t).importEdits, e.LiesIn t := by
      intro e he
      obtain ⟨s', hs', he⟩ := List.mem_flatMap.mp he
      exact ((importScope_cases hs').1 e he).1
    have hpairwise : (parse t).importEdits.Pairwise fun a b => a = (parse t).firstImportsEdit s anchor ∨
        b = (parse t).firstImportsEdit s anchor → a.Apart b := by
      refine List.pairwise_of_forall_mem_list fun e he e' he' h => ?_
      rcases h with rfl | rfl
      · exact hapart e' he'
      · exact (hapart e he).symm
    obtain ⟨made, dropped, hperm, hdropped, hreplaces⟩ :=
      TextEdit.applyAll_replaces (P := (· = (parse t).firstImportsEdit s anchor)) hlies hpairwise
    refine ⟨made, dropped, hperm, ?_, hreplaces⟩
    rcases List.mem_append.mp (hperm.symm.subset hmem) with h | h
    · exact h
    · exact absurd rfl (hdropped _ h)
  · obtain ⟨child, hchild, hle, hle'⟩ := exists_child (home_mem_outline hs) hl hinside
    have htail : l ∈ (parse t).outline.tail := by
      refine (mem_outline_cases hl).resolve_left ?_
      rintro rfl
      cases hinside
    obtain ⟨_, _, hplaced⟩ := exists_placed htail
    rw [range_parse (hplaced.covers.first_lt_stop (Code.ordered_ofTokens _ _)), firstImportsEdit_range]
    rcases htakes.apart child hchild with h | h
    · exact Or.inl (Lexer.offsetAt_mono t (by omega))
    · exact Or.inr (Lexer.offsetAt_mono t (by omega))
  · obtain ⟨hfirst, hstop, hfull⟩ := shortening_full hr
    rw [firstImportsEdit_range, tokenRange_parse]
    exact Lexer.offsetAt_mono t (htakes.before _ hfirst hstop hfull)

theorem borrowed_hasImportPlace : (parse borrowed).HasImportPlace borrowedScope := by
  have hkind : borrowedScope.home.statement.kind = .space (some "A") (some 3) false := by decide +kernel
  rw [HasImportPlace, hkind]
  decide +kernel

theorem borrowed_first_imports : (parse borrowed).errors = [] ∧
    ∃ anchor, (parse borrowed).importAnchor? borrowedScope = some anchor ∧ modeAt borrowed (anchor + 1) = .code := by
  let e : AliasEntry := ⟨"C", ⟨"B\\C"⟩⟩
  obtain ⟨herrors, huses, halias⟩ : (parse borrowed).errors = [] ∧ (parse borrowed).scopeUses borrowedScope = [] ∧
      e ∈ ((parse borrowed).importChoice borrowedScope).context.aliases.get .type ∧
        e ∉ ((parse borrowed).context borrowedScope).aliases.get .type := by decide +kernel
  obtain ⟨anchor, hanchor, -, hcode, -⟩ := first_imports_work herrors (s := borrowedScope) (List.get_mem _ _) huses
    ⟨.type, e, halias⟩ borrowed_hasImportPlace
  exact ⟨herrors, anchor, hanchor, hcode⟩

end SourceFile
end NamespaceMigration
