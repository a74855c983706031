import NamespaceMigration.Proofs.Importing.Choice
import NamespaceMigration.Proofs.Statements.Names

/-! Names keep their meaning when they become short. Under the imports that are printed at the end
every short name that was chosen stands for the name in full that it replaces, and every name that
was short before means what it meant. -/
namespace NamespaceMigration

namespace ImportChoice

variable {start : NameContext} {c : ImportChoice}

/-- A short name that exists is an alias of the name, or no alias at all and in its namespace. -/
theorem Sound.existingShort?_cases (h : c.Sound start) {name : QualifiedName} {kind : SymbolKind}
    {short : Text} (hs : c.context.existingShort? name kind = some short) :
    (∃ e ∈ c.context.aliases.get kind, e.alias = short ∧ start.Stands short kind name (some e)) ∨
      (¬c.context.hasAlias short kind ∧ '\\' ∉ short ∧ start.Stands short kind name none) := by
  have hdefines : c.context.defines = start.defines := by
    funext short kind
    rw [NameContext.defines, NameContext.defines, h.definitions]
  rw [NameContext.existingShort?] at hs
  cases hfor : c.context.aliasFor? name kind with
  | some short' =>
    rw [hfor] at hs
    obtain rfl : short' = short := Option.some.inj hs
    rw [NameContext.aliasFor?] at hfor
    split at hfor
    · rename_i hown
      rw [Bool.and_eq_true, h.space] at hown
      obtain rfl : name.short = short' := Option.some.inj hfor
      right
      refine ⟨fun halias => ?_, name.short_not_mem, rfl, hown.1, ?_⟩
      · obtain ⟨e, he, hkey⟩ := NameContext.hasAlias_iff.mp halias
        refine h.undefined kind e he ?_
        rw [NameContext.defines_iff]
        rw [NameContext.defines_iff] at hown
        rw [hkey]
        exact hown.2
      · exact Or.inr (Or.inr (hdefines ▸ hown.2))
    · obtain ⟨e, he, rfl⟩ := Option.map_eq_some_iff.mp hfor
      have hkey : e.target.key kind = name.key kind := by simpa using List.find?_some he
      exact Or.inl ⟨e, List.mem_of_find?_eq_some he, rfl, hkey⟩
  | none =>
    rw [hfor] at hs
    dsimp only at hs
    split at hs
    · rename_i hown
      rw [Bool.and_eq_true, Bool.and_eq_true, h.space] at hown
      obtain ⟨⟨hfree, hsame⟩, hown⟩ := hown
      obtain rfl : name.short = short := Option.some.inj hs
      right
      refine ⟨fun halias => ?_, name.short_not_mem, rfl, hsame, ?_⟩
      · -- An alias of this name would have been found before.
        obtain ⟨e, he⟩ := Option.isSome_iff_exists.mp halias
        rw [he, Option.all_some] at hfree
        rw [NameContext.aliasFor?] at hfor
        split at hfor
        · cases hfor
        · rw [Option.map_eq_none_iff] at hfor
          have := List.find?_eq_none.mp hfor e (List.mem_of_find?_eq_some he)
          exact this hfree
      · rw [Bool.or_eq_true, Bool.or_eq_true, hdefines] at hown
        rcases hown with (hown | hown) | hown
        · exact Or.inl (by simpa using hown)
        · exact Or.inr (Or.inl (by simpa using hown))
        · exact Or.inr (Or.inr hown)
    · cases hs

/-- A short name that is chosen is fixed, and stands for the name. -/
theorem Sound.shorten (h : c.Sound start) (name : QualifiedName) (kind : SymbolKind) :
    (c.shorten name kind).2.Sound start ∧ c.Extends (c.shorten name kind).2 ∧
      ∀ short, (c.shorten name kind).1 = some short → '\\' ∉ short ∧
        ∃ e?, (c.shorten name kind).2.Fixes short kind e? ∧ start.Stands short kind name e? := by
  rw [ImportChoice.shorten]
  cases hs : c.context.existingShort? name kind with
  | some short =>
    dsimp only
    rcases h.existingShort?_cases hs with ⟨e, he, rfl, hstands⟩ | ⟨halias, hplain, hstands⟩
    · rw [if_pos (NameContext.hasAlias_iff.mpr ⟨e, he, rfl⟩)]
      refine ⟨h.markUsed _ _, extends_markUsed _ _ _, fun short' hshort' => ?_⟩
      obtain rfl : e.alias = short' := Option.some.inj hshort'
      exact ⟨h.plain.segment kind e he, some e, fixes_markUsed he rfl, hstands⟩
    · rw [if_neg halias]
      refine ⟨h.addReference halias, extends_addReference _ _ _, fun short' hshort' => ?_⟩
      obtain rfl : short = short' := Option.some.inj hshort'
      exact ⟨hplain, none, fixes_addReference _ _ _, hstands⟩
  | none =>
    dsimp only
    split
    · exact ⟨h, .refl c, fun short' hshort' => nomatch hshort'⟩
    · have hplain := c.context.allocateAlias_not_mem name kind
      obtain ⟨context, hadd, hsound, hext, hmem⟩ :=
        h.addAlias name (c.context.allocateAlias_isFree name kind) hplain
      rw [hadd, Option.getD_some]
      refine ⟨hsound.markUsed _ _, hext.trans (extends_markUsed _ _ _), fun short' hshort' => ?_⟩
      obtain rfl := Option.some.inj hshort'
      exact ⟨hplain, some _, fixes_markUsed hmem rfl, rfl⟩

theorem shortenAll_cons (c : ImportChoice) (r : Reference) (rs : List Reference) :
    c.shortenAll (r :: rs) =
      let first := c.shorten (.ofText r.text) r.kind
      let rest := first.2.shortenAll rs
      (first.1.toList.map (r, ·) ++ rest.1, rest.2) := by
  rw [ImportChoice.shortenAll]
  cases hs : (c.shorten (.ofText r.text) r.kind).1 with
  | none => simp [hs]
  | some short => simp [hs]

theorem Sound.shortenAll (h : c.Sound start) (rs : List Reference) :
    (c.shortenAll rs).2.Sound start ∧ c.Extends (c.shortenAll rs).2 ∧
      ∀ r short, (r, short) ∈ (c.shortenAll rs).1 → '\\' ∉ short ∧
        ∃ e?, (c.shortenAll rs).2.Fixes short r.kind e? ∧
          start.Stands short r.kind (.ofText r.text) e? := by
  induction rs generalizing c with
  | nil => exact ⟨h, .refl c, fun r short hr => by simp [ImportChoice.shortenAll] at hr⟩
  | cons r rs ih =>
    obtain ⟨hsound, hext, hhead⟩ := h.shorten (.ofText r.text) r.kind
    obtain ⟨hsound', hext', htail⟩ := ih hsound
    rw [shortenAll_cons]
    refine ⟨hsound', hext.trans hext', fun r' short hr => ?_⟩
    rcases List.mem_append.mp hr with hr | hr
    · obtain ⟨short', hs, hr⟩ := List.mem_map.mp hr
      cases hr
      obtain ⟨hplain, e?, hfix, hstands⟩ := hhead short (Option.mem_toList.mp hs)
      exact ⟨hplain, e?, hext'.fixes hfix, hstands⟩
    · exact htail r' short hr

/-- A name of one segment is fixed as it is: as the alias that it is, or as taken. -/
theorem Sound.note (h : c.Sound start) {r : Reference} (hr : '\\' ∉ r.text) :
    (c.note r).Sound start ∧ c.Extends (c.note r) ∧
      (c.note r).context.aliases = c.context.aliases ∧
      (c.note r).Fixes r.text r.kind (c.context.findAlias? r.text r.kind) := by
  rw [ImportChoice.note, Text.splitAtFirst?_eq_none_iff.mpr hr]
  dsimp only
  cases hfind : c.context.findAlias? r.text r.kind with
  | some e =>
    have halias : c.context.hasAlias r.text r.kind := by rw [NameContext.hasAlias, hfind]; rfl
    have hkey : aliasKey r.kind e.alias = aliasKey r.kind r.text := by
      simpa using List.find?_some hfind
    rw [if_pos halias]
    exact ⟨h.markUsed _ _, extends_markUsed _ _ _, rfl,
      fixes_markUsed (List.mem_of_find?_eq_some hfind) hkey⟩
  | none =>
    have halias : ¬c.context.hasAlias r.text r.kind := by simp [NameContext.hasAlias, hfind]
    rw [if_neg halias]
    exact ⟨h.addReference halias, extends_addReference _ _ _, rfl, fixes_addReference _ _ _⟩

theorem Sound.noteAll (h : c.Sound start) (halias : c.context.aliases = start.aliases)
    {rs : List Reference} (hrs : ∀ r ∈ rs, '\\' ∉ r.text) :
    (rs.foldl ImportChoice.note c).Sound start ∧ c.Extends (rs.foldl ImportChoice.note c) ∧
      ∀ r ∈ rs, (rs.foldl ImportChoice.note c).Fixes r.text r.kind
        (start.findAlias? r.text r.kind) := by
  induction rs generalizing c with
  | nil => exact ⟨h, .refl c, by simp⟩
  | cons r rs ih =>
    obtain ⟨hsound, hext, hsame, hfix⟩ := h.note (hrs r (by simp))
    obtain ⟨hsound', hext', htail⟩ :=
      ih hsound (hsame.trans halias) fun r' hr' => hrs r' (List.mem_cons_of_mem r hr')
    rw [List.foldl_cons, List.forall_mem_cons]
    refine ⟨hsound', hext.trans hext', hext'.fixes ?_, htail⟩
    rwa [NameContext.findAlias?, halias] at hfix

/-- Marking aliases of comments adds no alias, and marks every one of them. -/
theorem markAll (c : ImportChoice) (es : List TextEdit) :
    let d := es.foldl (fun c e => c.markAlias e.text .type) c
    d.context = c.context ∧ c.Extends d ∧
      ∀ e ∈ es, c.context.hasAlias e.text .type → (.type, aliasKey .type e.text) ∈ d.used := by
  induction es generalizing c with
  | nil => exact ⟨rfl, .refl c, by simp⟩
  | cons e es ih =>
    obtain ⟨hcontext, hext, hmarks⟩ := ih (c.markAlias e.text .type)
    have hstep : (c.markAlias e.text .type).context = c.context ∧
        c.Extends (c.markAlias e.text .type) ∧ (c.context.hasAlias e.text .type →
          (.type, aliasKey .type e.text) ∈ (c.markAlias e.text .type).used) := by
      rw [markAlias]
      split
      · exact ⟨rfl, extends_markUsed _ _ _, fun _ => List.mem_cons_self⟩
      · rename_i h
        exact ⟨rfl, .refl c, fun h' => absurd h' h⟩
    rw [hstep.1] at hmarks
    refine ⟨hcontext.trans hstep.1, hstep.2.1.trans hext, ?_⟩
    rw [List.forall_mem_cons]
    exact ⟨fun h => hext.used _ (hstep.2.2 h), hmarks⟩

end ImportChoice

namespace SourceFile

section Choice

variable (f : SourceFile) (s : Scope)

/-- The choice after the names that are not in full have been noted. -/
def notedChoice : ImportChoice :=
  ((f.references s.first s.stop).filter fun r => !isWrittenInFull r.text).foldl ImportChoice.note
    ⟨f.context s, []⟩

/-- What `importScope` does to the names in full: those that become short, and the choice then. -/
def shortening : List (Reference × Text) × ImportChoice :=
  (f.notedChoice s).shortenAll ((f.references s.first s.stop).filter fun r => isWrittenInFull r.text)

/-- The short name for a name in a comment. -/
def docShort? (name : Text) : Option Text := (f.shortening s).2.docShort? name

/-- The edits inside the comments of a scope. -/
def commentEdits : List (Token × List TextEdit) :=
  (f.docComments s).map fun comment => (comment, comment.docEdits (f.docShort? s))

/-- The choice in the end, with the aliases marked that comments use. -/
def importChoice : ImportChoice :=
  ((f.commentEdits s).flatMap (·.2)).foldl (fun c e => c.markAlias e.text .type) (f.shortening s).2

/-- The names of the scope after the third step: its imports are the ones that are printed. -/
def importedContext : NameContext := (f.importChoice s).printed (f.context s)

end Choice

theorem importScope_eq (f : SourceFile) (s : Scope) :
    f.importScope s =
      (f.shortening s).1.map (fun (r, short) => ⟨f.tokenRange r.token, short⟩) ++
        (f.commentEdits s).filterMap (fun (comment, inner) => comment.docEdit? inner) ++
        if !(AliasDiff.between (f.context s).aliases (f.importChoice s).context.aliases).isEmpty ||
            (f.importChoice s).hasUnused then
          f.placeImports s (f.importChoice s).importBlock
        else [] := by
  rw [importScope, List.partition_eq_filter_filter]
  rfl

/-- Names of one segment that are not in full, and no alias by the name of a definition. -/
structure IsRegular (f : SourceFile) (s : Scope) : Prop where
  apart : ∀ kind, ∀ e ∈ (f.context s).aliases.get kind, ¬(f.context s).defines e.alias kind
  segment : ∀ r ∈ f.references s.first s.stop, ¬isWrittenInFull r.text → '\\' ∉ r.text

instance (f : SourceFile) (s : Scope) : Decidable (f.IsRegular s) :=
  decidable_of_iff ((∀ kind ∈ [SymbolKind.type, .function, .constant], ∀ e ∈ (f.context s).aliases.get kind,
      ¬(f.context s).defines e.alias kind) ∧
      ∀ r ∈ f.references s.first s.stop, ¬isWrittenInFull r.text → '\\' ∉ r.text)
    ⟨fun h => ⟨fun kind => h.1 kind (by cases kind <;> simp), h.2⟩, fun h => ⟨fun kind _ => h.apart kind, h.segment⟩⟩

variable {t : Text} {s : Scope}

theorem notedChoice_sound (hs : s ∈ (parse t).scopes) (h : (parse t).IsRegular s) :
    ((parse t).notedChoice s).Sound ((parse t).context s) ∧
      ∀ r ∈ (parse t).references s.first s.stop, ¬isWrittenInFull r.text →
        ((parse t).notedChoice s).Fixes r.text r.kind
          (((parse t).context s).findAlias? r.text r.kind) := by
  have hstart := ImportChoice.sound_start (context_isPlain hs) (context_references _ s) h.apart
  have hsegment : ∀ r ∈ ((parse t).references s.first s.stop).filter fun r =>
      !isWrittenInFull r.text, '\\' ∉ r.text := by
    intro r hr
    obtain ⟨hr, hfull⟩ := List.mem_filter.mp hr
    exact h.segment r hr (by simpa using hfull)
  obtain ⟨hsound, -, hfix⟩ := hstart.noteAll rfl hsegment
  refine ⟨hsound, fun r hr hfull => hfix r ?_⟩
  exact List.mem_filter.mpr ⟨hr, by simpa using hfull⟩

theorem importChoice_spec (hs : s ∈ (parse t).scopes) (h : (parse t).IsRegular s) :
    ((parse t).importChoice s).Sound ((parse t).context s) ∧
      ((parse t).notedChoice s).Extends ((parse t).importChoice s) ∧
      ((parse t).shortening s).2.Extends ((parse t).importChoice s) ∧
      ((parse t).importChoice s).context = ((parse t).shortening s).2.context := by
  obtain ⟨hnoted, -⟩ := notedChoice_sound hs h
  obtain ⟨hsound, hext, -⟩ := hnoted.shortenAll
    (((parse t).references s.first s.stop).filter fun r => isWrittenInFull r.text)
  obtain ⟨hcontext, hmarks, -⟩ := ImportChoice.markAll ((parse t).shortening s).2
    (((parse t).commentEdits s).flatMap (·.2))
  refine ⟨?_, hext.trans hmarks, hmarks, hcontext⟩
  rw [importChoice]
  refine ⟨?_, ?_, ?_, ?_, ?_⟩ <;> rw [hcontext]
  · exact hsound.plain
  · exact hsound.space
  · exact hsound.definitions
  · exact hsound.undefined
  · exact hsound.unreferred

/-- A short name in a comment is a marked alias, or no alias at all. -/
theorem docShort?_spec (hs : s ∈ (parse t).scopes) (h : (parse t).IsRegular s) {comment : Token}
    (hc : comment ∈ (parse t).docComments s) {d : DocReference}
    (hd : d ∈ DocComment.references comment.text) {short : Text}
    (hshort : (parse t).docShort? s d.name = some short) :
    '\\' ∉ short ∧ ((parse t).context s).Stands short .type (.ofText d.name)
      (((parse t).importedContext s).findAlias? short .type) := by
  obtain ⟨hnoted, -⟩ := notedChoice_sound hs h
  obtain ⟨hcode, -⟩ := hnoted.shortenAll
    (((parse t).references s.first s.stop).filter fun r => isWrittenInFull r.text)
  obtain ⟨hsound, -, -, hcontext⟩ := importChoice_spec hs h
  obtain ⟨-, -, hmarks⟩ := ImportChoice.markAll ((parse t).shortening s).2
    (((parse t).commentEdits s).flatMap (·.2))
  have hedit : ⟨d.range, short⟩ ∈ ((parse t).commentEdits s).flatMap (·.2) := by
    refine List.mem_flatMap.mpr ⟨_, List.mem_map.mpr ⟨comment, hc, rfl⟩, ?_⟩
    exact List.mem_filterMap.mpr ⟨d, hd, by rw [hshort]; rfl⟩
  have hexists : ((parse t).shortening s).2.context.existingShort? (.ofText d.name) .type =
      some short := by
    rw [docShort?, ImportChoice.docShort?] at hshort
    split at hshort
    · exact hshort
    · cases hshort
  rcases hcode.existingShort?_cases hexists with ⟨e, he, hkey, hst⟩ | ⟨halias, hsegment, hst⟩
  · subst hkey
    have hmark := hmarks _ hedit (NameContext.hasAlias_iff.mpr ⟨e, he, rfl⟩)
    have hfix : ((parse t).importChoice s).Fixes e.alias .type (some e) :=
      ⟨hcontext ▸ he, rfl, ImportChoice.isUsed_iff.mpr hmark⟩
    refine ⟨hcode.plain.segment .type e he, ?_⟩
    rw [importedContext, hsound.findAlias?_printed hfix]
    exact hst
  · refine ⟨hsegment, ?_⟩
    rw [importedContext, ImportChoice.not_mem_printed]
    · exact hst
    · rw [hcontext]
      exact fun e he hkey => halias (NameContext.hasAlias_iff.mpr ⟨e, he, hkey⟩)

/-- The third step keeps what names mean. It writes short names and the imports in use. In the context
with these imports a short name of the code or of a comment means what the name in full meant, and
every name means what it meant before. -/
theorem importScope_keeps_meaning (hs : s ∈ (parse t).scopes) (h : (parse t).IsRegular s) :
    (parse t).importScope s =
      ((parse t).shortening s).1.map (fun (r, short) => ⟨(parse t).tokenRange r.token, short⟩) ++
        ((parse t).commentEdits s).filterMap (fun (comment, inner) => comment.docEdit? inner) ++
        (if !(AliasDiff.between ((parse t).context s).aliases
              ((parse t).importChoice s).context.aliases).isEmpty ||
            ((parse t).importChoice s).hasUnused then
          (parse t).placeImports s ((parse t).importChoice s).importBlock
        else []) ∧
    (∀ r short, (r, short) ∈ ((parse t).shortening s).1 →
      ∃ n, ((parse t).importedContext s).resolve short r.kind = .resolved n ∧
        n.key r.kind = lookupKey r.kind r.text) ∧
    (∀ comment ∈ (parse t).docComments s, ∀ d ∈ DocComment.references comment.text, ∀ short,
      (parse t).docShort? s d.name = some short →
      ∃ n, ((parse t).importedContext s).resolve short .type = .resolved n ∧
        n.key .type = lookupKey .type d.name) ∧
    ∀ r ∈ (parse t).references s.first s.stop,
      ((parse t).importedContext s).resolve r.text r.kind =
        ((parse t).context s).resolve r.text r.kind := by
  obtain ⟨hnoted, hfixed⟩ := notedChoice_sound hs h
  obtain ⟨-, -, hshort⟩ := hnoted.shortenAll
    (((parse t).references s.first s.stop).filter fun r => isWrittenInFull r.text)
  obtain ⟨hsound, hext, hext', -⟩ := importChoice_spec hs h
  have hresolve {short name : Text} {kind : SymbolKind} (hsegment : '\\' ∉ short)
      (hst : ((parse t).context s).Stands short kind (.ofText name)
        (((parse t).importedContext s).findAlias? short kind)) :
      ∃ n, ((parse t).importedContext s).resolve short kind = .resolved n ∧
        n.key kind = lookupKey kind name := by
    rw [importedContext] at hst ⊢
    rw [← QualifiedName.key_ofText]
    exact NameContext.Stands.resolve (ImportChoice.printed_isPlain hsound) hsegment
      (QualifiedName.ofText_text_head name) (ImportChoice.printed_stands.mpr hst)
  refine ⟨importScope_eq _ s, fun r short hr => ?_, fun comment hc d hd short hdoc => ?_,
    fun r hr => ?_⟩
  · obtain ⟨hsegment, e?, hfix, hst⟩ := hshort r short hr
    refine hresolve hsegment ?_
    rwa [importedContext, hsound.findAlias?_printed (hext'.fixes hfix)]
  · obtain ⟨hsegment, hst⟩ := docShort?_spec hs h hc hd hdoc
    exact hresolve hsegment hst
  · by_cases hfull : isWrittenInFull r.text
    · obtain ⟨name, hname⟩ : ∃ name, r.text = '\\' :: name :=
        List.head?_eq_some_iff.mp (by simpa [isWrittenInFull] using hfull)
      rw [hname]
      rfl
    · rw [importedContext]
      exact NameContext.resolve_congr (h.segment r hr hfull) ImportChoice.printed_space?
        ImportChoice.printed_definitions (hsound.findAlias?_printed (hext.fixes (hfixed r hr hfull)))

/-- A class of another namespace that is used in full, with a comment that names it too. -/
def borrowed : Text := "<?php namespace A; /** @var \\B\\C */ $c = new \\B\\C();"

theorem borrowed_scopes : (parse borrowed).scopes.length = 1 := by decide +kernel

/-- The only scope of the text. -/
def borrowedScope : Scope :=
  (parse borrowed).scopes.get ⟨0, by rw [borrowed_scopes]; decide⟩

theorem borrowed_isRegular : (parse borrowed).IsRegular borrowedScope := by decide +kernel

theorem borrowed_keeps_meaning :
    ∃ n, ((parse borrowed).importedContext borrowedScope).resolve ['C'] .type = .resolved n ∧
      n.key .type = lookupKey .type "\\B\\C" :=
  (importScope_keeps_meaning (List.get_mem _ _) borrowed_isRegular).2.1
    ⟨14, .type, "\\B\\C"⟩ ['C'] (by decide +kernel)

end SourceFile
end NamespaceMigration
