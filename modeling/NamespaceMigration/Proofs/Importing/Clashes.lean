import NamespaceMigration.Proofs.Importing.Meaning
import NamespaceMigration.Proofs.Moving.Merging
import NamespaceMigration.Proofs.Moving.Review
import NamespaceMigration.Proofs.Planning.Types

/-! Imports by the name of a declaration. The third step adds none: a file imports a name that it declares
afterwards exactly if it did so before and the import is in use. -/
namespace NamespaceMigration

/-- A name in full that becomes the short name of an alias: as the first alias for it, or as the name of a
definition of the scope. -/
def NameContext.GoesThrough (c : NameContext) (kind : SymbolKind) (e : AliasEntry) (name : QualifiedName) :
    Prop :=
  ∃ short, c.aliasFor? name kind = some short ∧ aliasKey kind short = aliasKey kind e.alias

/-- A name that is an alias, or begins with one. -/
def Reference.BeginsWith (r : Reference) (kind : SymbolKind) (e : AliasEntry) : Prop :=
  match Text.splitAtFirst? '\\' r.text with
  | some (first, _) => kind = .type ∧ ¬Text.eqIgnoreCase first "namespace" ∧
      aliasKey .type first = aliasKey .type e.alias
  | none => r.kind = kind ∧ aliasKey kind r.text = aliasKey kind e.alias

namespace ImportChoice

/-- A choice has the aliases of the start, and after them others by the name of no definition. -/
structure Grown (start : NameContext) (c : ImportChoice) : Prop where
  space : c.context.space? = start.space?
  definitions : c.context.definitions = start.definitions
  aliases : ∀ kind, ∃ added, c.context.aliases.get kind = start.aliases.get kind ++ added ∧
    ∀ e ∈ added, ¬start.defines e.alias kind

namespace Grown

variable {start : NameContext} {c d : ImportChoice}

theorem refl (used : List (SymbolKind × Text)) : Grown start ⟨start, used⟩ :=
  ⟨rfl, rfl, fun _ => ⟨[], (List.append_nil _).symm, nofun⟩⟩

theorem of_eq (h : c.Grown start) (hspace : d.context.space? = c.context.space?)
    (hdefinitions : d.context.definitions = c.context.definitions)
    (haliases : d.context.aliases = c.context.aliases) : d.Grown start :=
  ⟨hspace.trans h.space, hdefinitions.trans h.definitions, fun kind => haliases ▸ h.aliases kind⟩

/-- A new alias goes by the name of no definition. -/
theorem addAlias (h : c.Grown start) (name : QualifiedName) (kind : SymbolKind) :
    Grown start { c with
      context := (c.context.addAlias? name (c.context.allocateAlias name kind) kind).getD c.context } := by
  cases hadd : c.context.addAlias? name (c.context.allocateAlias name kind) kind with
  | none => exact h
  | some context =>
    obtain ⟨-, rfl⟩ := NameContext.addAlias?_eq_some_iff.mp hadd
    refine ⟨h.space, h.definitions, fun kind' => ?_⟩
    obtain ⟨added, hadded, hfresh⟩ := h.aliases kind'
    have hfree : ¬start.defines (c.context.allocateAlias name kind) kind := by
      have hfree := c.context.allocateAlias_isFree name kind
      rw [NameContext.isFree, Bool.and_eq_true, Bool.and_eq_true, NameContext.defines, h.definitions] at hfree
      simpa [NameContext.defines] using hfree.1.2
    rw [Option.getD_some]
    refine ⟨added ++ if kind = kind' then [⟨c.context.allocateAlias name kind, name⟩] else [], ?_, ?_⟩
    · rw [NameContext.get_modify_append, hadded, List.append_assoc]
    · refine List.forall_mem_append.mpr ⟨hfresh, fun e he => ?_⟩
      split at he
      · rename_i hkind
        rw [List.mem_singleton.mp he, ← hkind]
        exact hfree
      · cases he

theorem shorten (h : c.Grown start) (name : QualifiedName) (kind : SymbolKind) :
    (c.shorten name kind).2.Grown start := by
  rw [ImportChoice.shorten]
  split
  · split
    · exact h.of_eq rfl rfl rfl
    · exact h.of_eq rfl rfl rfl
  · split
    · exact h
    · exact (h.addAlias name kind).of_eq rfl rfl rfl

theorem shortenAll (h : c.Grown start) (rs : List Reference) : (c.shortenAll rs).2.Grown start := by
  induction rs generalizing c with
  | nil => exact h
  | cons r rs ih =>
    rw [shortenAll_cons]
    exact ih (h.shorten _ _)

theorem note (h : c.Grown start) (r : Reference) : (c.note r).Grown start := by
  rw [ImportChoice.note]
  split
  · split
    · exact h
    · exact h.of_eq rfl rfl rfl
  · split
    · exact h.of_eq rfl rfl rfl
    · exact h.of_eq rfl rfl rfl

theorem noteAll (h : c.Grown start) (rs : List Reference) : (rs.foldl ImportChoice.note c).Grown start :=
  List.foldlRecOn rs _ h fun _ h r _ => h.note r

theorem mem_iff (h : c.Grown start) {kind : SymbolKind} {e : AliasEntry} (he : start.defines e.alias kind) :
    e ∈ c.context.aliases.get kind ↔ e ∈ start.aliases.get kind := by
  obtain ⟨added, hadded, hfresh⟩ := h.aliases kind
  rw [hadded, List.mem_append]
  exact ⟨fun hmem => hmem.elim id fun hnew => absurd he (hfresh e hnew), Or.inl⟩

section Use

variable (h : c.Grown start) {kind : SymbolKind} {e : AliasEntry} (he : e ∈ start.aliases.get kind)
  (hdefined : start.defines e.alias kind)
include h

include hdefined in
/-- A name exists under the name of a definition exactly if it did so at the start. -/
theorem existingShort?_iff {name : QualifiedName} :
    (∃ short, c.context.existingShort? name kind = some short ∧
      aliasKey kind short = aliasKey kind e.alias) ↔ start.GoesThrough kind e name := by
  have hdefines : c.context.defines name.short kind = start.defines name.short kind := by
    rw [NameContext.defines, NameContext.defines, h.definitions]
  obtain ⟨added, hadded, hfresh⟩ := h.aliases kind
  rw [NameContext.GoesThrough, NameContext.existingShort?, NameContext.aliasFor?, NameContext.aliasFor?,
    h.space, hdefines, hadded, List.find?_append]
  cases hown : sameSpace start.space? name.space? && start.defines name.short kind with
  | true => rw [if_pos rfl, if_pos rfl]
  | false =>
    rw [if_neg Bool.false_ne_true, if_neg Bool.false_ne_true]
    cases hfirst : (start.aliases.get kind).find? (·.target.key kind == name.key kind) with
    | some first => rw [Option.some_or, Option.map_some]
    | none =>
      rw [Option.none_or]
      refine iff_of_false ?_ (by simp)
      rintro ⟨short, hshort, hkey⟩
      -- A short name for which there was none at the start is not that of a definition.
      have hshort' : start.defines short kind := by
        rw [NameContext.defines_iff, hkey]
        exact NameContext.defines_iff.mp hdefined
      cases hnew : added.find? (·.target.key kind == name.key kind) with
      | some new =>
        rw [hnew] at hshort
        obtain rfl : new.alias = short := Option.some.inj hshort
        exact absurd hshort' (hfresh new (List.mem_of_find?_eq_some hnew))
      | none =>
        rw [hnew] at hshort
        dsimp only [Option.map_none] at hshort
        split at hshort
        · rename_i hfree
          obtain rfl : name.short = short := Option.some.inj hshort
          rw [Bool.and_eq_true, Bool.and_eq_true] at hfree
          rw [hfree.1.2, hshort'] at hown
          cases hown
        · cases hshort

include he

theorem hasAlias {short : Text} (hkey : aliasKey kind short = aliasKey kind e.alias) :
    c.context.hasAlias short kind := by
  obtain ⟨added, hadded, -⟩ := h.aliases kind
  exact NameContext.hasAlias_iff.mpr ⟨e, hadded ▸ List.mem_append_left _ he, hkey.symm⟩

/-- A name that is not in full uses the alias that it is or begins with. -/
theorem used_note (r : Reference) :
    (c.note r).isUsed kind e ↔ c.isUsed kind e ∨ r.BeginsWith kind e := by
  rw [isUsed_iff, isUsed_iff, ImportChoice.note, Reference.BeginsWith]
  cases hsplit : Text.splitAtFirst? '\\' r.text with
  | some parts =>
    obtain ⟨first, rest⟩ := parts
    dsimp only
    generalize Text.eqIgnoreCase first "namespace" = relative
    cases relative with
    | true => simp
    | false =>
      by_cases hkind : kind = .type
      · subst hkind
        simp [markUsed, or_comm, eq_comm]
      · simp [markUsed, hkind]
  | none =>
    dsimp only
    by_cases hkind : r.kind = kind
    · subst hkind
      by_cases hkey : aliasKey r.kind r.text = aliasKey r.kind e.alias
      · rw [if_pos (h.hasAlias he hkey)]
        simp [markUsed, hkey]
      · split <;> simp [markUsed, hkey, Ne.symm hkey]
    · split <;> simp [markUsed, hkind, Ne.symm hkind]

theorem used_noteAll (rs : List Reference) :
    (rs.foldl ImportChoice.note c).isUsed kind e ↔ c.isUsed kind e ∨ ∃ r ∈ rs, r.BeginsWith kind e := by
  induction rs generalizing c with
  | nil => simp
  | cons r rs ih =>
    simp only [List.foldl_cons, ih (h.note r), h.used_note he, List.mem_cons, or_and_right, exists_or,
      exists_eq_left, or_assoc]

theorem used_markAll (es : List TextEdit) :
    (es.foldl (fun c edit => c.markAlias edit.text .type) c).isUsed kind e ↔ c.isUsed kind e ∨
      kind = .type ∧ ∃ edit ∈ es, aliasKey kind edit.text = aliasKey kind e.alias := by
  have hstep {c : ImportChoice} (h : c.Grown start) (edit : TextEdit) :
      (c.markAlias edit.text .type).Grown start ∧ ((c.markAlias edit.text .type).isUsed kind e ↔
        c.isUsed kind e ∨ kind = .type ∧ aliasKey kind edit.text = aliasKey kind e.alias) := by
    rw [isUsed_iff, isUsed_iff, markAlias]
    by_cases hkind : kind = .type
    · subst hkind
      by_cases hkey : aliasKey .type edit.text = aliasKey .type e.alias
      · rw [if_pos (h.hasAlias he hkey)]
        exact ⟨h.of_eq rfl rfl rfl, by simp [markUsed, hkey]⟩
      · split
        · exact ⟨h.of_eq rfl rfl rfl, by simp [markUsed, hkey, Ne.symm hkey]⟩
        · exact ⟨h, by simp [hkey]⟩
    · split
      · exact ⟨h.of_eq rfl rfl rfl, by simp [markUsed, hkind]⟩
      · exact ⟨h, by simp [hkind]⟩
  induction es generalizing c with
  | nil => simp
  | cons edit es ih =>
    refine (ih (hstep h edit).1).trans ?_
    simp only [(hstep h edit).2, List.mem_cons, or_and_right, exists_or, exists_eq_left, and_or_left,
      or_assoc]

include hdefined

/-- A name that becomes short uses an alias by the name of a definition exactly if it goes through it. -/
theorem used_shorten (name : QualifiedName) (kind' : SymbolKind) :
    (c.shorten name kind').2.isUsed kind e ↔
      c.isUsed kind e ∨ kind' = kind ∧ start.GoesThrough kind e name := by
  rw [isUsed_iff, isUsed_iff]
  by_cases hkind : kind' = kind
  · subst hkind
    rw [← h.existingShort?_iff hdefined, ImportChoice.shorten]
    cases hexists : c.context.existingShort? name kind' with
    | some short =>
      dsimp only
      by_cases hkey : aliasKey kind' short = aliasKey kind' e.alias
      · rw [if_pos (h.hasAlias he hkey)]
        simp [markUsed, hkey]
      · split
        · simp [markUsed, hkey, Ne.symm hkey]
        · simp [hkey]
    | none =>
      dsimp only
      split
      · simp
      · have hnew : aliasKey kind' (c.context.allocateAlias name kind') ≠ aliasKey kind' e.alias := by
          intro hkey
          have hfree := c.context.allocateAlias_isFree name kind'
          rw [NameContext.isFree, h.hasAlias he hkey] at hfree
          cases hfree
        simp [markUsed, Ne.symm hnew]
  · -- Marks of other kinds are other marks.
    rw [ImportChoice.shorten]
    split
    · split <;> simp [markUsed, hkind, Ne.symm hkind]
    · split <;> simp [markUsed, hkind, Ne.symm hkind]

theorem used_shortenAll (rs : List Reference) :
    (c.shortenAll rs).2.isUsed kind e ↔
      c.isUsed kind e ∨ ∃ r ∈ rs, r.kind = kind ∧ start.GoesThrough kind e (.ofText r.text) := by
  induction rs generalizing c with
  | nil => simp [ImportChoice.shortenAll]
  | cons r rs ih =>
    rw [shortenAll_cons]
    simp only [ih (h.shorten _ _), h.used_shorten he hdefined, List.mem_cons, or_and_right, exists_or,
      exists_eq_left, or_assoc]

end Use

end Grown
end ImportChoice

namespace SourceFile

theorem importChoice_grown (f : SourceFile) (s : Scope) : (f.importChoice s).Grown (f.context s) := by
  have hnoted : (f.notedChoice s).Grown (f.context s) := (ImportChoice.Grown.refl []).noteAll _
  have hcontext := (ImportChoice.markAll (f.shortening s).2 ((f.commentEdits s).flatMap (·.2))).1
  exact (hnoted.shortenAll _).of_eq (congrArg NameContext.space? hcontext)
    (congrArg NameContext.definitions hcontext) (congrArg NameContext.aliases hcontext)

/-- Whether a scope uses an alias: a name in full becomes short through it, a name that is not in full
begins with it, or a name in full in a comment becomes short through it. -/
def Uses (f : SourceFile) (s : Scope) (kind : SymbolKind) (e : AliasEntry) : Prop :=
  (∃ r ∈ f.references s.first s.stop,
    if isWrittenInFull r.text then r.kind = kind ∧ (f.context s).GoesThrough kind e (.ofText r.text)
    else r.BeginsWith kind e) ∨
  kind = .type ∧ ∃ comment ∈ f.docComments s, ∃ d ∈ DocComment.references comment.text,
    isWrittenInFull d.name ∧ (f.context s).GoesThrough kind e (.ofText d.name)

section

variable (f : SourceFile) (s : Scope) {kind : SymbolKind} {e : AliasEntry}
  (he : e ∈ (f.context s).aliases.get kind) (hdefined : (f.context s).defines e.alias kind)
include he hdefined

/-- An alias by the name of a definition is in use in the end exactly if the scope uses it. -/
theorem isUsed_importChoice_iff : (f.importChoice s).isUsed kind e ↔ f.Uses s kind e := by
  have hnoted : (f.notedChoice s).Grown (f.context s) := (ImportChoice.Grown.refl []).noteAll _
  have hcode : (f.shortening s).2.Grown (f.context s) := hnoted.shortenAll _
  have hedits : (∃ edit ∈ (f.commentEdits s).flatMap (·.2),
      aliasKey kind edit.text = aliasKey kind e.alias) ↔
        ∃ comment ∈ f.docComments s, ∃ d ∈ DocComment.references comment.text, ∃ short,
          f.docShort? s d.name = some short ∧ aliasKey kind short = aliasKey kind e.alias := by
    constructor
    · rintro ⟨edit, hedit, hkey⟩
      obtain ⟨_, hcomments, hedit⟩ := List.mem_flatMap.mp hedit
      obtain ⟨comment, hcomment, rfl⟩ := List.mem_map.mp hcomments
      obtain ⟨d, hd, hedit⟩ := List.mem_filterMap.mp hedit
      obtain ⟨short, hshort, rfl⟩ := Option.map_eq_some_iff.mp hedit
      exact ⟨comment, hcomment, d, hd, short, hshort, hkey⟩
    · rintro ⟨comment, hcomment, d, hd, short, hshort, hkey⟩
      refine ⟨⟨d.range, short⟩, List.mem_flatMap.mpr ⟨_, List.mem_map_of_mem hcomment, ?_⟩, hkey⟩
      exact List.mem_filterMap.mpr ⟨d, hd, by rw [hshort]; rfl⟩
  have hdoc (hkind : kind = .type) (name : Text) :
      (∃ short, f.docShort? s name = some short ∧ aliasKey kind short = aliasKey kind e.alias) ↔
        isWrittenInFull name ∧ (f.context s).GoesThrough kind e (.ofText name) := by
    subst hkind
    rw [← hcode.existingShort?_iff hdefined, docShort?, ImportChoice.docShort?]
    cases isWrittenInFull name <;> simp
  rw [importChoice, hcode.used_markAll he, hedits, shortening, hnoted.used_shortenAll he hdefined,
    notedChoice, (ImportChoice.Grown.refl []).used_noteAll he, Uses]
  have hstart : ¬ImportChoice.isUsed ⟨f.context s, []⟩ kind e := by
    rw [ImportChoice.isUsed_iff]
    exact List.not_mem_nil
  have hcode : (∃ r ∈ (f.references s.first s.stop).filter (!isWrittenInFull ·.text), r.BeginsWith kind e) ∨
      (∃ r ∈ (f.references s.first s.stop).filter (isWrittenInFull ·.text),
        r.kind = kind ∧ (f.context s).GoesThrough kind e (.ofText r.text)) ↔
      ∃ r ∈ f.references s.first s.stop,
        if isWrittenInFull r.text then r.kind = kind ∧ (f.context s).GoesThrough kind e (.ofText r.text)
        else r.BeginsWith kind e := by
    simp only [List.mem_filter]
    constructor
    · rintro (⟨r, ⟨hr, hfull⟩, h⟩ | ⟨r, ⟨hr, hfull⟩, h⟩)
      · exact ⟨r, hr, by rwa [if_neg (by simpa using hfull)]⟩
      · exact ⟨r, hr, by rwa [if_pos hfull]⟩
    · rintro ⟨r, hr, h⟩
      split at h
      · rename_i hfull
        exact Or.inr ⟨r, ⟨hr, hfull⟩, h⟩
      · rename_i hfull
        exact Or.inl ⟨r, ⟨hr, by simpa using hfull⟩, h⟩
  rw [or_iff_right hstart, hcode]
  exact or_congr_right (and_congr_right fun hkind => by simp only [hdoc hkind])

end

theorem defines_importedContext (f : SourceFile) (s : Scope) (name : Text) (kind : SymbolKind) :
    (f.importedContext s).defines name kind = (f.context s).defines name kind := rfl

theorem mem_importedContext_iff (f : SourceFile) (s : Scope) {kind : SymbolKind} {e : AliasEntry}
    (hdefined : (f.context s).defines e.alias kind) :
    e ∈ (f.importedContext s).aliases.get kind ↔
      e ∈ (f.context s).aliases.get kind ∧ f.Uses s kind e := by
  rw [importedContext, ImportChoice.printed, PerKind.get_ofFn, List.mem_filter,
    (f.importChoice_grown s).mem_iff hdefined]
  exact and_congr_right fun he => f.isUsed_importChoice_iff s he hdefined

end SourceFile

namespace Fragment

/-- The file of a fragment imports a name that it declares after the third step exactly if the fragment
imports a name that it declares and its code uses this import. -/
theorem imports_declared_iff {f : Fragment} (hf : f.IsWritable) {s : Scope}
    (hs : s ∈ (SourceFile.parse f.render).scopes) (kind : SymbolKind) (name : Text) :
    let context := (SourceFile.parse f.render).importedContext s
    context.hasAlias name kind ∧ context.defines name kind ↔
      f.declares kind name ∧ ∃ item, f.import? kind name = some item ∧
        (SourceFile.parse f.render).Uses s kind item.entry := by
  intro context
  have hcontext := hf.context_render hs
  have hdefines : context.defines name kind = f.declares kind name := by
    rw [← defines_context, ← hcontext]
    exact SourceFile.defines_importedContext _ s name kind
  have hdeclared {e : AliasEntry} (hkey : aliasKey kind e.alias = aliasKey kind name)
      (h : f.declares kind name) : ((SourceFile.parse f.render).context s).defines e.alias kind := by
    rw [← defines_context, ← hcontext, NameContext.defines_iff] at h
    rw [NameContext.defines_iff, hkey]
    exact h
  have hfind {e : AliasEntry} (hkey : aliasKey kind e.alias = aliasKey kind name) :
      e ∈ ((SourceFile.parse f.render).context s).aliases.get kind ↔
        ∃ item, f.import? kind name = some item ∧ item.entry = e := by
    rw [← Option.map_eq_some_iff, ← findAlias?_context, ← hcontext]
    exact ⟨fun he => (SourceFile.context_isPlain hs).findAlias?_eq he hkey, List.mem_of_find?_eq_some⟩
  rw [hdefines, and_comm]
  refine and_congr_right fun h => ?_
  rw [NameContext.hasAlias_iff]
  constructor
  · rintro ⟨e, he, hkey⟩
    obtain ⟨hmem, huses⟩ := (SourceFile.mem_importedContext_iff _ s (hdeclared hkey h)).mp he
    obtain ⟨item, hitem, rfl⟩ := (hfind hkey).mp hmem
    exact ⟨item, hitem, huses⟩
  · rintro ⟨item, hitem, huses⟩
    have hkey : aliasKey kind item.entry.alias = aliasKey kind name := by
      have hbinds := List.find?_some hitem
      rw [ImportItem.binds, Bool.and_eq_true] at hbinds
      exact beq_iff_eq.mp hbinds.2
    refine ⟨item.entry, ?_, hkey⟩
    exact (SourceFile.mem_importedContext_iff _ s (hdeclared hkey h)).mpr
      ⟨(hfind hkey).mpr ⟨item, hitem, rfl⟩, huses⟩

end Fragment

theorem Extraction.isWritable_fragment {f : SourceFile} {path : Text} {d : Decision} {x : RenameIndex}
    {createAliases : Bool} {e : Extraction} (h : ofDecision f path d x createAliases = .ok e)
    (hspace : ∀ name, d.newSpace? = some name → IsSpaceName name) (hregular : e.fragment.IsRegular) :
    e.fragment.IsWritable := by
  obtain ⟨_, _, fragment, -, -, hread, hfragment, -⟩ := ofDecision_eq_ok h
  rw [hfragment] at hregular ⊢
  have hwritable := Fragment.isWritable_ofText hread ⟨hregular.directives, hregular.imports,
    fun t ht => hregular.body t (List.mem_append_left _ ht)⟩
  exact { hwritable with space := hspace, body := hregular.body }

/-- A class takes the name of the class that it extends, in another namespace. -/
def namesakeSource : Text := "<?php\nuse Vendor\\Bar;\nclass Foo_Bar extends Bar \x7b\x7d\n"

def extendsNamesake : Fragment :=
  ⟨[], some "Acme\\Foo", [⟨.type, "Vendor\\Bar", none, 3, none⟩],
    ["class Bar extends \\Vendor\\Bar \x7b\x7d"]⟩

theorem extendsNamesake_scopes : (SourceFile.parse extendsNamesake.render).scopes.length = 1 := by
  decide +kernel

def extendsNamesakeScope : Scope :=
  (SourceFile.parse extendsNamesake.render).scopes.get ⟨0, by rw [extendsNamesake_scopes]; decide⟩

/-- The class is taken out as this fragment, and its file imports the class whose name it declares. So does the
file that is written. -/
theorem extendsNamesake_imports_declared :
    let p := FilePlan.ofText underscored "a.php" namesakeSource
    let context := (SourceFile.parse extendsNamesake.render).importedContext extendsNamesakeScope
    let written := SourceFile.parse (Adaptation.reimport extendsNamesake.render)
    (∃ d ∈ p.decisions, ∃ e, Extraction.ofDecision (.parse namesakeSource) "a.php" d (.ofFiles [p]) false = .ok e ∧
      e.fragment = extendsNamesake) ∧
    context.hasAlias "Bar" .type ∧ context.defines "Bar" .type ∧
    (written.scopes.map fun s =>
      ((written.context s).hasAlias "Bar" .type, (written.context s).defines "Bar" .type)) = [(true, true)] := by
  intro p
  obtain ⟨hrun, hregular⟩ : p.decisions.map (fun d => (d.newSpace?,
      (Extraction.ofDecision (.parse namesakeSource) "a.php" d (.ofFiles [p]) false).toOption.map (·.fragment))) =
        [(extendsNamesake.space?, some extendsNamesake)] ∧ extendsNamesake.IsRegular := by decide +kernel
  obtain ⟨d, hd, hview⟩ := List.mem_map.mp (hrun ▸ List.mem_singleton_self _)
  obtain ⟨hnew, hresult⟩ := Prod.mk.inj hview
  obtain ⟨e, he, hfragment⟩ := Option.map_eq_some_iff.mp hresult
  have hok := eq_ok_of_toOption he
  have hspace : ∀ name, d.newSpace? = some name → IsSpaceName name := by
    intro name hname
    rw [hnew] at hname
    cases hname
    exact ⟨by decide, by decide⟩
  have hwritable : extendsNamesake.IsWritable :=
    hfragment ▸ Extraction.isWritable_fragment hok hspace (hfragment ▸ hregular)
  let f := SourceFile.parse extendsNamesake.render
  let extended : Reference := ⟨18, .type, "\\Vendor\\Bar"⟩
  obtain ⟨hdeclares, hused, hshort⟩ : extendsNamesake.declares .type "Bar" ∧
      extended ∈ f.references extendsNamesakeScope.first extendsNamesakeScope.stop ∧
        (f.context extendsNamesakeScope).aliasFor? (.ofText extended.text) .type = some "Bar".toList := by
    decide +kernel
  have hclash := (Fragment.imports_declared_iff hwritable (List.get_mem _ _) .type "Bar").mpr
    ⟨hdeclares, _, rfl, Or.inl ⟨extended, hused, by
      rw [if_pos (by decide)]
      exact ⟨rfl, "Bar", hshort, by decide⟩⟩⟩
  exact ⟨⟨d, hd, e, hok, hfragment⟩, hclash.1, hclash.2, by decide +kernel⟩

end NamespaceMigration
