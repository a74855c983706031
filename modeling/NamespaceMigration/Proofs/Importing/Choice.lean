import NamespaceMigration.Adaptation.Imported
import NamespaceMigration.Proofs.Naming.Alias

/-! How the imports of a scope are chosen, step by step. A short name that is fixed once, as an alias
in use or as a name that is taken, stays so: later aliases go by other names. -/
namespace NamespaceMigration
namespace ImportChoice

/-- What holds while imports are chosen, from the context at the start on: the scope stays, aliases
are only added, and none goes by a name that is defined or taken. -/
structure Sound (start : NameContext) (c : ImportChoice) : Prop where
  plain : c.context.IsPlain
  space : c.context.space? = start.space?
  definitions : c.context.definitions = start.definitions
  undefined : ∀ kind, ∀ e ∈ c.context.aliases.get kind, ¬c.context.defines e.alias kind
  unreferred : ∀ kind, ∀ e ∈ c.context.aliases.get kind, ¬c.context.refers e.alias kind

/-- A later choice has all aliases, all names that are taken and all marks of an earlier one. -/
structure Extends (c d : ImportChoice) : Prop where
  definitions : d.context.definitions = c.context.definitions
  aliases : ∀ kind, ∀ e ∈ c.context.aliases.get kind, e ∈ d.context.aliases.get kind
  references : ∀ kind, ∀ key ∈ c.context.references.get kind, key ∈ d.context.references.get kind
  used : ∀ mark ∈ c.used, mark ∈ d.used

/-- A short name is settled: it is an alias in use, or it is defined or taken. -/
def Fixes (c : ImportChoice) (short : Text) (kind : SymbolKind) : Option AliasEntry → Prop
  | some e => e ∈ c.context.aliases.get kind ∧ aliasKey kind e.alias = aliasKey kind short ∧
      c.isUsed kind e
  | none => c.context.defines short kind ∨ c.context.refers short kind

/-- The context of the start with the aliases that are printed: those in use. -/
def printed (start : NameContext) (c : ImportChoice) : NameContext :=
  { start with aliases := .ofFn fun kind => (c.context.aliases.get kind).filter (c.isUsed kind) }

variable {start : NameContext} {c d : ImportChoice}

theorem isUsed_iff {kind : SymbolKind} {e : AliasEntry} :
    c.isUsed kind e ↔ (kind, aliasKey kind e.alias) ∈ c.used := by
  simp [isUsed]

theorem refers_iff {context : NameContext} {short : Text} {kind : SymbolKind} :
    context.refers short kind ↔ aliasKey kind short ∈ context.references.get kind := by
  simp [NameContext.refers]

namespace Extends

theorem refl (c : ImportChoice) : c.Extends c :=
  ⟨rfl, fun _ _ h => h, fun _ _ h => h, fun _ h => h⟩

theorem trans {e : ImportChoice} (h : c.Extends d) (h' : d.Extends e) : c.Extends e where
  definitions := h'.definitions.trans h.definitions
  aliases kind a ha := h'.aliases kind a (h.aliases kind a ha)
  references kind key hk := h'.references kind key (h.references kind key hk)
  used mark hm := h'.used mark (h.used mark hm)

theorem fixes (h : c.Extends d) {short : Text} {kind : SymbolKind} {e? : Option AliasEntry}
    (hf : c.Fixes short kind e?) : d.Fixes short kind e? := by
  cases e? with
  | some e =>
    obtain ⟨he, hkey, hused⟩ := hf
    exact ⟨h.aliases kind e he, hkey, isUsed_iff.mpr (h.used _ (isUsed_iff.mp hused))⟩
  | none =>
    rcases hf with hf | hf
    · left
      rw [NameContext.defines_iff] at hf ⊢
      rwa [h.definitions]
    · right
      rw [refers_iff] at hf ⊢
      exact h.references kind _ hf

end Extends

@[simp] theorem printed_space? : (c.printed start).space? = start.space? := rfl

@[simp] theorem printed_definitions : (c.printed start).definitions = start.definitions := rfl

theorem printed_stands {short : Text} {kind : SymbolKind} {name : QualifiedName} {e? : Option AliasEntry} :
    (c.printed start).Stands short kind name e? ↔ start.Stands short kind name e? := by
  cases e? <;> exact Iff.rfl

theorem sound_start (hplain : start.IsPlain) (hnone : start.references = .const [])
    (hapart : ∀ kind, ∀ e ∈ start.aliases.get kind, ¬start.defines e.alias kind) : Sound start ⟨start, []⟩ where
  plain := hplain
  space := rfl
  definitions := rfl
  undefined := hapart
  unreferred kind e _ hr := by
    rw [refers_iff, hnone, PerKind.get_const] at hr
    cases hr

theorem printed_isPlain (h : c.Sound start) : (c.printed start).IsPlain where
  space space hs := h.plain.space space (h.space.trans hs)
  segment kind e he := by
    rw [printed, PerKind.get_ofFn] at he
    exact h.plain.segment kind e (List.mem_of_mem_filter he)
  unique kind := by
    rw [printed, PerKind.get_ofFn]
    exact (h.plain.unique kind).sublist (List.filter_sublist.map _)

theorem not_mem_printed {kind : SymbolKind} {short : Text}
    (h : ∀ e ∈ c.context.aliases.get kind, aliasKey kind e.alias ≠ aliasKey kind short) :
    (c.printed start).findAlias? short kind = none := by
  refine List.find?_eq_none.mpr fun e he => ?_
  rw [printed, PerKind.get_ofFn] at he
  simpa using h e (List.mem_of_mem_filter he)

/-- What is fixed is what is found among the aliases that are printed. -/
theorem Sound.findAlias?_printed (h : c.Sound start) {short : Text} {kind : SymbolKind}
    {e? : Option AliasEntry} (hf : c.Fixes short kind e?) :
    (c.printed start).findAlias? short kind = e? := by
  cases e? with
  | some e =>
    obtain ⟨he, hkey, hused⟩ := hf
    refine (printed_isPlain h).findAlias?_eq ?_ hkey
    rw [printed, PerKind.get_ofFn]
    exact List.mem_filter.mpr ⟨he, hused⟩
  | none =>
    refine not_mem_printed fun e he hkey => ?_
    rcases hf with hf | hf
    · refine h.undefined kind e he ?_
      rw [NameContext.defines_iff] at hf ⊢
      rwa [hkey]
    · refine h.unreferred kind e he ?_
      rw [refers_iff] at hf ⊢
      rwa [hkey]

theorem Sound.markUsed (h : c.Sound start) (short : Text) (kind : SymbolKind) :
    (c.markUsed short kind).Sound start := ⟨h.plain, h.space, h.definitions, h.undefined, h.unreferred⟩

theorem extends_markUsed (c : ImportChoice) (short : Text) (kind : SymbolKind) :
    c.Extends (c.markUsed short kind) :=
  ⟨rfl, fun _ _ he => he, fun _ _ hk => hk, fun _ hm => List.mem_cons_of_mem _ hm⟩

theorem fixes_markUsed {short : Text} {kind : SymbolKind} {e : AliasEntry}
    (he : e ∈ c.context.aliases.get kind) (hkey : aliasKey kind e.alias = aliasKey kind short) :
    (c.markUsed short kind).Fixes short kind (some e) := by
  refine ⟨he, hkey, isUsed_iff.mpr ?_⟩
  rw [hkey]
  exact List.mem_cons_self

theorem references_addReference (context : NameContext) (short : Text) (kind kind' : SymbolKind) :
    (context.addReference short kind).references.get kind' =
      context.references.get kind' ++ if kind = kind' then [aliasKey kind short] else [] := by
  rw [NameContext.addReference, PerKind.get_modify]
  split
  · rfl
  · rw [List.append_nil]

theorem Sound.addReference (h : c.Sound start) {short : Text} {kind : SymbolKind}
    (hfree : ¬c.context.hasAlias short kind) :
    Sound start { c with context := c.context.addReference short kind } := by
  refine ⟨⟨h.plain.space, h.plain.segment, h.plain.unique⟩, h.space, h.definitions, h.undefined, ?_⟩
  intro kind' e he hr
  rw [refers_iff, references_addReference, List.mem_append] at hr
  rcases hr with hr | hr
  · exact h.unreferred kind' e he (refers_iff.mpr hr)
  · split at hr
    · rename_i hkind
      subst hkind
      exact hfree (NameContext.hasAlias_iff.mpr ⟨e, he, List.mem_singleton.mp hr⟩)
    · simp at hr

theorem extends_addReference (c : ImportChoice) (short : Text) (kind : SymbolKind) :
    c.Extends { c with context := c.context.addReference short kind } := by
  refine ⟨rfl, fun _ _ he => he, fun kind' key hk => ?_, fun _ hm => hm⟩
  rw [references_addReference]
  exact List.mem_append_left _ hk

theorem fixes_addReference (c : ImportChoice) (short : Text) (kind : SymbolKind) :
    Fixes { c with context := c.context.addReference short kind } short kind none := by
  right
  rw [refers_iff, references_addReference, if_pos rfl]
  exact List.mem_append_right _ (List.mem_singleton_self _)

/-- A new alias goes by nothing that the scope has, so all that holds stays. -/
theorem Sound.addAlias (h : c.Sound start) (name : QualifiedName) {short : Text} {kind : SymbolKind}
    (hfree : c.context.isFree short kind) (hshort : '\\' ∉ short) :
    ∃ context, c.context.addAlias? name short kind = some context ∧
      Sound start { c with context } ∧ c.Extends { c with context } ∧
      ⟨short, name⟩ ∈ context.aliases.get kind := by
  obtain ⟨⟨halias, hdef⟩, href⟩ : (¬c.context.hasAlias short kind ∧
      ¬c.context.defines short kind) ∧ ¬c.context.refers short kind := by
    simpa [NameContext.isFree] using hfree
  have hadd : c.context.addAlias? name short kind =
      some { c.context with aliases := c.context.aliases.modify kind (· ++ [⟨short, name⟩]) } :=
    NameContext.addAlias?_eq_some_iff.mpr ⟨halias, rfl⟩
  have hplain := NameContext.addAlias?_isPlain h.plain hshort hadd
  have hnew {kind' : SymbolKind} {e : AliasEntry}
      (he : e ∈ (c.context.aliases.modify kind (· ++ [⟨short, name⟩])).get kind') :
      e ∈ c.context.aliases.get kind' ∨ (kind = kind' ∧ e = ⟨short, name⟩) := by
    rw [NameContext.get_modify_append, List.mem_append] at he
    refine he.imp_right fun he => ?_
    split at he
    · rename_i hkind
      exact ⟨hkind, List.mem_singleton.mp he⟩
    · simp at he
  refine ⟨_, hadd, ⟨hplain, h.space, h.definitions, ?_, ?_⟩,
    ⟨rfl, ?_, fun _ _ hk => hk, fun _ hm => hm⟩, ?_⟩
  · intro kind' e he
    rcases hnew he with he | ⟨rfl, rfl⟩
    · exact h.undefined kind' e he
    · exact hdef
  · intro kind' e he
    rcases hnew he with he | ⟨rfl, rfl⟩
    · exact h.unreferred kind' e he
    · exact href
  · intro kind' e he
    rw [NameContext.get_modify_append]
    exact List.mem_append_left _ he
  · rw [NameContext.get_modify_append, if_pos rfl]
    exact List.mem_append_right _ (List.mem_singleton_self _)

end ImportChoice
end NamespaceMigration
