import Mathlib.Data.List.Induction
import NamespaceMigration.Proofs.Naming.Spelling

/-! Histories of name contexts. What the aliases of a scope are follows from the changes that were made: each
is there that was bound when it was free and not removed since, in the order of binding. Lookups of names
and the difference between two tables of aliases are exact on such contexts. -/
namespace NamespaceMigration

/-- A change of a name context. -/
inductive ContextStep where
  | define (name : Text) (kind : SymbolKind)
  | refer (short : Text) (kind : SymbolKind)
  | bind (target : QualifiedName) (short : Text) (kind : SymbolKind)
  | unbind (short : Text) (kind : SymbolKind)
  | retarget (short : Text) (kind : SymbolKind) (target : QualifiedName)

namespace ContextStep

/-- Makes a change. An alias that is taken is not bound again. -/
def apply (c : NameContext) : ContextStep → NameContext
  | define name kind => c.addDefinition name kind
  | refer short kind => c.addReference short kind
  | bind target short kind => (c.addAlias? target short kind).getD c
  | unbind short kind => c.removeAlias short kind
  | retarget short kind target => c.retarget short kind target

/-- The alias of a kind that a change binds. -/
def bound? (c : NameContext) (kind : SymbolKind) : ContextStep → Option AliasEntry
  | bind target short kind' => if kind' = kind ∧ ¬c.hasAlias short kind then some ⟨short, target⟩ else none
  | define .. | refer .. | unbind .. | retarget .. => none

/-- What a change makes of an alias of a kind that is there: it may remove it or give it a new target. -/
def onAlias? (kind : SymbolKind) (e : AliasEntry) : ContextStep → Option AliasEntry
  | unbind short kind' =>
    if kind' = kind ∧ aliasKey kind e.alias = aliasKey kind short then none else some e
  | retarget short kind' target =>
    if kind' = kind ∧ aliasKey kind e.alias = aliasKey kind short then some { e with target } else some e
  | define .. | refer .. | bind .. => some e

end ContextStep

namespace NameContext

/-- The context of a scope after some changes. -/
def after (space? : Option Text) (steps : List ContextStep) : NameContext :=
  steps.foldl ContextStep.apply (.empty space?)

/-- The alias that change number `i` binds, as all later changes leave it. -/
def survivor? (space? : Option Text) (steps : List ContextStep) (kind : SymbolKind) (i : Nat) :
    Option AliasEntry := do
  let step ← steps[i]?
  let e ← step.bound? (after space? (steps.take i)) kind
  (steps.drop (i + 1)).foldlM (fun e step => step.onAlias? kind e) e

variable {c : NameContext} {kind : SymbolKind} {space? : Option Text} {steps : List ContextStep}

/-- A change works on each alias that is there, and what it binds comes last. -/
theorem aliases_apply (c : NameContext) (kind : SymbolKind) (step : ContextStep) :
    (step.apply c).aliases.get kind =
      (c.aliases.get kind).filterMap (fun e => step.onAlias? kind e) ++ (step.bound? c kind).toList := by
  have hself (es : List AliasEntry) {step : ContextStep} (h : ∀ e, step.onAlias? kind e = some e) :
      es.filterMap (fun e => step.onAlias? kind e) = es := by
    rw [List.filterMap_congr fun e _ => h e, List.filterMap_some]
  cases step with
  | define name kind' =>
    rw [hself _ fun e => rfl]
    exact (List.append_nil _).symm
  | refer short kind' =>
    rw [hself _ fun e => rfl]
    exact (List.append_nil _).symm
  | bind target short kind' =>
    rw [hself _ fun e => rfl, ContextStep.apply, ContextStep.bound?]
    by_cases htaken : c.hasAlias short kind'
    · rw [addAlias?, if_pos htaken, Option.getD_none, if_neg, Option.toList_none, List.append_nil]
      rintro ⟨rfl, hfree⟩
      exact hfree htaken
    · rw [addAlias?, if_neg htaken, Option.getD_some, get_modify_append]
      by_cases hkind : kind' = kind
      · obtain rfl := hkind
        rw [if_pos rfl, if_pos ⟨rfl, htaken⟩, Option.toList_some]
      · rw [if_neg hkind, if_neg fun h => hkind h.1, Option.toList_none]
  | unbind short kind' =>
    rw [ContextStep.apply, ContextStep.bound?, Option.toList_none, List.append_nil, removeAlias,
      PerKind.get_modify]
    by_cases hkind : kind' = kind
    · obtain rfl := hkind
      rw [if_pos rfl, ← List.filterMap_eq_filter]
      refine List.filterMap_congr fun e _ => ?_
      by_cases hkey : aliasKey kind' e.alias = aliasKey kind' short
      · simp [ContextStep.onAlias?, Option.guard, hkey]
      · simp [ContextStep.onAlias?, Option.guard, hkey]
    · rw [if_neg hkind]
      exact (hself _ fun e => by rw [ContextStep.onAlias?, if_neg fun h => hkind h.1]).symm
  | retarget short kind' target =>
    rw [ContextStep.apply, ContextStep.bound?, Option.toList_none, List.append_nil, NameContext.retarget,
      PerKind.get_modify]
    by_cases hkind : kind' = kind
    · obtain rfl := hkind
      rw [if_pos rfl, ← List.filterMap_eq_map]
      refine List.filterMap_congr fun e _ => ?_
      by_cases hkey : aliasKey kind' e.alias = aliasKey kind' short
      · simp [ContextStep.onAlias?, hkey]
      · simp [ContextStep.onAlias?, hkey]
    · rw [if_neg hkind]
      exact (hself _ fun e => by rw [ContextStep.onAlias?, if_neg fun h => hkind h.1]).symm

theorem after_concat (space? : Option Text) (steps : List ContextStep) (step : ContextStep) :
    after space? (steps ++ [step]) = step.apply (after space? steps) := by
  rw [after, List.foldl_concat, after]

theorem survivor?_concat {i : Nat} (hi : i < steps.length) (step : ContextStep) :
    survivor? space? (steps ++ [step]) kind i =
      (survivor? space? steps kind i).bind fun e => step.onAlias? kind e := by
  rw [survivor?, survivor?, List.getElem?_append_left hi, List.take_append_of_le_length (Nat.le_of_lt hi),
    List.drop_append_of_le_length hi]
  simp only [Option.bind_eq_bind, List.foldlM_append, List.foldlM_cons, List.foldlM_nil, Option.bind_assoc,
    Option.pure_def, Option.bind_fun_some]

theorem survivor?_last (step : ContextStep) :
    survivor? space? (steps ++ [step]) kind steps.length = step.bound? (after space? steps) kind := by
  rw [survivor?, List.getElem?_concat_length, List.take_left, List.drop_of_length_le (by simp)]
  simp only [Option.bind_eq_bind, Option.bind_some, List.foldlM_nil, Option.pure_def, Option.bind_fun_some]

theorem aliases_after (space? : Option Text) (steps : List ContextStep) (kind : SymbolKind) :
    (after space? steps).aliases.get kind =
      (List.range steps.length).filterMap (survivor? space? steps kind) := by
  induction steps using List.reverseRecOn with
  | nil => exact PerKind.get_const [] kind
  | append_singleton steps step ih =>
    have hearlier : (List.range steps.length).filterMap (survivor? space? (steps ++ [step]) kind) =
        ((List.range steps.length).filterMap (survivor? space? steps kind)).filterMap
          fun e => step.onAlias? kind e := by
      rw [List.filterMap_filterMap]
      exact List.filterMap_congr fun i hi => survivor?_concat (List.mem_range.mp hi) step
    rw [after_concat, aliases_apply, ih, List.length_append, List.length_singleton, List.range_succ,
      List.filterMap_append, hearlier, List.filterMap_cons, survivor?_last]
    cases step.bound? (after space? steps) kind <;> rfl

theorem ContextStep.alias_onAlias? {step : ContextStep} {e e' : AliasEntry}
    (h : step.onAlias? kind e = some e') : e'.alias = e.alias := by
  cases step with
  | define | refer | bind =>
    obtain rfl := Option.some.inj h
    rfl
  | unbind short kind' =>
    rw [ContextStep.onAlias?] at h
    split at h
    · cases h
    · obtain rfl := Option.some.inj h
      rfl
  | retarget short kind' target =>
    rw [ContextStep.onAlias?] at h
    split at h <;> (obtain rfl := Option.some.inj h; rfl)

theorem keys_sublist (kind : SymbolKind) (step : ContextStep) (es : List AliasEntry) :
    ((es.filterMap fun e => step.onAlias? kind e).map (aliasKey kind ·.alias)).Sublist
      (es.map (aliasKey kind ·.alias)) := by
  induction es with
  | nil => exact .slnil
  | cons e es ih =>
    rw [List.filterMap_cons, List.map_cons]
    split
    · exact ih.cons _
    · rename_i e' he
      rw [List.map_cons, ContextStep.alias_onAlias? he]
      exact ih.cons_cons _

/-- No two aliases of a kind have one key. -/
theorem keys_nodup_after (space? : Option Text) (steps : List ContextStep) (kind : SymbolKind) :
    (((after space? steps).aliases.get kind).map (aliasKey kind ·.alias)).Nodup := by
  induction steps using List.reverseRecOn with
  | nil =>
    rw [after, List.foldl_nil, empty, PerKind.get_const]
    exact List.nodup_nil
  | append_singleton steps step ih =>
    rw [after_concat]
    generalize after space? steps = c at ih
    have hold := keys_sublist kind step (c.aliases.get kind)
    rw [aliases_apply, List.map_append]
    cases hnew : step.bound? c kind with
    | none => simpa using ih.sublist hold
    | some e =>
      have hfree : ¬c.hasAlias e.alias kind := by
        cases step with
        | bind target short kind' =>
          rw [ContextStep.bound?] at hnew
          split at hnew
          · rename_i h
            obtain rfl := Option.some.inj hnew
            exact h.2
          · cases hnew
        | define | refer | unbind | retarget => cases hnew
      refine (ih.sublist hold).append (List.nodup_singleton _) ?_
      rw [Option.toList_some, List.map_singleton, List.disjoint_singleton]
      intro hmem
      obtain ⟨e', he', hkey⟩ := List.mem_map.mp (hold.subset hmem)
      exact hfree (hasAlias_iff.mpr ⟨e', he', hkey⟩)

end NameContext

namespace QualifiedName

/-- The key of a name: that of its namespace, and that of its short name. -/
theorem key_eq {n : QualifiedName} (kind : SymbolKind) (hhead : n.text.head? ≠ some '\\') :
    n.key kind = match n.space? with
      | some space => Text.toLower space ++ '\\' :: aliasKey kind n.short
      | none => aliasKey kind n.short := by
  cases hspace : n.space? with
  | none =>
    have hplain := space?_eq_none_iff.mp hspace
    rw [key, lookupKey, dropBackslashes_of_not_mem hplain, Text.splitAtLast?_eq_none_iff.mpr hplain,
      ← text_of_space?_none hspace, aliasKey]
  | some space =>
    have htext := text_of_space?_some hspace
    have hown : space ≠ [] ∧ space.head? ≠ some '\\' := by
      rw [htext] at hhead
      cases space with
      | nil => simp at hhead
      | cons c space => exact ⟨List.cons_ne_nil c space, by simpa using hhead⟩
    rw [key, htext, key_of_space kind hown.2 hown.1 n.short_not_mem, aliasKey,
      Text.toLower_break isBreak_backslash]
    split <;> rfl

theorem join_parts {space? : Option Text} (hspace : ∀ s, space? = some s → IsSpace s) {short : Text}
    (hshort : '\\' ∉ short) : (join space? short).space? = space? ∧ (join space? short).short = short ∧
      (join space? short).text.head? ≠ some '\\' := by
  cases space? with
  | none =>
    rw [join_none hshort]
    have hnone : QualifiedName.space? ⟨short⟩ = none := space?_eq_none_iff.mpr hshort
    exact ⟨hnone, (text_of_space?_none hnone).symm, fun h => hshort (List.mem_of_mem_head? h)⟩
  | some s =>
    have hs := hspace s rfl
    have hsplit : Text.splitAtLast? '\\' (s ++ '\\' :: short) = some (s, short) :=
      Text.splitAtLast?_eq_some_iff.mpr ⟨rfl, hshort⟩
    rw [join_some hs hshort]
    refine ⟨by rw [QualifiedName.space?, hsplit]; rfl, by rw [QualifiedName.short, lastSegment, hsplit], ?_⟩
    exact hs.head_append _

/-- Two names have one key exactly if their namespaces have the same small forms, and their short names one
key. -/
theorem key_eq_iff {m n : QualifiedName} {kind : SymbolKind} (hm : m.text.head? ≠ some '\\')
    (hn : n.text.head? ≠ some '\\') : m.key kind = n.key kind ↔
      m.space?.map Text.toLower = n.space?.map Text.toLower ∧ aliasKey kind m.short = aliasKey kind n.short := by
  have hplain (l : QualifiedName) : '\\' ∉ aliasKey kind l.short := mem_aliasKey_iff.not.mpr l.short_not_mem
  have hapart (s : Text) (k l : QualifiedName) : Text.toLower s ++ '\\' :: aliasKey kind k.short ≠
      aliasKey kind l.short := by
    intro h
    exact hplain l (h ▸ List.mem_append_right _ List.mem_cons_self)
  rw [key_eq kind hm, key_eq kind hn]
  cases m.space? with
  | none =>
    cases n.space? with
    | none => simp
    | some space => exact iff_of_false (hapart space n m).symm (by simp)
  | some space =>
    cases n.space? with
    | none => exact iff_of_false (hapart space m n) (by simp)
    | some space' =>
      refine ⟨fun h => ?_, fun ⟨hspace, hshort⟩ => ?_⟩
      · have hleft := Text.splitAtLast?_eq_some_iff.mpr ⟨h, hplain n⟩
        rw [Text.splitAtLast?_eq_some_iff.mpr ⟨rfl, hplain m⟩] at hleft
        obtain ⟨hspace, hshort⟩ := Prod.mk.inj (Option.some.inj hleft)
        exact ⟨congrArg some hspace, hshort⟩
      · dsimp only
        rw [Option.some.inj hspace, hshort]

end QualifiedName

theorem map_toLower_of_sameSpace {a b : Option Text} (h : sameSpace a b) :
    a.map Text.toLower = b.map Text.toLower := by
  cases a with
  | none =>
    cases b with
    | none => rfl
    | some b => cases h
  | some a =>
    cases b with
    | none => cases h
    | some b => exact congrArg some (Text.toLower_eq_of_eqIgnoreCase h)

namespace NameContext

variable {c : NameContext} {kind : SymbolKind}

theorem isSpace_of_splitOn {space : Text} (h : [] ∉ space.splitOn '\\') : IsSpace space := by
  have hsegments : AreSegments (space.splitOn '\\') :=
    ⟨List.splitOn_ne_nil _ _, fun s hs => ⟨fun hnil => h (hnil ▸ hs), splitOn_not_mem '\\' space s hs⟩⟩
  have hspace := hsegments.isSpace
  rwa [Text.join_splitOn] at hspace

theorem IsPlain.resolve_alias (hc : c.IsPlain) {e : AliasEntry} (he : e ∈ c.aliases.get kind) :
    c.resolve e.alias kind = .resolved e.target := by
  rw [resolve_of_not_mem c (hc.segment kind e he), hc.findAlias?_eq he rfl]

section Lookup

variable (hc : c.IsPlain) {n : QualifiedName} (hn : n.text.head? ≠ some '\\')
include hc hn

/-- A short name that is found for a name means it. -/
theorem IsPlain.resolve_aliasFor? (hapart : ∀ e ∈ c.aliases.get kind, ¬c.defines e.alias kind) {short : Text}
    (h : c.aliasFor? n kind = some short) :
    ∃ m, c.resolve short kind = .resolved m ∧ m.key kind = n.key kind := by
  rw [aliasFor?] at h
  split at h
  · rename_i hown
    rw [Bool.and_eq_true] at hown
    obtain rfl := Option.some.inj h
    have hnone : c.findAlias? n.short kind = none := by
      refine List.find?_eq_none.mpr fun e he hkey => hapart e he ?_
      rw [defines_iff] at hown ⊢
      rw [show aliasKey kind e.alias = aliasKey kind n.short by simpa using hkey]
      exact hown.2
    refine Stands.resolve hc n.short_not_mem hn ?_
    rw [hnone]
    exact ⟨rfl, hown.1, .inr (.inr hown.2)⟩
  · obtain ⟨e, hfind, rfl⟩ := Option.map_eq_some_iff.mp h
    exact ⟨e.target, hc.resolve_alias (List.mem_of_find?_eq_some hfind), by simpa using List.find?_some hfind⟩

/-- Nothing is found for a name exactly if no alias means it, and all definitions of the scope that have its
key are in a namespace that is spelled with other letters. -/
theorem IsPlain.aliasFor?_eq_none_iff : c.aliasFor? n kind = none ↔
    (∀ e ∈ c.aliases.get kind, ∀ m, c.resolve e.alias kind = .resolved m → m.key kind ≠ n.key kind) ∧
      ∀ d ∈ c.definitions.get kind, '\\' ∉ d → (QualifiedName.join c.space? d).key kind = n.key kind →
        ¬sameSpace c.space? n.space? := by
  have halias : (c.aliases.get kind).find? (·.target.key kind == n.key kind) = none ↔
      ∀ e ∈ c.aliases.get kind, ∀ m, c.resolve e.alias kind = .resolved m → m.key kind ≠ n.key kind := by
    rw [List.find?_eq_none]
    refine forall₂_congr fun e he => ?_
    rw [hc.resolve_alias he]
    simp
  have hown : (sameSpace c.space? n.space? && c.defines n.short kind) = false ↔
      ∀ d ∈ c.definitions.get kind, '\\' ∉ d → (QualifiedName.join c.space? d).key kind = n.key kind →
        ¬sameSpace c.space? n.space? := by
    rw [Bool.and_eq_false_imp, ← Bool.not_eq_true (c.defines n.short kind), defines_iff]
    constructor
    · intro h d hd hplain hkey hsame
      obtain ⟨-, hshort, hhead⟩ := QualifiedName.join_parts hc.space hplain
      have hparts := ((QualifiedName.key_eq_iff hhead hn).mp hkey).2
      rw [hshort] at hparts
      exact h hsame ⟨d, hd, hparts⟩
    · rintro h hsame ⟨d, hd, hkey⟩
      have hplain : '\\' ∉ d := by
        have hkeyPlain : '\\' ∉ aliasKey kind d := hkey ▸ mem_aliasKey_iff.not.mpr n.short_not_mem
        exact mem_aliasKey_iff.not.mp hkeyPlain
      obtain ⟨hspace, hshort, hhead⟩ := QualifiedName.join_parts hc.space hplain
      refine h d hd hplain ((QualifiedName.key_eq_iff hhead hn).mpr ?_) hsame
      rw [hspace, hshort]
      exact ⟨map_toLower_of_sameSpace hsame, hkey⟩
  rw [aliasFor?, ← halias, ← hown]
  cases sameSpace c.space? n.space? && c.defines n.short kind <;> simp

end Lookup

/-- After any changes the aliases are those that were bound and are left, in the order of binding and each under
a key of its own. A short name that is found for a name means it. Where none is found no alias means the name,
and a definition of the scope has its key only if the two namespaces differ in letters beyond ASCII. -/
theorem aliasFor?_after (space? : Option Text) (steps : List ContextStep) {c : NameContext}
    (hc : c = after space? steps) (hspace : ∀ space, c.space? = some space → [] ∉ space.splitOn '\\')
    (hplain : ∀ kind, ∀ e ∈ c.aliases.get kind, '\\' ∉ e.alias)
    (hapart : ∀ kind, ∀ e ∈ c.aliases.get kind, ¬c.defines e.alias kind) (kind : SymbolKind) :
    c.aliases.get kind = (List.range steps.length).filterMap (survivor? space? steps kind) ∧
    ((c.aliases.get kind).map (aliasKey kind ·.alias)).Nodup ∧
    ∀ name : Text,
      (∀ short, c.aliasFor? (.ofText name) kind = some short →
        ∃ n, c.resolve short kind = .resolved n ∧ n.key kind = lookupKey kind name) ∧
      (c.aliasFor? (.ofText name) kind = none ↔
        (∀ e ∈ c.aliases.get kind, ∀ n, c.resolve e.alias kind = .resolved n →
          n.key kind ≠ lookupKey kind name) ∧
        ∀ d ∈ c.definitions.get kind, '\\' ∉ d →
          (QualifiedName.join c.space? d).key kind = lookupKey kind name →
          c.space?.map Text.toLower = (QualifiedName.ofText name).space?.map Text.toLower ∧
            ¬sameSpace c.space? (QualifiedName.ofText name).space?) := by
  have hunique (kind : SymbolKind) : ((c.aliases.get kind).map (aliasKey kind ·.alias)).Nodup :=
    hc ▸ keys_nodup_after space? steps kind
  have hcontext : c.IsPlain :=
    ⟨fun space h => isSpace_of_splitOn (hspace space h), hplain, hunique⟩
  refine ⟨hc ▸ aliases_after space? steps kind, hunique kind, fun name => ?_⟩
  have hhead := QualifiedName.ofText_text_head name
  rw [← QualifiedName.key_ofText]
  refine ⟨fun short h => hcontext.resolve_aliasFor? hhead (hapart kind) h,
    (hcontext.aliasFor?_eq_none_iff hhead).trans (and_congr_right fun _ => ?_)⟩
  refine forall₂_congr fun d _ => forall₂_congr fun hd hkey => (and_iff_right ?_).symm
  obtain ⟨hjoined, -, hjoinedHead⟩ := QualifiedName.join_parts hcontext.space hd
  exact hjoined ▸ ((QualifiedName.key_eq_iff hjoinedHead hhead).mp hkey).1

/-- A scope with an accented name, an import and a class. -/
def accented : List ContextStep :=
  [.bind ⟨"Vendor\\Foo"⟩ "Base" .type, .define "Foo" .type, .retarget "BASE" .type ⟨"Vendor\\Bar"⟩]

/-- The class is not found under the capital form of its namespace, though the name has its key. -/
theorem accented_aliasFor? :
    (after (some ['é']) accented).aliasFor? (.ofText "É\\Foo") .type = none ∧
      (QualifiedName.join (some ['é']) "Foo").key .type = lookupKey .type "É\\Foo" ∧
      ¬sameSpace (some ['é']) (some ['É']) := by
  have hlookup := ((aliasFor?_after (some ['é']) accented rfl
    (fun space hspace => by cases hspace; decide) (fun kind => by cases kind <;> decide)
    (fun kind => by cases kind <;> decide) .type).2.2 "É\\Foo").2
  have hkey : (QualifiedName.join (some ['é']) "Foo").key .type = lookupKey .type "É\\Foo" := by
    decide +kernel
  have hnone : (after (some ['é']) accented).aliasFor? (.ofText "É\\Foo") .type = none := by
    decide +kernel
  exact ⟨hnone, hkey, ((hlookup.mp hnone).2 "Foo" (by decide) (by decide) hkey).2⟩

end NameContext

/-- What counts of an alias: its key, and that of its target. -/
def AliasEntry.keys (kind : SymbolKind) (e : AliasEntry) : Text × Text :=
  (aliasKey kind e.alias, e.target.key kind)

/-- The aliases of a kind, as far as their spelling counts. -/
def AliasTable.keys (t : AliasTable) (kind : SymbolKind) : List (Text × Text) :=
  (t.get kind).map (·.keys kind)

theorem AliasEntry.same_iff {kind : SymbolKind} {a b : AliasEntry} :
    a.same kind b ↔ a.keys kind = b.keys kind := by
  rw [same, keys, keys, Bool.and_eq_true, beq_iff_eq, beq_iff_eq, Prod.mk.injEq]

namespace AliasDiff

variable {a b : AliasTable} {kind : SymbolKind} {e : AliasEntry}

theorem between_swap (a b : AliasTable) : between b a = ⟨(between a b).removed, (between a b).added⟩ := rfl

theorem added_sublist (a b : AliasTable) (kind : SymbolKind) :
    ((between a b).added.get kind).Sublist (b.get kind) := by
  rw [between, PerKind.get_ofFn]
  exact List.filter_sublist

theorem mem_added_iff : e ∈ (between a b).added.get kind ↔ e ∈ b.get kind ∧ e.keys kind ∉ a.keys kind := by
  rw [between, PerKind.get_ofFn, List.mem_filter, AliasTable.keys, Bool.not_eq_true', List.any_eq_false,
    List.mem_map, not_exists]
  refine and_congr_right fun _ => forall_congr' fun x => ?_
  rw [not_and, AliasEntry.same_iff]

theorem isEmpty_iff : (between a b).isEmpty ↔ ∀ kind key, key ∈ a.keys kind ↔ key ∈ b.keys kind := by
  have hadded (a b : AliasTable) (kind : SymbolKind) : (between a b).added.get kind = [] ↔
      ∀ key ∈ b.keys kind, key ∈ a.keys kind := by
    rw [List.eq_nil_iff_forall_not_mem, AliasTable.keys, List.forall_mem_map]
    simp only [mem_added_iff, not_and, Decidable.not_not]
  have hall : (between a b).isEmpty ↔
      ∀ kind, (between a b).added.get kind = [] ∧ (between b a).added.get kind = [] := by
    rw [isEmpty, List.all_eq_true]
    simp only [Bool.and_eq_true, List.isEmpty_iff]
    exact ⟨fun h kind => h kind (by cases kind <;> decide), fun h kind _ => h kind⟩
  rw [hall]
  refine forall_congr' fun kind => ?_
  rw [hadded, hadded]
  exact ⟨fun h key => ⟨h.2 key, h.1 key⟩, fun h => ⟨fun key => (h key).mpr, fun key => (h key).mp⟩⟩

end AliasDiff

namespace NameContext

/-- Unbinds the aliases of a kind that a difference removes, and binds those that it adds. -/
def redo? (c : NameContext) (d : AliasDiff) (kind : SymbolKind) : Option NameContext :=
  (d.added.get kind).foldlM (fun c e => c.addAlias? e.target e.alias kind)
    ((d.removed.get kind).foldl (fun c e => c.removeAlias e.alias kind) c)

variable {c : NameContext} {kind : SymbolKind}

theorem aliases_removeAll (es : List AliasEntry) :
    (es.foldl (fun c e => c.removeAlias e.alias kind) c).aliases.get kind =
      (c.aliases.get kind).filter fun a => aliasKey kind a.alias ∉ es.map (aliasKey kind ·.alias) := by
  induction es generalizing c with
  | nil => simp
  | cons e es ih =>
    rw [List.foldl_cons, ih, removeAlias, PerKind.get_modify, if_pos rfl, List.filter_filter]
    refine List.filter_congr fun a _ => ?_
    rw [Bool.eq_iff_iff]
    simp [and_comm]

/-- Aliases can all be bound if their keys are all free and different. -/
theorem addAll?_eq_some {es : List AliasEntry} (hnodup : (es.map (aliasKey kind ·.alias)).Nodup)
    (hfree : ∀ e ∈ es, ¬c.hasAlias e.alias kind) :
    ∃ c', es.foldlM (fun c e => c.addAlias? e.target e.alias kind) c = some c' ∧
      c'.aliases.get kind = c.aliases.get kind ++ es := by
  induction es generalizing c with
  | nil => exact ⟨c, rfl, (List.append_nil _).symm⟩
  | cons e es ih =>
    rw [List.forall_mem_cons] at hfree
    obtain ⟨hnew, hnodup⟩ := List.nodup_cons.mp hnodup
    have hadd : c.addAlias? e.target e.alias kind = some _ := addAlias?_eq_some_iff.mpr ⟨hfree.1, rfl⟩
    obtain ⟨c', hall, haliases⟩ := ih (c := { c with
        aliases := c.aliases.modify kind (· ++ [⟨e.alias, e.target⟩]) }) hnodup fun a ha halias => by
      obtain ⟨x, hx, hkey⟩ := hasAlias_iff.mp halias
      rw [get_modify_append, if_pos rfl, List.mem_append, List.mem_singleton] at hx
      rcases hx with hx | rfl
      · exact hfree.2 a ha (hasAlias_iff.mpr ⟨x, hx, hkey⟩)
      · exact hnew (List.mem_map.mpr ⟨a, ha, hkey.symm⟩)
    refine ⟨c', ?_, ?_⟩
    · rw [List.foldlM_cons, hadd]
      exact hall
    · rw [haliases, get_modify_append, if_pos rfl, List.append_assoc]
      rfl

/-- A difference leads from the earlier table to the later one. -/
theorem redo?_between {d : NameContext} (hc : ((c.aliases.get kind).map (aliasKey kind ·.alias)).Nodup)
    (hd : ((d.aliases.get kind).map (aliasKey kind ·.alias)).Nodup) :
    ∃ c', c.redo? (.between c.aliases d.aliases) kind = some c' ∧
      ∀ key, key ∈ c'.aliases.keys kind ↔ key ∈ d.aliases.keys kind := by
  let diff := AliasDiff.between c.aliases d.aliases
  have hadded {e : AliasEntry} : e ∈ diff.added.get kind ↔
      e ∈ d.aliases.get kind ∧ e.keys kind ∉ c.aliases.keys kind := AliasDiff.mem_added_iff
  have hremoved {e : AliasEntry} : e ∈ diff.removed.get kind ↔
      e ∈ c.aliases.get kind ∧ e.keys kind ∉ d.aliases.keys kind :=
    AliasDiff.mem_added_iff (a := d.aliases) (b := c.aliases)
  -- An alias is removed together with its key, since no other alias has it.
  have hkept {x : AliasEntry} (hx : x ∈ c.aliases.get kind) :
      aliasKey kind x.alias ∉ (diff.removed.get kind).map (aliasKey kind ·.alias) ↔
        x.keys kind ∈ d.aliases.keys kind := by
    rw [← not_iff_not, Decidable.not_not]
    constructor
    · intro hkey
      obtain ⟨r, hr, hkey⟩ := List.mem_map.mp hkey
      obtain ⟨hr, hlost⟩ := hremoved.mp hr
      rwa [← List.inj_on_of_nodup_map hc hr hx hkey]
    · exact fun hlost => List.mem_map_of_mem (hremoved.mpr ⟨hx, hlost⟩)
  obtain ⟨c', hredo, haliases⟩ := addAll?_eq_some
    (c := (diff.removed.get kind).foldl (fun c e => c.removeAlias e.alias kind) c)
    (hd.sublist ((AliasDiff.added_sublist _ _ kind).map _)) fun e he halias => by
      obtain ⟨x, hx, hkey⟩ := hasAlias_iff.mp halias
      rw [aliases_removeAll, List.mem_filter, decide_eq_true_eq] at hx
      obtain ⟨y, hy, hsame⟩ := List.mem_map.mp ((hkept hx.1).mp hx.2)
      obtain ⟨he, hnew⟩ := hadded.mp he
      obtain rfl := List.inj_on_of_nodup_map hd hy he ((Prod.mk.inj hsame).1.trans hkey)
      exact hnew (hsame ▸ List.mem_map_of_mem hx.1)
  refine ⟨c', hredo, fun key => ?_⟩
  rw [AliasTable.keys, haliases, aliases_removeAll, List.map_append, List.mem_append, List.mem_map,
    List.mem_map]
  constructor
  · rintro (⟨x, hx, rfl⟩ | ⟨x, hx, rfl⟩)
    · rw [List.mem_filter, decide_eq_true_eq] at hx
      exact (hkept hx.1).mp hx.2
    · exact List.mem_map_of_mem (hadded.mp hx).1
  · intro hkey
    obtain ⟨y, hy, rfl⟩ := List.mem_map.mp hkey
    by_cases hold : y.keys kind ∈ c.aliases.keys kind
    · obtain ⟨x, hx, hsame⟩ := List.mem_map.mp hold
      refine .inl ⟨x, List.mem_filter.mpr ⟨hx, ?_⟩, hsame⟩
      rw [decide_eq_true_eq, hkept hx, hsame]
      exact hkey
    · exact .inr ⟨y, hadded.mpr ⟨hy, hold⟩, rfl⟩

/-- The aliases after one gets a new target: that one has it, the others are as before. -/
theorem mem_retarget_iff (hc : ((c.aliases.get kind).map (aliasKey kind ·.alias)).Nodup) {short : Text}
    {target : QualifiedName} {e : AliasEntry} (he : c.findAlias? short kind = some e) {x : AliasEntry} :
    x ∈ (c.retarget short kind target).aliases.get kind ↔
      x = { e with target } ∨ x ∈ c.aliases.get kind ∧ x ≠ e := by
  have hmem : e ∈ c.aliases.get kind := List.mem_of_find?_eq_some he
  have hshort : aliasKey kind e.alias = aliasKey kind short := by simpa using List.find?_some he
  have hsame {y : AliasEntry} (hy : y ∈ c.aliases.get kind) :
      aliasKey kind y.alias = aliasKey kind short ↔ y = e :=
    ⟨fun hkey => List.inj_on_of_nodup_map hc hy hmem (hkey.trans hshort.symm), fun h => h ▸ hshort⟩
  rw [NameContext.retarget, PerKind.get_modify, if_pos rfl, List.mem_map]
  constructor
  · rintro ⟨y, hy, rfl⟩
    by_cases hkey : aliasKey kind y.alias = aliasKey kind short
    · rw [(hsame hy).mp hkey, if_pos (beq_iff_eq.mpr hshort)]
      exact .inl rfl
    · rw [if_neg (by simpa using hkey)]
      exact .inr ⟨hy, (hsame hy).not.mp hkey⟩
  · rintro (rfl | ⟨hx, hne⟩)
    · exact ⟨e, hmem, if_pos (beq_iff_eq.mpr hshort)⟩
    · exact ⟨x, hx, if_neg (by simpa using (hsame hx).not.mpr hne)⟩

end NameContext

namespace AliasDiff

/-- An alias with a new target is on both sides of the difference, unless the two targets have one key. -/
theorem between_retarget {c : NameContext} {kind : SymbolKind}
    (hc : ((c.aliases.get kind).map (aliasKey kind ·.alias)).Nodup) {short : Text} {target : QualifiedName}
    {e : AliasEntry} (he : c.findAlias? short kind = some e) (kind' : SymbolKind) (x : AliasEntry) :
    (x ∈ (between c.aliases (c.retarget short kind target).aliases).added.get kind' ↔
      kind = kind' ∧ x = { e with target } ∧ target.key kind ≠ e.target.key kind) ∧
    (x ∈ (between c.aliases (c.retarget short kind target).aliases).removed.get kind' ↔
      kind = kind' ∧ x = e ∧ target.key kind ≠ e.target.key kind) := by
  by_cases hkind : kind = kind'
  · obtain rfl := hkind
    have hmem : e ∈ c.aliases.get kind := List.mem_of_find?_eq_some he
    have hunique {y z : AliasEntry} (hy : y ∈ c.aliases.get kind) (hz : z ∈ c.aliases.get kind)
        (hkeys : y.keys kind = z.keys kind) : y = z :=
      List.inj_on_of_nodup_map hc hy hz (Prod.mk.inj hkeys).1
    have hnew : ({ e with target } : AliasEntry).keys kind ∉ c.aliases.keys kind ↔
        target.key kind ≠ e.target.key kind := by
      rw [← not_iff_not, Decidable.not_not, not_ne_iff, AliasTable.keys, List.mem_map]
      constructor
      · rintro ⟨y, hy, hkeys⟩
        obtain rfl := List.inj_on_of_nodup_map hc hy hmem (Prod.mk.inj hkeys).1
        exact (Prod.mk.inj hkeys).2.symm
      · exact fun hkey => ⟨e, hmem, congrArg (Prod.mk _) hkey.symm⟩
    have hold : e.keys kind ∉ (c.retarget short kind target).aliases.keys kind ↔
        target.key kind ≠ e.target.key kind := by
      rw [← not_iff_not, Decidable.not_not, not_ne_iff, AliasTable.keys, List.mem_map]
      constructor
      · rintro ⟨y, hy, hkeys⟩
        rcases (NameContext.mem_retarget_iff hc he).mp hy with rfl | ⟨hy, hne⟩
        · exact (Prod.mk.inj hkeys).2
        · exact absurd (hunique hy hmem hkeys) hne
      · exact fun hkey => ⟨_, (NameContext.mem_retarget_iff hc he).mpr (.inl rfl), congrArg (Prod.mk _) hkey⟩
    rw [mem_added_iff, NameContext.mem_retarget_iff hc he, and_iff_right rfl, and_iff_right rfl]
    constructor
    · constructor
      · rintro ⟨rfl | ⟨hx, -⟩, hfresh⟩
        · exact ⟨rfl, hnew.mp hfresh⟩
        · exact absurd (List.mem_map_of_mem hx) hfresh
      · rintro ⟨rfl, hkey⟩
        exact ⟨.inl rfl, hnew.mpr hkey⟩
    · refine (mem_added_iff (a := (c.retarget short kind target).aliases)).trans ?_
      constructor
      · rintro ⟨hx, hlost⟩
        have hxe : x = e := by
          by_contra hne
          exact hlost (List.mem_map_of_mem ((NameContext.mem_retarget_iff hc he).mpr (.inr ⟨hx, hne⟩)))
        exact ⟨hxe, hold.mp (hxe ▸ hlost)⟩
      · rintro ⟨rfl, hkey⟩
        exact ⟨hmem, hold.mpr hkey⟩
  · have hother : (c.retarget short kind target).aliases.get kind' = c.aliases.get kind' := by
      rw [NameContext.retarget, PerKind.get_modify, if_neg hkind]
    have hself {a b : AliasTable} (h : a.get kind' = b.get kind') : ¬x ∈ (between a b).added.get kind' := by
      rw [mem_added_iff, AliasTable.keys, h]
      exact fun ⟨hx, hfresh⟩ => hfresh (List.mem_map_of_mem hx)
    exact ⟨iff_of_false (hself hother.symm) fun h => hkind h.1,
      iff_of_false (hself hother) fun h => hkind h.1⟩

/-- The difference between the aliases after two histories. It has exactly the aliases that only one side has,
in the order of the tables; it leads from one table to the other; with the sides exchanged it is the difference
the other way; it is empty exactly if both tables have the same aliases. So an alias with a new target is on
both sides, unless its targets have one key. -/
theorem between_after (space? space'? : Option Text) (steps steps' : List ContextStep) :
    let c := NameContext.after space? steps
    let d := NameContext.after space'? steps'
    let diff := between c.aliases d.aliases
    (∀ kind, (diff.added.get kind).Sublist (d.aliases.get kind) ∧
      (diff.removed.get kind).Sublist (c.aliases.get kind) ∧
      ∀ e, (e ∈ diff.added.get kind ↔ e ∈ d.aliases.get kind ∧ e.keys kind ∉ c.aliases.keys kind) ∧
        (e ∈ diff.removed.get kind ↔ e ∈ c.aliases.get kind ∧ e.keys kind ∉ d.aliases.keys kind)) ∧
    (∀ kind, ∃ c', c.redo? diff kind = some c' ∧
      ∀ key, key ∈ c'.aliases.keys kind ↔ key ∈ d.aliases.keys kind) ∧
    between d.aliases c.aliases = ⟨diff.removed, diff.added⟩ ∧
    (diff.isEmpty ↔ ∀ kind key, key ∈ c.aliases.keys kind ↔ key ∈ d.aliases.keys kind) ∧
    ∀ short kind target e, c.findAlias? short kind = some e → ∀ kind' x,
      (x ∈ (between c.aliases (c.retarget short kind target).aliases).added.get kind' ↔
        kind = kind' ∧ x = { e with target } ∧ target.key kind ≠ e.target.key kind) ∧
      (x ∈ (between c.aliases (c.retarget short kind target).aliases).removed.get kind' ↔
        kind = kind' ∧ x = e ∧ target.key kind ≠ e.target.key kind) := by
  intro c d diff
  have hc (kind : SymbolKind) : ((c.aliases.get kind).map (aliasKey kind ·.alias)).Nodup :=
    NameContext.keys_nodup_after space? steps kind
  have hd (kind : SymbolKind) : ((d.aliases.get kind).map (aliasKey kind ·.alias)).Nodup :=
    NameContext.keys_nodup_after space'? steps' kind
  refine ⟨fun kind => ⟨added_sublist _ _ _, added_sublist _ _ _, fun e => ⟨mem_added_iff, ?_⟩⟩,
    fun kind => NameContext.redo?_between (hc kind) (hd kind), between_swap _ _, isEmpty_iff,
    fun short kind target e he => between_retarget (hc kind) he⟩
  exact mem_added_iff (a := d.aliases) (b := c.aliases)

end AliasDiff
end NamespaceMigration
