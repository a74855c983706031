import NamespaceMigration.Proofs.Importing.Meaning
import NamespaceMigration.Proofs.Rendering.RoundTrip

/-! What a bare name means in a file that is merged from others. Imports decide it: a name keeps its
meaning unless an import of another file is its alias, or its own import was left out. -/
namespace NamespaceMigration

namespace ImportItem

/-- The symbol that an import is bound to. -/
def entry (item : ImportItem) : AliasEntry := ⟨item.shortName, .ofText item.name⟩

/-- Whether an import binds a short name. -/
def binds (kind : SymbolKind) (name : Text) (item : ImportItem) : Bool :=
  item.kind == kind && aliasKey kind item.shortName == aliasKey kind name

end ImportItem

namespace NameContext

variable {kind : SymbolKind} {name : Text}

theorem findAlias?_addImport (c : NameContext) (item : ImportItem) :
    (c.addImport item).findAlias? name kind =
      (c.findAlias? name kind).or (if item.binds kind name then some item.entry else none) := by
  rw [addImport]
  cases hadd : c.addAlias? (.ofText item.name) item.shortName item.kind with
  | none =>
    rw [Option.getD_none]
    cases hfind : c.findAlias? name kind with
    | some e => rfl
    | none =>
      -- An alias that is taken is not the one that is looked for.
      have htaken : c.hasAlias item.shortName item.kind := by
        rw [addAlias?] at hadd
        split at hadd
        · assumption
        · cases hadd
      rw [Option.none_or, if_neg]
      intro hbinds
      obtain ⟨rfl, hkey⟩ : item.kind = kind ∧ aliasKey kind item.shortName = aliasKey kind name := by
        simpa [ImportItem.binds] using hbinds
      rw [hasAlias, findAlias?, hkey, ← findAlias?, hfind] at htaken
      cases htaken
  | some d =>
    obtain ⟨-, rfl⟩ := addAlias?_eq_some_iff.mp hadd
    rw [Option.getD_some, findAlias?, get_modify_append, List.find?_append, findAlias?]
    congr 1
    by_cases hkind : item.kind = kind
    · simp [ImportItem.binds, ImportItem.entry, hkind, List.find?_singleton]
    · simp [ImportItem.binds, hkind]

theorem findAlias?_addImports (items : List ImportItem) (c : NameContext) :
    (items.foldl addImport c).findAlias? name kind =
      (c.findAlias? name kind).or ((items.find? (·.binds kind name)).map ImportItem.entry) := by
  induction items generalizing c with
  | nil => rw [List.foldl_nil, List.find?_nil, Option.map_none, Option.or_none]
  | cons item items ih =>
    rw [List.foldl_cons, ih, findAlias?_addImport, Option.or_assoc, List.find?_cons]
    congr 1
    cases item.binds kind name <;> rfl

theorem addImports_frame (items : List ImportItem) (c : NameContext) :
    (items.foldl addImport c).space? = c.space? ∧
      (items.foldl addImport c).definitions = c.definitions := by
  refine List.foldlRecOn (motive := fun d : NameContext => d.space? = c.space? ∧
    d.definitions = c.definitions) items _ ⟨rfl, rfl⟩ fun d h item _ => ?_
  rw [addImport]
  cases hadd : d.addAlias? (.ofText item.name) item.shortName item.kind with
  | none => exact h
  | some e =>
    rw [(addAlias?_eq_some_iff.mp hadd).2]
    exact h

/-- A context with the names of some statements. -/
def addDefinitions (names : List (SymbolKind × Text)) (c : NameContext) : NameContext :=
  names.foldl (fun c (kind, name) => c.addDefinition name kind) c

theorem addDefinitions_frame (names : List (SymbolKind × Text)) (c : NameContext) :
    (c.addDefinitions names).space? = c.space? ∧ (c.addDefinitions names).aliases = c.aliases :=
  List.foldlRecOn (motive := fun d : NameContext => d.space? = c.space? ∧ d.aliases = c.aliases) names _
    ⟨rfl, rfl⟩ fun _ h _ _ => h

theorem defines_addDefinition (c : NameContext) (k : SymbolKind) (n : Text) :
    (c.addDefinition n k).defines name kind =
      (c.defines name kind || k == kind && aliasKey kind n == aliasKey kind name) := by
  rw [addDefinition, defines, PerKind.get_modify, defines]
  split
  · rename_i hkind
    rw [List.any_append, List.any_cons, List.any_nil, Bool.or_false, hkind, beq_self_eq_true,
      Bool.true_and]
  · rename_i hkind
    rw [beq_false_of_ne hkind, Bool.false_and, Bool.or_false]

theorem defines_addDefinitions (names : List (SymbolKind × Text)) (c : NameContext) :
    (c.addDefinitions names).defines name kind = (c.defines name kind ||
      names.any fun (k, n) => k == kind && aliasKey kind n == aliasKey kind name) := by
  induction names generalizing c with
  | nil => rw [List.any_nil, Bool.or_false, addDefinitions, List.foldl_nil]
  | cons entry names ih =>
    rw [addDefinitions, List.foldl_cons, ← addDefinitions, ih, defines_addDefinition, List.any_cons,
      Bool.or_assoc]

end NameContext

namespace Fragment

variable {f : Fragment} {kind : SymbolKind} {name : Text}

/-- What names mean among the statements of a fragment. -/
def context (f : Fragment) : NameContext :=
  (f.imports.foldl NameContext.addImport (.empty f.space?)).addDefinitions f.names

theorem foldl_addImport_congr {items others : List ImportItem}
    (h : items.map ImportItem.sense = others.map ImportItem.sense) (c : NameContext) :
    items.foldl NameContext.addImport c = others.foldl NameContext.addImport c := by
  have hsense (items : List ImportItem) : items.foldl NameContext.addImport c =
      (items.map ImportItem.sense).foldl (fun c (kind, name, short) =>
        (c.addAlias? (.ofText name) short kind).getD c) c := by
    rw [List.foldl_map]
    rfl
  rw [hsense, hsense, h]

/-- Whether a fragment declares a name. -/
def declares (f : Fragment) (kind : SymbolKind) (name : Text) : Bool :=
  f.names.any fun (k, n) => k == kind && aliasKey kind n == aliasKey kind name

/-- The import of a fragment that binds a name. -/
def import? (f : Fragment) (kind : SymbolKind) (name : Text) : Option ImportItem :=
  f.imports.find? (·.binds kind name)

/-- The symbol that a fragment imports under a name, up to its spelling. -/
def importKey? (f : Fragment) (kind : SymbolKind) (name : Text) : Option Text :=
  (f.import? kind name).map fun item => lookupKey kind item.name

/-- What a name means at the least in the namespace of a fragment, up to its spelling. -/
def hereKey (f : Fragment) (kind : SymbolKind) (name : Text) : Text :=
  (QualifiedName.join f.space? name).key kind

/-- Whether a name that is not imported means the symbol of the namespace for sure. -/
def IsSure (f : Fragment) (kind : SymbolKind) (name : Text) : Prop :=
  kind = .type ∨ f.space? = none ∨ f.declares kind name

instance : Decidable (f.IsSure kind name) := inferInstanceAs (Decidable (_ ∨ _))

theorem findAlias?_context : f.context.findAlias? name kind =
    (f.import? kind name).map ImportItem.entry := by
  rw [NameContext.findAlias?, context, (NameContext.addDefinitions_frame _ _).2, ← NameContext.findAlias?,
    NameContext.findAlias?_addImports, import?, NameContext.findAlias?, NameContext.empty,
    PerKind.get_const, List.find?_nil, Option.none_or]

theorem space?_context : f.context.space? = f.space?.filter (!·.isEmpty) := by
  rw [context, (NameContext.addDefinitions_frame _ _).1, (NameContext.addImports_frame _ _).1,
    NameContext.empty]

theorem defines_context : f.context.defines name kind = f.declares kind name := by
  rw [context, NameContext.defines_addDefinitions, NameContext.defines,
    (NameContext.addImports_frame _ _).2, NameContext.empty, PerKind.get_const, List.any_nil,
    Bool.false_or, declares]

theorem IsWritable.context_space (h : f.IsWritable) : f.context.space? = f.space? := by
  rw [space?_context]
  cases hspace : f.space? with
  | none => rfl
  | some name => exact Option.filter_some_pos (by simpa using (h.space name hspace).isName.ne_nil)

theorem IsWritable.resolve_context (h : f.IsWritable) (hname : '\\' ∉ name) :
    f.context.resolve name kind =
      match f.import? kind name with
      | some item => .resolved (.ofText item.name)
      | none =>
        if f.IsSure kind name then .resolved (.join f.space? name)
        else .fallback (.join f.space? name) (.ofText name) := by
  rw [NameContext.resolve_of_not_mem _ hname, findAlias?_context, h.context_space, defines_context]
  cases f.import? kind name <;> rfl

theorem IsWritable.context_render (h : f.IsWritable) {s : Scope}
    (hs : s ∈ (SourceFile.parse f.render).scopes) :
    (SourceFile.parse f.render).context s = f.context := by
  obtain ⟨s', parts, hspace, hrow, hmade⟩ := h.exists_isRow
  rw [hrow.scopes, List.mem_singleton] at hs
  subst hs
  rw [SourceFile.context, hrow.names, hmade.names, hspace,
    foldl_addImport_congr (hrow.senses.trans hmade.imports)]
  rfl

end Fragment

/-- A name means the same in two spellings of a namespace. -/
theorem QualifiedName.key_join_of_sameSpace {a? b? : Option Text} (ha : ∀ space, a? = some space → IsSpace space)
    (hb : ∀ space, b? = some space → IsSpace space) (h : sameSpace a? b?) {name : Text}
    (hname : '\\' ∉ name) (kind : SymbolKind) : (join a? name).key kind = (join b? name).key kind := by
  cases b? with
  | none =>
    cases a? with
    | none => rfl
    | some space => cases h
  | some space =>
    have hsplit : Text.splitAtLast? '\\' (join (some space) name).text = some (space, name) := by
      rw [join_some (hb space rfl) hname]
      exact Text.splitAtLast?_eq_some_iff.mpr ⟨rfl, hname⟩
    have hshort : (join (some space) name).short = name := by
      rw [short, lastSegment, hsplit]
    have hspace : (join (some space) name).space? = some space := by
      rw [space?, hsplit, Option.map_some]
    have hhead : (join (some space) name).text.head? ≠ some '\\' := by
      obtain ⟨c, u, rfl⟩ := List.exists_cons_of_ne_nil (hb space rfl).ne_nil
      rw [join_some (hb _ rfl) hname]
      exact (hb _ rfl).head
    have hkey := join_short_key kind ha hhead (by rw [hspace]; exact h)
    rwa [hshort] at hkey

/-- A meaning that is kept: the same symbol, or the same two. If the one of the namespace is declared now,
it may be that one instead of either. -/
def Resolution.IsKept (kind : SymbolKind) (declared : Prop) : (before after : Resolution) → Prop
  | .resolved n, .resolved n' => n.key kind = n'.key kind
  | .fallback here global, .fallback here' global' =>
    here.key kind = here'.key kind ∧ global.key kind = global'.key kind
  | .fallback here _, .resolved n => declared ∧ here.key kind = n.key kind
  | .resolved _, .fallback _ _ => False

namespace Fragment

variable {f g : Fragment} {kind : SymbolKind} {name : Text}

/-- Between fragments of one namespace a bare name keeps its meaning exactly if it is imported alike, or
if what is imported is what the name means for sure without the import. -/
theorem isKept_iff (hf : f.IsWritable) (hg : g.IsWritable) {declared : Prop}
    (hhere : g.hereKey kind name = f.hereKey kind name)
    (hsure : f.IsSure kind name ↔ g.IsSure kind name ∨ declared) (hname : '\\' ∉ name) :
    Resolution.IsKept kind declared (g.context.resolve name kind) (f.context.resolve name kind) ↔
      g.importKey? kind name = f.importKey? kind name ∨
        (g.importKey? kind name).getD (g.hereKey kind name) =
          (f.importKey? kind name).getD (f.hereKey kind name) ∧ f.IsSure kind name := by
  have hkey (item : ImportItem) : (QualifiedName.ofText item.name).key kind = lookupKey kind item.name :=
    QualifiedName.key_ofText kind item.name
  rw [hg.resolve_context hname, hf.resolve_context hname, importKey?, importKey?]
  cases hgi : g.import? kind name with
  | some i =>
    cases hfi : f.import? kind name with
    | some j =>
      simp only [Resolution.IsKept, hkey, Option.map_some, Option.some.injEq, Option.getD_some]
      exact ⟨Or.inl, fun h => h.elim id And.left⟩
    | none =>
      by_cases hf : f.IsSure kind name
      · simp [Resolution.IsKept, hkey, hf, hereKey]
      · simp [Resolution.IsKept, hf]
  | none =>
    cases hfi : f.import? kind name with
    | some j =>
      by_cases hg : g.IsSure kind name
      · simp [Resolution.IsKept, hkey, hg, hsure, hereKey]
      · simp [Resolution.IsKept, hkey, hg, hsure, hereKey, and_comm]
    | none =>
      have hhere' : (QualifiedName.join g.space? name).key kind =
        (QualifiedName.join f.space? name).key kind := hhere
      by_cases hg : g.IsSure kind name
      · simp [Resolution.IsKept, hg, hsure, hhere']
      · by_cases hdeclared : declared
        · simp [Resolution.IsKept, hg, hsure, hdeclared, hhere']
        · simp [Resolution.IsKept, hg, hsure, hdeclared, hhere']

theorem names_merge {a b : Fragment} (h : a.merge b = .ok f) : f.names = a.names ++ b.names := by
  obtain ⟨-, directives, -, rfl⟩ := merge_eq_ok h
  exact List.flatMap_append

theorem hereKey_merge {a b : Fragment} (ha : a.IsWritable) (hb : b.IsWritable) (h : a.merge b = .ok f)
    (hname : '\\' ∉ name) :
    a.hereKey kind name = f.hereKey kind name ∧ b.hereKey kind name = f.hereKey kind name := by
  obtain ⟨hsame, directives, -, rfl⟩ := merge_eq_ok h
  refine ⟨rfl, ?_⟩
  have hspaces (s : Fragment) (hs : s.IsWritable) : ∀ space, s.space? = some space → IsSpace space :=
    fun space h => (hs.space space h).isName.isSpace
  exact (QualifiedName.key_join_of_sameSpace (hspaces a ha) (hspaces b hb) hsame hname kind).symm

theorem isSure_merge {a b : Fragment} (h : a.merge b = .ok f) :
    (f.IsSure kind name ↔ a.IsSure kind name ∨ b.declares kind name) ∧
      (f.IsSure kind name ↔ b.IsSure kind name ∨ a.declares kind name) := by
  have hdeclares : f.declares kind name = (a.declares kind name || b.declares kind name) := by
    rw [declares, names_merge h, List.any_append, declares, declares]
  obtain ⟨hsame, directives, -, rfl⟩ := merge_eq_ok h
  have hnone : a.space? = none ↔ b.space? = none := by
    revert hsame
    cases a.space? <;> cases b.space? <;> simp [sameSpace]
  rw [IsSure, IsSure, IsSure, hdeclares, ← hnone, Bool.or_eq_true]
  constructor <;> tauto

/-- A bare name of one of two fragments keeps its meaning in the file that they are merged into exactly if
it is imported alike there, or if what is imported is what the name means for sure without the import. -/
theorem merge_keeps_meaning_iff {a b other : Fragment} (ha : a.IsWritable) (hb : b.IsWritable)
    (h : a.merge b = .ok f) (hg : g = a ∧ other = b ∨ g = b ∧ other = a) {s s' : Scope}
    (hs : s ∈ (SourceFile.parse g.render).scopes) (hs' : s' ∈ (SourceFile.parse f.render).scopes)
    (kind : SymbolKind) (hname : '\\' ∉ name) :
    Resolution.IsKept kind (other.declares kind name)
        (((SourceFile.parse g.render).context s).resolve name kind)
        (((SourceFile.parse f.render).context s').resolve name kind) ↔
      g.importKey? kind name = f.importKey? kind name ∨
        (g.importKey? kind name).getD (g.hereKey kind name) =
          (f.importKey? kind name).getD (f.hereKey kind name) ∧ f.IsSure kind name := by
  have hf : f.IsWritable := ha.merge hb h
  rw [hf.context_render hs']
  rcases hg with ⟨rfl, rfl⟩ | ⟨rfl, rfl⟩
  · rw [ha.context_render hs]
    exact isKept_iff hf ha (hereKey_merge ha hb h hname).1 (isSure_merge h).1 hname
  · rw [hb.context_render hs]
    exact isKept_iff hf hb (hereKey_merge ha hb h hname).2 (isSure_merge h).2 hname

end Fragment

/-- A file calls a global function, and another file imports a namesake of it. -/
def callsGlobal : Fragment :=
  ⟨[], some "Acme", [], ["function a() \x7b return strlen('x'); \x7d"]⟩

def importsNamesake : Fragment :=
  ⟨[], some "Acme", [⟨.function, "Vendor\\strlen", none, 10, none⟩],
    ["function b() \x7b return \\Vendor\\strlen('y'); \x7d"]⟩

def callsNamesake : Fragment :=
  ⟨[], some "Acme", importsNamesake.imports, callsGlobal.body ++ importsNamesake.body⟩

/-- Afterwards the call means the namesake. -/
theorem callsNamesake_changes_meaning :
    ∃ s ∈ (SourceFile.parse callsGlobal.render).scopes,
      ∃ s' ∈ (SourceFile.parse callsNamesake.render).scopes,
        ¬Resolution.IsKept .function (importsNamesake.declares .function "strlen")
          (((SourceFile.parse callsGlobal.render).context s).resolve "strlen" .function)
          (((SourceFile.parse callsNamesake.render).context s').resolve "strlen" .function) := by
  obtain ⟨hglobal, hregular⟩ :
      Fragment.ofText ("<?php\nnamespace Acme;\nfunction a() \x7b return strlen('x'); \x7d" : Text) =
        .ok callsGlobal ∧ callsGlobal.IsRegular := by decide +kernel
  have hglobal := Fragment.isWritable_ofText hglobal hregular
  obtain ⟨hnamesake, hregular⟩ :
      Fragment.ofText ("<?php\nnamespace Acme;\nuse function Vendor\\strlen;\n" ++
        "function b() \x7b return \\Vendor\\strlen('y'); \x7d" : Text) = .ok importsNamesake ∧
        importsNamesake.IsRegular := by decide +kernel
  have hnamesake := Fragment.isWritable_ofText hnamesake hregular
  have hmerge : callsGlobal.merge importsNamesake = .ok callsNamesake := by decide +kernel
  obtain ⟨s, _, _, hrow, _⟩ := hglobal.exists_isRow
  obtain ⟨s', _, _, hrow', _⟩ := (hglobal.merge hnamesake hmerge).exists_isRow
  have hs : s ∈ (SourceFile.parse callsGlobal.render).scopes := hrow.scopes ▸ List.mem_singleton_self s
  have hs' : s' ∈ (SourceFile.parse callsNamesake.render).scopes :=
    hrow'.scopes ▸ List.mem_singleton_self s'
  refine ⟨s, hs, s', hs', ?_⟩
  rw [Fragment.merge_keeps_meaning_iff hglobal hnamesake hmerge (.inl ⟨rfl, rfl⟩) hs hs' .function
    (by decide)]
  decide +kernel

end NamespaceMigration
