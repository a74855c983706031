import NamespaceMigration.Proofs.Migration.Clearing
import NamespaceMigration.Proofs.Moving.Fallback
import NamespaceMigration.Proofs.FirstCome
import NamespaceMigration.Proofs.Planning.Spelling

/-! New names in the index of their project. What is found there for a new name stays, so that no name
moves twice. Only a type in a condition can have the name of another type that moves away. -/
namespace NamespaceMigration

theorem spaceParts_spaceOf {parts : List Text} (h : ∀ s ∈ parts, '\\' ∉ s) :
    spaceParts (spaceOf parts) = parts := by
  by_cases hnil : parts = []
  · rw [hnil]
    rfl
  · rw [spaceOf_of_ne_nil hnil]
    exact Text.splitOn_join h hnil

namespace PlanConfig

variable {c : PlanConfig} {own own' : Prop} {k k' : Component} {parts parts' : List Text}
  {short short' : Text} {kind : SymbolKind}

/-- A name is planned like another spelling of it: the ignore rules keep both of them or none, and the
new names are one name. -/
structure ReadsAlike (c : PlanConfig) (own : Prop) (old other : QualifiedName) : Prop where
  ignores : c.ignores old.space? = c.ignores other.space?
  plans : c.PlansAlike own (spaceParts old.space?) old.short (spaceParts other.space?) other.short

theorem ReadsAlike.refl (c : PlanConfig) (own : Prop) (n : QualifiedName) : c.ReadsAlike own n n :=
  ⟨rfl, rfl, rfl, fun _ => rfl, fun _ => rfl⟩

section Again

variable (hvalid : c.validate = .ok ()) (happend : c.append = false) (hk : c.Plans own k parts short)
include hvalid happend hk

/-- A new name is planned in the namespace that it is in. -/
theorem Plans.new_settled : (∀ s ∈ spaceParts k.new.space?, s ≠ [] ∧ '\\' ∉ s) ∧ '\\' ∉ k.new.short ∧
    k.new = nameIn (spaceParts k.new.space?) k.new.short ∧
    c.sharedParts (spaceParts k.new.space?) = spaceParts k.new.space? := by
  have hread {ps : List Text} {s : Text} (hps : ∀ t ∈ ps, t ≠ [] ∧ '\\' ∉ t) (hs : '\\' ∉ s)
      (hnew : k.new = nameIn ps s) : spaceParts k.new.space? = ps ∧ k.new.short = s := by
    rw [hnew, space?_nameIn hs, short_nameIn hs, spaceParts_spaceOf fun t ht => (hps t ht).2]
    exact ⟨rfl, rfl⟩
  by_cases ho : own
  · have hshort := And.intro (hk.ownShort ho) hk.short_plain
    have hps := (areSegments_typeParts hvalid hk.parts_plain hshort).plain
    have hs := (typeShort_plain hvalid hk.parts_plain hshort).2
    obtain ⟨hspace, hlast⟩ := hread hps hs (hk.ownNew ho)
    rw [hspace, hlast, sharedParts_of_ne_nil typeParts_ne_nil]
    exact ⟨hps, hs, hk.ownNew ho, newParts_typeParts happend⟩
  · have hps := sharedParts_plain hvalid hk.parts_plain
    obtain ⟨hspace, hlast⟩ := hread hps hk.short_plain (hk.sharedNew ho)
    rw [hspace, hlast]
    exact ⟨hps, hk.short_plain, hk.sharedNew ho, sharedParts_sharedParts happend⟩

/-- A declared symbol that has the new name of another one stays, unless it is a type and the other one
is none or has a reserved last part that is not settled. -/
theorem Plans.key_of_found (hk' : c.Plans own' k' parts' short') (hkind : own' → kind = .type)
    (hfound : k'.old.key kind = k.new.key kind)
    (halike : c.PlansAlike own' parts' short' (spaceParts k.new.space?) k.new.short)
    (hboth : own' → own ∧ ¬c.IsUnsettled (c.typeLead parts short) (c.typeLast parts short)) :
    k'.new.key kind = k.new.key kind := by
  obtain ⟨hps, hs, hnew, hshared⟩ := hk.new_settled hvalid happend
  by_cases ho' : own'
  · obtain ⟨ho, hsettled⟩ := hboth ho'
    have hkind := hkind ho'
    subst hkind
    have hshort := And.intro (hk.ownShort ho) hk.short_plain
    have hne : k.new.short ≠ [] := by
      rw [hk.ownNew ho, short_nameIn (typeShort_plain hvalid hk.parts_plain hshort).2]
      exact (typeShort_plain hvalid hk.parts_plain hshort).1
    have hagain : c.Plans own' ⟨k'.kind, k.new, c.newTypeName k.new⟩ (spaceParts k.new.space?)
        k.new.short :=
      { parts_plain := hps, short_plain := hs, old := hnew, ownShort := fun _ => hne
        ownNew := fun _ => by
          rw [← newTypeName_nameIn hvalid hps ⟨hne, hs⟩, ← hnew]
        sharedNew := fun hshared => absurd ho' hshared }
    have hstays := (key_newTypeName_iff hvalid happend hk.parts_plain hshort).mpr hsettled
    rw [← hk.ownNew ho] at hstays
    exact ((hk'.new_key_eq_iff hvalid (fun _ => rfl) hagain hfound).mpr halike).trans hstays.symm
  · have hagain : c.Plans own' ⟨k'.kind, k.new, k.new⟩ (spaceParts k.new.space?) k.new.short :=
      { parts_plain := hps, short_plain := hs, old := hnew, ownShort := fun h => absurd h ho'
        ownNew := fun h => absurd h ho'
        sharedNew := fun _ => by rw [hshared, ← hnew] }
    exact (hk'.new_key_eq_iff hvalid hkind hagain hfound).mpr halike

end Again

end PlanConfig

namespace FilePlan

variable {c : PlanConfig} {path t : Text} {d : Decision} {k : Component}

/-- A component is kept by an ignore rule, or its name is planned segment by segment. -/
theorem stays_or_plans (h : c.validate = .ok ()) (hd : d ∈ (ofText c path t).decisions)
    (hk : k ∈ d.components) : c.ignores k.old.space? ∧ k.new = k.old ∨
      (k.kind.isType ∧ d.isConditional = false → d.ignored = false) ∧
        c.Plans (k.kind.isType ∧ d.isConditional = false) k (spaceParts k.old.space?) k.old.short := by
  cases hignored : d.ignored with
  | false => exact Or.inr ⟨fun _ => rfl, plans_of_component h hd hignored hk⟩
  | true =>
    obtain ⟨hplanned, hnames⟩ := component_spec hd hk
    cases hnames with
    | @declared short hname hold =>
      have hspace : k.old.space? = d.oldSpace? := by
        rw [hold, space?_nameIn (isIdentifier_plain hname.short).2, spaceOf_spaceParts]
      have hrule : c.ignores k.old.space? := by rw [hspace, ← ignored_of_mem_decisions hd, hignored]
      rw [hplanned, PlanConfig.planned, if_pos hrule]
      exact Or.inl ⟨hrule, rfl⟩
    | runtime hconditional _ hold hnew =>
      have hshared : ¬(k.kind.isType ∧ d.isConditional = false) := fun hown => by
        rw [hconditional] at hown
        cases hown.2
      exact Or.inr ⟨fun hown => absurd hown hshared, .ofGlobal hold hnew hshared⟩

end FilePlan

namespace ProjectPlan

variable {c : PlanConfig} {root : Text} {sources : List (Text × Bytes)} {file : FilePlan}
  {d : Decision} {k : Component} {e : IndexEntry}

/-- What the index finds for the new name of a component is the component of a decision. That stays as it
is, unless it is a type of its own and the new name is that of a type in a condition. Left open are
names that are planned unlike another spelling of theirs, and reserved last parts that are not
settled. -/
theorem index_new_stays (hvalid : c.validate = .ok ()) (happend : c.append = false)
    (hfile : file ∈ (planSources root c sources).files) (hd : d ∈ file.decisions)
    (hk : k ∈ d.components)
    (hfound : (planSources root c sources).index.find? k.symbolKind k.new.text = some e) :
    ∃ file' ∈ (planSources root c sources).files, ∃ d' ∈ file'.decisions, ∃ k' ∈ d'.components,
      e.kind = k'.symbolKind ∧ e.old = k'.old ∧ e.new = k'.new ∧
      (c.ReadsAlike (k'.kind.isType ∧ d'.isConditional = false) e.old k.new →
        ¬(k.kind.isType ∧ d.isConditional = false ∧ d.ignored = false ∧
          c.IsUnsettled (c.typeLead (spaceParts k.old.space?) k.old.short)
            (c.typeLast (spaceParts k.old.space?) k.old.short)) →
        e.new.key e.kind = k.new.key k.symbolKind ∨
          k.kind.isType ∧ d.isConditional ∧ d'.isConditional = false ∧ e.new ≠ e.old) := by
  change (RenameIndex.ofFiles (planSources root c sources).files).find? _ _ = some e at hfound
  obtain ⟨hkind, hkey, -⟩ := find?_spec hfound
  obtain ⟨k', hk', hkind', hold', hnew'⟩ :=
    exists_entry_iff.mp ⟨e, List.mem_of_find?_eq_some hfound, hkind, rfl, rfl⟩
  obtain ⟨file', hfile', d', hd', hk'⟩ := mem_components.mp hk'
  refine ⟨file', hfile', d', hd', k', hk', hkind.trans hkind'.symm, hold'.symm, hnew'.symm, ?_⟩
  rw [← hnew', ← hold', hkind]
  rw [← hold'] at hkey
  intro halike hsettled
  by_cases hstays : k'.new = k'.old
  · rw [hstays]
    exact Or.inl hkey
  · obtain ⟨path, t, hd⟩ := exists_ofText_of_planned hfile hd
    obtain ⟨path', t', hd'⟩ := exists_ofText_of_planned hfile' hd'
    have hplans' := ((FilePlan.stays_or_plans hvalid hd' hk').resolve_left fun h => hstays h.2).2
    rcases FilePlan.stays_or_plans hvalid hd hk with ⟨hrule, hsame⟩ | ⟨hkept, hplans⟩
    · -- The rule that keeps the new name keeps the old one that is found.
      have hrule' : c.ignores k'.old.space? := by rw [halike.ignores, hsame, hrule]
      have hplanned := (FilePlan.component_spec hd' hk').1
      rw [PlanConfig.planned, if_pos hrule'] at hplanned
      exact absurd (congrArg Component.new hplanned) hstays
    · by_cases htwin : k.kind.isType ∧ d.isConditional ∧ d'.isConditional = false
      · exact Or.inr ⟨htwin.1, htwin.2.1, htwin.2.2, hstays⟩
      · refine Or.inl (hplans.key_of_found hvalid happend hplans' (fun hown' => ?_) hkey halike.plans
          fun hown' => ?_)
        · exact hkind' ▸ PlanConfig.isType_iff_symbolKind.mp hown'.1
        · have htype : k.kind.isType := PlanConfig.isType_iff_symbolKind.mpr
            (hkind'.symm.trans (PlanConfig.isType_iff_symbolKind.mp hown'.1))
          have hplain : d.isConditional = false := by
            cases hconditional : d.isConditional with
            | false => rfl
            | true => exact absurd ⟨htype, hconditional, hown'.2⟩ htwin
          exact ⟨⟨htype, hplain⟩, fun hunsettled =>
            hsettled ⟨htype, hplain, hkept ⟨htype, hplain⟩, hunsettled⟩⟩

/-- A type that is in its new namespace already. The index finds it for its new name. -/
def atHome : List (Text × Bytes) :=
  [("a.php", Text.toUtf8 "<?php class Foo_Bar \x7b\x7d"),
    ("b.php", Text.toUtf8 "<?php namespace Acme\\Foo; class Baz \x7b\x7d")]

def atHomeEntry : IndexEntry := ⟨.type, ⟨"Acme\\Foo\\Baz"⟩, ⟨"Acme\\Foo\\Baz"⟩, 1, 0⟩

theorem atHome_stays :
    (planSources "src" underscored atHome).index.find? .type "Acme\\Foo\\Baz" = some atHomeEntry ∧
      atHomeEntry.new.key atHomeEntry.kind = atHomeEntry.old.key .type := by
  let k : Component := ⟨.classLike .classDecl, ⟨"Acme\\Foo\\Baz"⟩, ⟨"Acme\\Foo\\Baz"⟩⟩
  obtain ⟨hfound, file, hfile, d, hd, hplain, hk⟩ :
      (planSources "src" underscored atHome).index.find? .type "Acme\\Foo\\Baz" = some atHomeEntry ∧
        ∃ file ∈ (planSources "src" underscored atHome).files, ∃ d ∈ file.decisions,
          d.isConditional = false ∧ k ∈ d.components := by decide +kernel
  obtain ⟨-, -, d', -, k', -, -, -, -, hstays⟩ :=
    index_new_stays underscored_validate rfl hfile hd hk (e := atHomeEntry) hfound
  have hsettled : ¬underscored.IsUnsettled (underscored.typeLead (spaceParts k.old.space?) k.old.short)
      (underscored.typeLast (spaceParts k.old.space?) k.old.short) := by decide +kernel
  rcases hstays (.refl _ _ _) (fun h => hsettled h.2.2.2) with hkey | ⟨-, hconditional, -⟩
  · exact ⟨hfound, hkey⟩
  · rw [hplain] at hconditional
    cases hconditional

/-- A type of its own, and a type in a condition that has the same name. The second one keeps the name,
and the index finds the first one there, which moves away. -/
def polyfill : List (Text × Bytes) :=
  [("a.php", Text.toUtf8 "<?php class Foo \x7b\x7d"),
    ("b.php", Text.toUtf8 "<?php if (!X) \x7b class Foo \x7b\x7d \x7d")]

theorem polyfill_moves :
    let p := planSources "src" (.ofLead "Acme") polyfill
    (PlanConfig.ofLead "Acme").validate = .ok () ∧ (PlanConfig.ofLead "Acme").append = false ∧
      p.errorCount = 0 ∧ ∃ file ∈ p.files, ∃ d ∈ file.decisions, ∃ k ∈ d.components,
        ∃ e ∈ p.index.find? k.symbolKind k.new.text, e.new.key e.kind ≠ k.new.key k.symbolKind := by
  decide +kernel

end ProjectPlan
end NamespaceMigration
