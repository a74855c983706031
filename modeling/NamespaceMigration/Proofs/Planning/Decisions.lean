import NamespaceMigration.Plan.Project
import NamespaceMigration.Proofs.Planning.Declared

/-! Where decisions come from. Every decision of a plan is made for one declaration of the text; a type
has one declared name and a file of its own, and all other declarations go to shared files. -/
namespace NamespaceMigration

namespace PlanConfig

/-- The component of a declared name. -/
def planned (c : PlanConfig) (kind : DeclarationKind) (old : QualifiedName) (conditional : Bool) :
    Component :=
  ⟨kind, old, if c.ignores old.space? then old else c.newName kind old conditional⟩

theorem planned_isRenamed_iff {c : PlanConfig} {kind : DeclarationKind} {old : QualifiedName}
    {conditional : Bool} :
    (c.planned kind old conditional).isRenamed ↔ c.ignores old.space? = false ∧
      old.key kind.symbolKind ≠ (c.newName kind old conditional).key kind.symbolKind := by
  rw [Component.isRenamed, bne_iff_ne]
  cases hignored : c.ignores old.space? with
  | false => simp [planned, hignored, Component.symbolKind]
  | true => simp [planned, hignored]

end PlanConfig

theorem PlanConfig.components_declared {t : Text} {l : Located} (hl : l ∈ (SourceFile.parse t).outline)
    {kind : DeclarationKind} {names : List (DeclarationKind × QualifiedName)}
    (h : l.declared? = some (kind, names)) (c : PlanConfig) :
    c.components ⟨l, kind, names, []⟩ = names.map fun entry => c.planned entry.1 entry.2 false := by
  have hplain : (kind == .conditional) = false := by
    rw [Located.declared?] at h
    split at h <;> cases h <;> rfl
  rw [components, List.map_nil, List.append_nil]
  refine List.map_congr_left fun entry hentry => ?_
  obtain ⟨-, short, hname, heq⟩ := Located.declared?_spec hl h entry hentry
  have hspace : entry.2.space? = l.space? := by
    rw [heq, space?_nameIn (isIdentifier_plain hname.short).2, spaceOf_spaceParts]
  rw [planned, hspace]
  dsimp only
  rw [hplain]

theorem Located.declared?_type {t : Text} {l : Located} (hl : l ∈ (SourceFile.parse t).outline)
    {kind : DeclarationKind} {names : List (DeclarationKind × QualifiedName)}
    (h : l.declared? = some (kind, names)) (hkind : kind.isType) : ∃ short,
      IsDeclared (spaceParts l.space?) short ∧ names = [(kind, nameIn (spaceParts l.space?) short)] := by
  have hone : ∃ name, names = [(kind, name)] := by
    rw [declared?] at h
    split at h <;> cases h
    · exact ⟨_, rfl⟩
    · exact ⟨_, rfl⟩
    · cases hkind
  obtain ⟨name, rfl⟩ := hone
  obtain ⟨-, short, hname, heq⟩ := declared?_spec hl h _ (List.mem_singleton.mpr rfl)
  exact ⟨short, hname, by rw [← heq]⟩

namespace SourceFile

variable {f : SourceFile}

theorem mem_declarations {declarations : List Declaration} (h : f.declarations = .ok declarations)
    {d : Declaration} (hd : d ∈ declarations) :
    ∃ l ∈ f.outline, f.declarationAt l = .ok (some d) := by
  rw [SourceFile.declarations] at h
  split at h
  · cases h
    obtain ⟨result, hresult, hsome⟩ := List.mem_filterMap.mp hd
    obtain ⟨l, hl, rfl⟩ := List.mem_map.mp hresult
    refine ⟨l, List.mem_of_mem_tail (List.mem_of_mem_filter hl), ?_⟩
    cases hresult : f.declarationAt l with
    | error e =>
      rw [hresult] at hsome
      cases hsome
    | ok found? =>
      rw [hresult] at hsome
      exact congrArg Except.ok hsome
  · cases h

/-- A declaration is a condition or what its statement declares. -/
theorem declarationAt_cases {l : Located} {d : Declaration} (h : f.declarationAt l = .ok (some d)) :
    d.kind = .conditional ∨
      ∃ names, l.declared? = some (d.kind, names) ∧ d = ⟨l, d.kind, names, []⟩ := by
  rw [declarationAt] at h
  split at h
  any_goals cases h
  · left
    rw [conditionalDeclaration] at h
    split at h
    · cases h
      rfl
    · cases h
  · split at h
    · rename_i kind names hdeclared
      cases h
      exact Or.inr ⟨names, hdeclared, rfl⟩
    · cases h

theorem place_of_condition {condition : Located} {d : Declaration}
    (h : f.conditionalDeclaration condition = .ok d) : d.place = condition := by
  rw [conditionalDeclaration] at h
  split at h
  · cases h
    rfl
  · cases h

theorem place_of_declarationAt {l : Located} {d : Declaration}
    (h : f.declarationAt l = .ok (some d)) : d.place = l := by
  rw [declarationAt] at h
  split at h
  any_goals cases h
  · obtain ⟨d', hd', heq⟩ := map_eq_ok h
    cases heq
    exact place_of_condition hd'
  · split at h
    · cases h
      rfl
    · cases h

end SourceFile

namespace FilePlan

variable {c : PlanConfig} {path t : Text} {d : Decision}

theorem mem_decisions (h : d ∈ (ofText c path t).decisions) :
    ∃ l ∈ (SourceFile.parse t).outline, ∃ declaration,
      (SourceFile.parse t).declarationAt l = .ok (some declaration) ∧
        d = (SourceFile.parse t).decide c declaration := by
  rw [ofText] at h
  dsimp only at h
  split at h
  · cases h
  · split at h
    · rename_i declarations hdeclarations
      obtain ⟨declaration, hmem, rfl⟩ := List.mem_map.mp h
      obtain ⟨l, hl, hat⟩ := SourceFile.mem_declarations hdeclarations hmem
      exact ⟨l, hl, declaration, hat, rfl⟩
    · cases h

/-- A decision with a file of its own is about one type, and its file has the new name of that. -/
theorem exclusive_spec (h : d ∈ (ofText c path t).decisions) (hexclusive : d.exclusive) :
    ∃ short, IsDeclared (spaceParts d.oldSpace?) short ∧ d.kind.isType ∧
      d.ignored = c.ignores d.oldSpace? ∧
      let component := c.planned d.kind (nameIn (spaceParts d.oldSpace?) short) false
      d.components = [component] ∧ d.target = PlanConfig.typeTarget component.new := by
  obtain ⟨l, hl, declaration, hat, rfl⟩ := mem_decisions h
  rcases SourceFile.declarationAt_cases hat with hconditional | ⟨names, hdeclared, heq⟩
  · have htype : declaration.kind.isType := hexclusive
    rw [hconditional] at htype
    cases htype
  · obtain ⟨kind, hkind⟩ : ∃ kind, declaration.kind = kind := ⟨_, rfl⟩
    rw [hkind] at heq hdeclared
    subst heq
    have htype : kind.isType := hexclusive
    obtain ⟨short, hname, rfl⟩ := Located.declared?_type hl hdeclared htype
    have hcomponents := PlanConfig.components_declared hl hdeclared c
    rw [List.map_singleton] at hcomponents
    refine ⟨short, hname, htype, rfl, hcomponents, ?_⟩
    rw [SourceFile.decide]
    dsimp only
    rw [if_pos htype, hcomponents]
    rfl

theorem shared_spec (h : d ∈ (ofText c path t).decisions) (hshared : d.exclusive = false) :
    d.target = c.bucketTarget d.newSpace? d.directives d.isConditional := by
  obtain ⟨l, hl, declaration, hat, rfl⟩ := mem_decisions h
  have htype : declaration.kind.isType = false := hshared
  exact if_neg (by simp [htype])

end FilePlan
end NamespaceMigration
