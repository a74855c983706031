import NamespaceMigration.Proofs.Planning.Accounting
import NamespaceMigration.Proofs.Planning.Decisions

/-! The components of a decision. Each is planned from a name that is declared in the namespace of the
decision, in the branches of a condition too; only what a condition defines at run time is global and
keeps its name. -/
namespace NamespaceMigration

open SourceFile (parse)

theorem not_mem_literalValue? {literal value : Text} (h : literalValue? literal = some value) :
    '\\' ∉ value := by
  cases literal with
  | nil => cases h
  | cons quote t =>
    rw [literalValue?] at h
    dsimp only at h
    split_ifs at h with hquote hlast hplain
    cases h
    exact fun hmem => hplain (Or.inl hmem)

/-- The name that a call of `define` is known to give is global. -/
def StatementKind.DefinesGlobal : StatementKind → Prop
  | .define (some name) => '\\' ∉ name
  | _ => True

namespace Parser

variable {c : Code}

theorem defineStatement_global (p : Nat) : (defineStatement c p).value.DefinesGlobal := by
  rw [defineStatement]
  dsimp only
  split
  · cases hvalue : literalValue? (c.text (p + 2)) with
    | none => trivial
    | some name => exact not_mem_literalValue? hvalue
  · trivial

theorem declaration_global (p : Nat) : (declaration c p).value.DefinesGlobal := by
  rw [declaration]
  split
  · trivial
  · split <;> trivial

theorem shape_global (inner : Inner) (p : Nat) : (shape c inner p).value.1.DefinesGlobal := by
  rw [shape]
  split <;> try trivial
  · change (useStatement c p).value.DefinesGlobal
    rw [useStatement]
    split
    · trivial
    · dsimp only
      split <;> trivial
  · split
    · simp only [declareStatement]
      split_ifs <;> trivial
    · exact declaration_global p
  · split
    · exact defineStatement_global p
    · exact declaration_global p
  · exact declaration_global p

theorem topStatements_global (c : Code) : ∀ s ∈ (topStatements c).value,
    s.Everywhere fun s => s.kind.DefinesGlobal :=
  topStatements_everywhere (fun _ => trivial) shape_global fun inner p _ => by
    unfold namespaceStatement
    dsimp only
    generalize (if c.isAtAny [.ident, .nameQualified] (p + 1) then p + 2 else p + 1) = next
    split <;> trivial

end Parser

theorem Level.isConditional_iff {level : Level} :
    level.isConditional ↔ level.statement.kind = .conditional := by
  rw [isConditional]
  cases level.statement.kind <;> simp

namespace SourceFile

variable {f : SourceFile}

theorem space?_of_branch {condition m : Located} (hm : m ∈ f.outline) (hcondition : condition ∈ f.outline)
    (hkind : condition.statement.kind = .conditional) (h : m.isBranchOf condition) :
    m.space? = condition.space? := by
  obtain ⟨inner, level, outer, habove, rfl⟩ := exists_level_of_branch hm hcondition h
  have hinner : inner.all Level.isConditional := by
    rw [Located.isBranchOf, Bool.and_eq_true] at h
    rw [← Located.takeWhile_above (descending hm) habove]
    exact h.2
  have hconditional : ∀ l ∈ inner ++ [level], l.statement.kind = .conditional := by
    refine List.forall_mem_append.mpr ⟨fun l hl => ?_, List.forall_mem_singleton.mpr hkind⟩
    exact Level.isConditional_iff.mp (List.all_eq_true.mp hinner l hl)
  rw [Located.space?, habove, List.append_cons, List.findSome?_append, List.findSome?_eq_none_iff.mpr]
  · rfl
  · intro l hl
    rw [hconditional l hl]

variable {t : Text}

theorem declared?_of_branchPart {l : Located} {names : List (DeclarationKind × QualifiedName)}
    (h : f.branchPart l = .names names) : ∃ kind, l.declared? = some (kind, names) := by
  rw [branchPart] at h
  split at h
  any_goals cases h
  split at h
  · rename_i kind names' hdeclared
    cases h
    exact ⟨kind, hdeclared⟩
  · cases h

theorem global_of_branchPart {l : Located} (hl : l ∈ (parse t).outline) {name : QualifiedName}
    (h : f.branchPart l = .runtime name) : '\\' ∉ name.text := by
  rw [branchPart] at h
  split at h
  any_goals cases h
  · rename_i text hkind
    have hglobal := outline_forall (P := fun s => s.kind.DefinesGlobal) trivial
      (Parser.topStatements_global _) l hl
    rw [hkind] at hglobal
    exact fun hmem => hglobal ((List.dropWhile_suffix _).subset hmem)
  · split at h <;> cases h

/-- A name of a condition is declared in its namespace. -/
theorem mem_names_of_condition {condition : Located} {d : Declaration}
    (h : (parse t).conditionalDeclaration condition = .ok d) (hcondition : condition ∈ (parse t).outline)
    (hkind : condition.statement.kind = .conditional) {entry : DeclarationKind × QualifiedName}
    (hentry : entry ∈ d.names) : ∃ short, IsDeclared (spaceParts condition.space?) short ∧
      entry.2 = nameIn (spaceParts condition.space?) short := by
  rw [conditionalDeclaration] at h
  split at h
  · cases h
    obtain ⟨part, hpart, hmem⟩ := List.mem_flatMap.mp hentry
    obtain ⟨l, hl, rfl⟩ := List.mem_map.mp hpart
    obtain ⟨hl, hbranch⟩ := List.mem_filter.mp hl
    cases hnames : (parse t).branchPart l with
    | names names =>
      rw [hnames] at hmem
      obtain ⟨kind, hdeclared⟩ := declared?_of_branchPart hnames
      obtain ⟨-, short, hshort, heq⟩ := Located.declared?_spec hl hdeclared entry hmem
      rw [space?_of_branch hl hcondition hkind hbranch] at hshort heq
      exact ⟨short, hshort, heq⟩
    | runtime | nothing | trouble =>
      rw [hnames] at hmem
      cases hmem
  · cases h

/-- A constant that a condition defines at run time is global. -/
theorem mem_runtimeNames_of_condition {condition : Located} {d : Declaration}
    (h : (parse t).conditionalDeclaration condition = .ok d) {name : QualifiedName}
    (hname : name ∈ d.runtimeNames) : '\\' ∉ name.text := by
  rw [conditionalDeclaration] at h
  split at h
  · cases h
    obtain ⟨part, hpart, hsome⟩ := List.mem_filterMap.mp hname
    obtain ⟨l, hl, rfl⟩ := List.mem_map.mp hpart
    cases hruntime : (parse t).branchPart l with
    | runtime name' =>
      rw [hruntime] at hsome
      cases hsome
      exact global_of_branchPart (List.mem_of_mem_filter hl) hruntime
    | names | nothing | trouble =>
      rw [hruntime] at hsome
      cases hsome
  · cases h

/-- What a declaration declares is in its namespace, and what it defines at run time is global. -/
theorem names_of_declarationAt {l : Located} (hl : l ∈ (parse t).outline) {d : Declaration}
    (h : (parse t).declarationAt l = .ok (some d)) :
    (∀ entry ∈ d.names, ∃ short, IsDeclared (spaceParts l.space?) short ∧
      entry.2 = nameIn (spaceParts l.space?) short) ∧
    ∀ name ∈ d.runtimeNames, d.kind = .conditional ∧ '\\' ∉ name.text := by
  rw [declarationAt] at h
  split at h
  any_goals cases h
  · rename_i hkind
    obtain ⟨d', hcondition, heq⟩ := map_eq_ok h
    cases heq
    have hconditional : d.kind = .conditional := by
      rw [conditionalDeclaration] at hcondition
      split at hcondition
      · cases hcondition
        rfl
      · cases hcondition
    exact ⟨fun entry hentry => mem_names_of_condition hcondition hl hkind hentry,
      fun name hname => ⟨hconditional, mem_runtimeNames_of_condition hcondition hname⟩⟩
  · split at h
    · rename_i hdeclared
      cases h
      exact ⟨fun entry hentry => (Located.declared?_spec hl hdeclared entry hentry).2,
        List.forall_mem_nil _⟩
    · cases h

end SourceFile

namespace PlanConfig

variable {c : PlanConfig}

theorem planned_of_global {kind : DeclarationKind} {old : QualifiedName} {conditional : Bool}
    (hold : '\\' ∉ old.text) (hkind : ¬(kind.isType ∧ conditional = false)) :
    c.planned kind old conditional = ⟨kind, old, old⟩ := by
  have hspace : old.space? = none := QualifiedName.space?_eq_none_iff.mpr hold
  have hsame : c.newName kind old conditional = old := by
    rw [newName, if_neg (by simpa using hkind), hspace, ← QualifiedName.text_of_space?_none hspace]
    exact congrArg QualifiedName.mk (dropBackslashes_of_not_mem hold)
  rw [planned, hsame, ite_self]

end PlanConfig

/-- The old name of a component: it is declared in the namespace of its decision, or it is that of a
global constant which is defined at run time. -/
inductive Decision.Names (d : Decision) : Component → Prop
  | declared {k : Component} {short : Text} (declared : IsDeclared (spaceParts d.oldSpace?) short)
      (old : k.old = nameIn (spaceParts d.oldSpace?) short) : d.Names k
  | runtime {k : Component} (conditional : d.isConditional) (kind : k.kind = .constant)
      (old : '\\' ∉ k.old.text) (new : k.new = k.old) : d.Names k

namespace FilePlan

variable {c : PlanConfig} {path t : Text} {d : Decision}

theorem ignored_of_mem_decisions (h : d ∈ (ofText c path t).decisions) :
    d.ignored = c.ignores d.oldSpace? := by
  obtain ⟨l, hl, declaration, hat, rfl⟩ := mem_decisions h
  rfl

/-- Every component of a decision is planned from its old name alone. -/
theorem component_spec (h : d ∈ (ofText c path t).decisions) {k : Component} (hk : k ∈ d.components) :
    k = c.planned k.kind k.old d.isConditional ∧ d.Names k := by
  obtain ⟨l, hl, declaration, hat, rfl⟩ := mem_decisions h
  have hplace := SourceFile.place_of_declarationAt hat
  have hnames := SourceFile.names_of_declarationAt hl hat
  subst hplace
  rcases List.mem_append.mp hk with hk | hk
  · obtain ⟨entry, hentry, rfl⟩ := List.mem_map.mp hk
    obtain ⟨short, hshort, hold⟩ := hnames.1 entry hentry
    have hspace : entry.2.space? = declaration.place.space? := by
      rw [hold, space?_nameIn (isIdentifier_plain hshort.short).2, spaceOf_spaceParts]
    refine ⟨?_, .declared hshort hold⟩
    rw [PlanConfig.planned, hspace]
    rfl
  · obtain ⟨name, hname, rfl⟩ := List.mem_map.mp hk
    obtain ⟨hconditional, hglobal⟩ := hnames.2 name hname
    exact ⟨(PlanConfig.planned_of_global hglobal fun htype => Bool.noConfusion htype.1).symm,
      .runtime (beq_iff_eq.mpr hconditional) rfl hglobal rfl⟩

theorem errors_of_mem_decisions (h : d ∈ (ofText c path t).decisions) : (parse t).errors = [] := by
  by_contra hne
  rw [ofText] at h
  dsimp only at h
  rw [if_pos (by simpa using hne)] at h
  cases h

/-- What has no file of its own keeps its short name. -/
theorem short_of_shared (h : d ∈ (ofText c path t).decisions) (hshared : d.exclusive = false) {k : Component}
    (hk : k ∈ d.components) : k.new.short = k.old.short := by
  have hplain : ¬(k.kind.isType ∧ d.isConditional = false) := by
    rintro ⟨htype, hplain⟩
    obtain ⟨l, hl, declaration, hat, rfl⟩ := mem_decisions h
    rcases SourceFile.declarationAt_cases hat with hconditional | ⟨names, hdeclared, heq⟩
    · rw [Decision.isConditional, beq_eq_false_iff_ne] at hplain
      exact hplain hconditional
    · have hcomponents : k ∈ c.components declaration := hk
      rw [heq, PlanConfig.components_declared hl hdeclared] at hcomponents
      obtain ⟨entry, hentry, rfl⟩ := List.mem_map.mp hcomponents
      have hkind := (Located.declared?_spec hl hdeclared entry hentry).1
      have hshared : declaration.kind.isType = false := hshared
      rw [← hkind] at hshared
      exact absurd (show entry.1.isType = true from htype) (by simp [hshared])
  rw [(component_spec h hk).1, PlanConfig.planned]
  dsimp only
  split
  · rfl
  · rw [PlanConfig.newName, if_neg (by simpa using hplain)]
    exact QualifiedName.short_join _ (lastSegment_not_mem _)

end FilePlan

/-- The kinds and short names that a statement of a kind declares itself. -/
def StatementKind.own : StatementKind → List (DeclarationKind × Text)
  | .classLike kind name _ => [(.classLike kind, name)]
  | .function name _ => [(.function, name)]
  | .constants names => names.map fun entry => (.constant, entry.1)
  | _ => []

mutual

/-- The kinds and short names that a statement declares, a condition in its branches. -/
def Statement.given : Statement → List (DeclarationKind × Text)
  | ⟨kind, _, _, _, children⟩ => kind.own ++ if kind = .conditional then Statement.givenAll children else []

def Statement.givenAll : List Statement → List (DeclarationKind × Text)
  | [] => []
  | s :: ss => s.given ++ Statement.givenAll ss

end

/-- Whether the way from a statement up to the one with a number goes through conditions only. -/
def Level.leadsTo (number : Nat) : List Level → Bool
  | [] => false
  | level :: above => if level.number = number then true else level.isConditional && leadsTo number above

theorem Located.isBranchOf_eq (l condition : Located) :
    l.isBranchOf condition = Level.leadsTo condition.number l.above := by
  rw [isBranchOf]
  induction l.above with
  | nil => rfl
  | cons level above ih =>
    rw [Level.leadsTo, ← ih]
    by_cases hlevel : level.number = condition.number
    · rw [List.takeWhile_cons_of_neg (by simpa using hlevel), if_pos hlevel]
      simp
    · rw [List.takeWhile_cons_of_pos (by simpa using hlevel), if_neg hlevel, List.all_cons, Bool.and_left_comm, List.length_cons,
        List.length_cons]
      simp only [Nat.add_lt_add_iff_right]
      rfl

/-- What is declared by those of some statements that stand in a branch of the condition with a number. -/
def ownInside (number : Nat) (ls : List Located) : List (DeclarationKind × Text) :=
  (ls.filter fun l => Level.leadsTo number l.above).flatMap fun l => l.statement.kind.own

theorem ownInside_append (number : Nat) (ls ms : List Located) :
    ownInside number (ls ++ ms) = ownInside number ls ++ ownInside number ms := by
  rw [ownInside, List.filter_append, List.flatMap_append]
  rfl

mutual

theorem ownInside_outline (branch : Nat) (above : List Level) (number : Nat) (s : Statement)
    (h : branch < number ∨ number + (outline above number s).length ≤ branch) :
    ownInside branch (outline above number s) = if Level.leadsTo branch above then s.given else [] := by
  match s with
  | ⟨kind, first, stop, doc?, children⟩ =>
    rw [outline, List.length_cons] at h
    have hinside := ownInside_outlineAll branch above number ⟨kind, first, stop, doc?, children⟩ [] (number + 1) children
      (by omega)
    have hne : number ≠ branch := by omega
    rw [Level.leadsTo, if_neg hne] at hinside
    rw [outline, ← List.singleton_append, ownInside_append, hinside, ownInside, Statement.given]
    cases hbranch : Level.leadsTo branch above with
    | false => simp [hbranch]
    | true => simp [hbranch, Level.isConditional_iff]

theorem ownInside_outlineAll (branch : Nat) (above : List Level) (number : Nat) (parent : Statement)
    (earlier : List Statement) (next : Nat) (later : List Statement)
    (h : branch < next ∨ next + (outlineAll above number parent earlier next later).length ≤ branch) :
    ownInside branch (outlineAll above number parent earlier next later) =
      if Level.leadsTo branch (⟨number, parent, []⟩ :: above) then Statement.givenAll later else [] := by
  match later with
  | [] => simp [outlineAll, ownInside, Statement.givenAll]
  | child :: later =>
    rw [outlineAll, List.length_append] at h
    have hlead : Level.leadsTo branch (⟨number, parent, earlier⟩ :: above) =
        Level.leadsTo branch (⟨number, parent, []⟩ :: above) := rfl
    rw [outlineAll, ownInside_append, ownInside_outline branch _ next child (by omega),
      ownInside_outlineAll branch above number parent _ _ later (by omega), hlead, Statement.givenAll]
    split <;> rfl

end

mutual

/-- What is declared in the branches of a condition is what it gives. -/
theorem ownInside_branches (above : List Level) (number : Nat) (s : Statement) {condition : Located}
    (hcondition : condition ∈ outline above number s) (hkind : condition.statement.kind = .conditional)
    (h : Level.leadsTo condition.number above = false) :
    ownInside condition.number (outline above number s) = condition.statement.given := by
  match s with
  | ⟨kind, first, stop, doc?, children⟩ =>
    rw [outline, List.mem_cons] at hcondition
    rw [outline, ← List.singleton_append, ownInside_append]
    have hhere : ownInside condition.number [⟨number, ⟨kind, first, stop, doc?, children⟩, above⟩] = [] := by
      simp [ownInside, h]
    rw [hhere, List.nil_append]
    rcases hcondition with rfl | hcondition
    · rw [ownInside_outlineAll number above number _ [] (number + 1) children (by omega), Level.leadsTo, if_pos rfl,
        if_pos rfl, Statement.given]
      obtain rfl : kind = .conditional := hkind
      rw [if_pos rfl]
      rfl
    · have hle := (outlineAll_numbered above number _ [] (number + 1) children condition hcondition).1.1
      refine ownInside_branchesAll above number _ [] (number + 1) children hcondition hkind ?_
      rw [Level.leadsTo, if_neg (by dsimp only; omega), h, Bool.and_false]

theorem ownInside_branchesAll (above : List Level) (number : Nat) (parent : Statement) (earlier : List Statement)
    (next : Nat) (later : List Statement) {condition : Located}
    (hcondition : condition ∈ outlineAll above number parent earlier next later)
    (hkind : condition.statement.kind = .conditional)
    (h : Level.leadsTo condition.number (⟨number, parent, []⟩ :: above) = false) :
    ownInside condition.number (outlineAll above number parent earlier next later) = condition.statement.given := by
  match later with
  | [] => cases hcondition
  | child :: later =>
    rw [outlineAll, List.mem_append] at hcondition
    have hlead (earlier : List Statement) :
        Level.leadsTo condition.number (⟨number, parent, earlier⟩ :: above) = false := h
    rw [outlineAll, ownInside_append]
    rcases hcondition with hcondition | hcondition
    · obtain ⟨-, hlt⟩ := (outline_numbered _ next child condition hcondition).1
      rw [ownInside_branches _ next child hcondition hkind (hlead earlier),
        ownInside_outlineAll condition.number above number parent _ _ later (.inl hlt), hlead, if_neg Bool.false_ne_true,
        List.append_nil]
    · obtain ⟨hle, -⟩ := (outlineAll_numbered above number parent _ _ later condition hcondition).1
      rw [ownInside_outline condition.number _ next child (.inr hle), hlead, if_neg Bool.false_ne_true, List.nil_append,
        ownInside_branchesAll above number parent _ _ later hcondition hkind h]

end

namespace SourceFile

variable {t : Text}

/-- What is declared is what the kind of the statement says. -/
theorem own_of_declared? {l : Located} (hl : l ∈ (parse t).outline) {kind : DeclarationKind}
    {names : List (DeclarationKind × QualifiedName)} (h : l.declared? = some (kind, names)) :
    names.map (fun entry => (entry.1, entry.2.short)) = l.statement.kind.own := by
  have hwords := outline_forall (P := fun s => s.kind.HasIdentifiers) (t := t) trivial
    (Parser.topStatements_identifiers t) l hl
  have hshort {name : Text} (hname : Identifier.isIdentifier name) :
      (QualifiedName.join l.space? name).short = name := QualifiedName.short_join _ (isIdentifier_plain hname).2
  rw [Located.declared?] at h
  split at h
  all_goals cases h
  · rename_i hkind
    rw [hkind] at hwords
    rw [hkind, List.map_singleton, hshort hwords]
    rfl
  · rename_i hkind
    rw [hkind] at hwords
    rw [hkind, List.map_singleton, hshort hwords]
    rfl
  · rename_i hkind
    rw [hkind] at hwords
    rw [hkind, List.map_map]
    exact List.map_congr_left fun entry hentry => congrArg (_, ·) (hshort (hwords entry hentry))

theorem own_of_branchPart {l : Located} (hl : l ∈ (parse t).outline) :
    ((parse t).branchPart l).named.map (fun entry => (entry.1, entry.2.short)) = l.statement.kind.own := by
  rw [branchPart]
  split
  all_goals try (rename_i hkind; rw [hkind]; rfl)
  split
  · rename_i hdeclared
    exact own_of_declared? hl hdeclared
  · rename_i hdeclared
    rw [Located.declared?] at hdeclared
    cases hkind : l.statement.kind <;> first | rfl | (rw [hkind] at hdeclared; cases hdeclared)

/-- What a declaration names is what its statement gives. -/
theorem names_eq_given {l : Located} (hl : l ∈ (parse t).outline) {d : Declaration}
    (h : (parse t).declarationAt l = .ok (some d)) :
    d.names.map (fun entry => (entry.1, entry.2.short)) = l.statement.given := by
  rw [declarationAt] at h
  split at h
  any_goals cases h
  · rename_i hkind
    obtain ⟨d', hcondition, heq⟩ := map_eq_ok h
    cases heq
    rw [conditionalDeclaration] at hcondition
    split at hcondition
    swap
    · cases hcondition
    cases hcondition
    have hbranches := ownInside_branches [] 0 (parse t).root hl hkind rfl
    rw [← hbranches, ownInside]
    change (((((parse t).outline.filter (·.isBranchOf l)).map (parse t).branchPart).flatMap BranchPart.named).map _) = _
    simp only [Located.isBranchOf_eq]
    rw [List.map_flatMap, List.flatMap_map]
    exact List.flatMap_congr fun m hm => own_of_branchPart (List.mem_of_mem_filter hm)
  · split at h
    · rename_i hdeclared
      cases h
      rw [own_of_declared? hl hdeclared]
      obtain ⟨number, ⟨kind, first, stop, doc?, children⟩, above⟩ := l
      have hplain : kind ≠ .conditional := by
        rintro rfl
        cases hdeclared
      rw [Statement.given, if_neg hplain, List.append_nil]
    · cases h

end SourceFile

theorem PlanConfig.take_components (c : PlanConfig) (d : Declaration) :
    ((c.components d).take d.names.length).map (fun k => (k.kind, k.old.short)) =
      d.names.map fun entry => (entry.1, entry.2.short) := by
  rw [components, List.take_left' (List.length_map _), List.map_map]
  rfl

end NamespaceMigration
