import NamespaceMigration.Plan.Identity
import NamespaceMigration.Proofs.Naming.Segments
import NamespaceMigration.Proofs.Statements.Names

/-! Declared names. The parser reads them from identifiers, so every segment of a declared name, and of
the namespace around it, is an identifier. -/
namespace NamespaceMigration

open Identifier (isIdentifier)

/-- The names that a statement declares are identifiers, and so are the segments of a namespace. -/
def StatementKind.HasIdentifiers : StatementKind → Prop
  | .space (some name) _ _ => Lexer.IsName name
  | .classLike _ name _ | .function name _ => isIdentifier name
  | .constants names => ∀ entry ∈ names, isIdentifier entry.1
  | _ => True

namespace Parser

variable {t : Text}

theorem isIdentifier_text {p : Nat} (h : (Code.ofText t).isAt .ident p) :
    isIdentifier ((Code.ofText t).text p) := by
  have hshape := Code.hasNameShape (Code.isAt_iff.mp h)
  exact hshape.1.isIdentifier hshape.2

theorem isAt_of_functionName? {c : Code} {p name : Nat} (h : functionName? c p = some name) :
    c.isAt .ident name := by
  rw [functionName?] at h
  split at h
  · rename_i hat
    cases h
    exact hat.2.1
  · cases h

theorem declaration_identifiers (p : Nat) : (declaration (.ofText t) p).value.HasIdentifiers := by
  rw [declaration]
  split
  · rename_i hclass
    exact isIdentifier_text (isAt_of_classKeyword? hclass)
  · split
    · rename_i hfunction
      exact isIdentifier_text (isAt_of_functionName? hfunction)
    · trivial

theorem constStatement_identifiers (p : Nat) :
    (constStatement (.ofText t) p).value.HasIdentifiers := by
  rw [constStatement]
  intro entry hentry
  obtain ⟨q, hq, rfl⟩ := List.mem_map.mp hentry
  have hdeclares := (List.mem_filter.mp hq).2
  rw [declaresConstant, Bool.and_eq_true, Bool.and_eq_true, Bool.and_eq_true] at hdeclares
  exact isIdentifier_text hdeclares.1.1.1

theorem shape_identifiers (inner : Inner) (p : Nat) :
    (shape (.ofText t) inner p).value.1.HasIdentifiers := by
  rw [shape]
  split <;> try trivial
  · change (useStatement (.ofText t) p).value.HasIdentifiers
    rw [useStatement]
    split
    · trivial
    · dsimp only
      split <;> trivial
  · exact constStatement_identifiers p
  · split
    · simp only [declareStatement]
      split_ifs <;> trivial
    · exact declaration_identifiers p
  · split
    · trivial
    · exact declaration_identifiers p
  · exact declaration_identifiers p

theorem namespaceStatement_identifiers (inner : Inner) (p : Nat) :
    (namespaceStatement (.ofText t) inner p).value.1.HasIdentifiers := by
  have hplain := namespaceStatement_plain (t := t) inner p
  have hspace : ∃ name? token? braced,
      (namespaceStatement (.ofText t) inner p).value.1 = .space name? token? braced := by
    unfold namespaceStatement
    dsimp only
    generalize (if (Code.ofText t).isAtAny [.ident, .nameQualified] (p + 1) then p + 2 else p + 1) = next
    split
    · exact ⟨_, _, _, rfl⟩
    · exact ⟨_, _, _, rfl⟩
  obtain ⟨name?, token?, braced, hkind⟩ := hspace
  rw [hkind] at hplain ⊢
  cases name? with
  | none => trivial
  | some name => exact hplain

theorem topStatements_identifiers (t : Text) : ∀ s ∈ (topStatements (.ofText t)).value,
    s.Everywhere fun s => s.kind.HasIdentifiers :=
  topStatements_everywhere (fun _ => trivial) shape_identifiers
    fun inner p _ => namespaceStatement_identifiers inner p

end Parser

/-- The segments of a namespace; none for the global one. -/
def spaceParts (space? : Option Text) : List Text :=
  match space? with
  | some space => space.splitOn '\\'
  | none => []

theorem join_spaceParts {space : Text} : Text.join ['\\'] (spaceParts (some space)) = space :=
  Text.join_splitOn '\\' space

/-- The namespace with these segments. -/
def spaceOf (parts : List Text) : Option Text :=
  if parts.isEmpty then none else some (Text.join ['\\'] parts)

theorem spaceOf_of_ne_nil {parts : List Text} (h : parts ≠ []) :
    spaceOf parts = some (Text.join ['\\'] parts) := by
  rw [spaceOf, if_neg (by simpa using h)]

theorem spaceOf_spaceParts (space? : Option Text) : spaceOf (spaceParts space?) = space? := by
  cases space? with
  | none => rfl
  | some space =>
    have hne : spaceParts (some space) ≠ [] := List.splitOn_ne_nil _ _
    rw [spaceOf_of_ne_nil hne, join_spaceParts]

/-- A name whose namespace, if any, has the segments `parts`. -/
def nameIn (parts : List Text) (short : Text) : QualifiedName := ⟨Text.join ['\\'] (parts ++ [short])⟩

section Named

variable {parts : List Text} {short : Text}

theorem short_nameIn (h : '\\' ∉ short) : (nameIn parts short).short = short :=
  QualifiedName.short_segments h

theorem space?_nameIn (h : '\\' ∉ short) : (nameIn parts short).space? = spaceOf parts := by
  by_cases hparts : parts = []
  · subst hparts
    have hnone : (nameIn [] short).space? = none := by
      rw [QualifiedName.space?_eq_none_iff, nameIn, List.nil_append, Text.join_singleton]
      exact h
    exact hnone
  · rw [spaceOf_of_ne_nil hparts]
    exact QualifiedName.space?_segments hparts h

theorem join_nameIn (hparts : ∀ s ∈ parts, s ≠ [] ∧ '\\' ∉ s) (hshort : short ≠ [] ∧ '\\' ∉ short) :
    QualifiedName.join (spaceOf parts) short = nameIn parts short := by
  have hone : AreSegments [short] := ⟨List.cons_ne_nil _ _, List.forall_mem_singleton.mpr hshort⟩
  by_cases hnil : parts = []
  · subst hnil
    have hname := QualifiedName.ofText_join hone
    rw [Text.join_singleton] at hname
    change QualifiedName.ofText short = nameIn [] short
    rw [hname, nameIn, List.nil_append, Text.join_singleton]
  · have hjoin := QualifiedName.join_segments ⟨hnil, hparts⟩ hone
    rw [Text.join_singleton] at hjoin
    rw [spaceOf_of_ne_nil hnil, hjoin, nameIn]

end Named

/-- A name as it can be declared: the segments of the namespace, and the short name. -/
structure IsDeclared (parts : List Text) (short : Text) : Prop where
  parts : ∀ s ∈ parts, isIdentifier s
  short : isIdentifier short

namespace Located

theorem space?_isName {t : Text} {l : Located} (hl : l ∈ (SourceFile.parse t).outline) {space : Text}
    (h : l.space? = some space) : Lexer.IsName space := by
  have habove := SourceFile.outline_above_forall (P := fun s => s.kind.HasIdentifiers) (t := t) trivial
    (Parser.topStatements_identifiers t) l hl
  rw [space?, Option.join_eq_some_iff] at h
  obtain ⟨level, hlevel, hkind⟩ := List.exists_of_findSome?_eq_some h
  have hnames := habove level hlevel
  split at hkind
  · rename_i name? token? braced hspace
    cases hkind
    rw [hspace] at hnames
    exact hnames
  · cases hkind

theorem parts_isIdentifier {t : Text} {l : Located} (hl : l ∈ (SourceFile.parse t).outline) :
    ∀ s ∈ spaceParts l.space?, isIdentifier s := by
  cases h : l.space? with
  | none => exact List.forall_mem_nil _
  | some space => exact (space?_isName hl h).splitOn

/-- A declared name is a short name in the namespace of its statement. -/
theorem declared?_spec {t : Text} {l : Located} (hl : l ∈ (SourceFile.parse t).outline)
    {kind : DeclarationKind} {names : List (DeclarationKind × QualifiedName)}
    (h : l.declared? = some (kind, names)) : ∀ entry ∈ names, entry.1 = kind ∧
      ∃ short, IsDeclared (spaceParts l.space?) short ∧ entry.2 = nameIn (spaceParts l.space?) short := by
  have hparts := parts_isIdentifier hl
  have hkinds := SourceFile.outline_forall (P := fun s => s.kind.HasIdentifiers) (t := t) trivial
    (Parser.topStatements_identifiers t) l hl
  have hjoin {short : Text} (hshort : isIdentifier short) :
      QualifiedName.join l.space? short = nameIn (spaceParts l.space?) short := by
    rw [← join_nameIn (fun s hs => isIdentifier_plain (hparts s hs)) (isIdentifier_plain hshort),
      spaceOf_spaceParts]
  rw [declared?] at h
  split at h
  · rename_i hkind
    rw [hkind] at hkinds
    cases h
    exact List.forall_mem_singleton.mpr ⟨rfl, _, ⟨hparts, hkinds⟩, hjoin hkinds⟩
  · rename_i hkind
    rw [hkind] at hkinds
    cases h
    exact List.forall_mem_singleton.mpr ⟨rfl, _, ⟨hparts, hkinds⟩, hjoin hkinds⟩
  · rename_i hkind
    rw [hkind] at hkinds
    cases h
    intro entry hentry
    obtain ⟨pair, hpair, rfl⟩ := List.mem_map.mp hentry
    exact ⟨rfl, pair.1, ⟨hparts, hkinds pair hpair⟩, hjoin (hkinds pair hpair)⟩
  · cases h

end Located
end NamespaceMigration
