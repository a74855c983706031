import NamespaceMigration.Proofs.Statements.Bare
import NamespaceMigration.Reference.Scan

/-! What `use` statements are written with. They begin with `use`, end with a terminator, and between the
two there are names, braces, commas and a few words, so little else of the language can stand in one. -/
namespace NamespaceMigration

/-- The kinds in a `use` statement. -/
def TokenKind.isOfImport : TokenKind → Bool
  | kwUse | kwFunction | kwConst | kwAs | ident | nameQualified | nameFullyQualified | backslash | leftBrace
  | rightBrace | comma | semicolon | closeTag => true
  | _ => false

namespace Code

variable {c : Code} {p q r : Nat}

/-- From one position up to another there is nothing that a `use` statement is not written with. -/
def HoldsImport (c : Code) (p q : Nat) : Prop := ∀ r, p ≤ r → r < q → (c.kind? r).any TokenKind.isOfImport

theorem HoldsImport.nil : c.HoldsImport p p := fun _ hle hlt => absurd hlt (Nat.not_lt.mpr hle)

theorem HoldsImport.append (h : c.HoldsImport p q) (h' : c.HoldsImport q r) : c.HoldsImport p r := by
  intro k hp hr
  rcases Nat.lt_or_ge k q with hlt | hle
  · exact h k hp hlt
  · exact h' k hle hr

theorem HoldsImport.step (h : c.HoldsImport p q) (hq : (c.kind? q).any TokenKind.isOfImport) :
    c.HoldsImport p (q + 1) := by
  refine h.append fun r hle hlt => ?_
  obtain rfl : r = q := by omega
  exact hq

theorem isOfImport_of_isAt {kind : TokenKind} (h : c.isAt kind p) (hkind : kind.isOfImport) :
    (c.kind? p).any TokenKind.isOfImport := by
  rw [isAt_iff.mp h]
  exact hkind

theorem isOfImport_of_isAtAny {kinds : List TokenKind} (h : c.isAtAny kinds p)
    (hkinds : kinds.all TokenKind.isOfImport) : (c.kind? p).any TokenKind.isOfImport := by
  obtain ⟨kind, hmem, hkind⟩ := exists_kind_of_isAtAny h
  rw [hkind]
  exact List.all_eq_true.mp hkinds kind hmem

end Code

namespace Parser

open Code (HoldsImport isOfImport_of_isAt isOfImport_of_isAtAny)

variable {c : Code} {kind : SymbolKind} {p next : Nat} {items : List ImportItem}

theorem afterImportKind_holds (p : Nat) : c.HoldsImport p (afterImportKind c p) := by
  rw [afterImportKind]
  split
  · rename_i hsome
    refine HoldsImport.nil.step ?_
    rw [importKind?] at hsome
    split at hsome
    · rename_i hkind
      rw [hkind]
      rfl
    · rename_i hkind
      rw [hkind]
      rfl
    · cases hsome
  · exact .nil

theorem importAlias_holds (p : Nat) : c.HoldsImport p (importAlias c p).2 := by
  rw [importAlias]
  split
  · rename_i h
    exact (HoldsImport.nil.step (isOfImport_of_isAt h.1 rfl)).step (isOfImport_of_isAt h.2 rfl)
  · exact .nil

theorem groupItems_holds {lead : Text} {fuel : Nat} (h : groupItems c kind lead fuel p = .ok (items, next)) :
    c.HoldsImport p next := by
  induction fuel generalizing p items with
  | zero => cases h
  | succ fuel ih =>
    rw [groupItems] at h
    split at h
    · rename_i hclose
      cases h
      exact HoldsImport.nil.step (isOfImport_of_isAt hclose rfl)
    · dsimp only at h
      split at h
      · cases h
      · rename_i hname
        have hitem : c.HoldsImport p (importAlias c (afterImportKind c p + 1)).2 :=
          ((afterImportKind_holds p).step (isOfImport_of_isAtAny (by simpa using hname) rfl)).append
            (importAlias_holds _)
        split_ifs at h with hcomma hclose
        · cases hmore : groupItems c kind lead fuel ((importAlias c (afterImportKind c p + 1)).2 + 1) with
          | error trouble =>
            rw [hmore] at h
            cases h
          | ok found =>
            rw [hmore] at h
            cases h
            exact (hitem.step (isOfImport_of_isAt hcomma rfl)).append (ih hmore)
        · cases h
          exact hitem.step (isOfImport_of_isAt hclose rfl)

theorem importItems_holds {fuel : Nat} (h : importItems c kind fuel p = .ok (items, next)) :
    c.HoldsImport p next := by
  induction fuel generalizing p items with
  | zero => cases h
  | succ fuel ih =>
    have hmore {found : List ImportItem} {stop : Nat} (hfound : c.HoldsImport p stop)
        (h : (if c.isAt .comma stop then
            (importItems c kind fuel (stop + 1)).bind fun more => .ok (found ++ more.1, more.2)
          else .ok (found, stop)) = Except.ok (ε := Nat) (items, next)) : c.HoldsImport p next := by
      split at h
      · rename_i hcomma
        cases hmore : importItems c kind fuel (stop + 1) with
        | error trouble =>
          rw [hmore] at h
          cases h
        | ok found =>
          rw [hmore] at h
          cases h
          exact (hfound.step (isOfImport_of_isAt hcomma rfl)).append (ih hmore)
      · cases h
        exact hfound
    rw [importItems] at h
    split at h
    · cases h
    · rename_i hname
      have hname : c.HoldsImport p (p + 1) :=
        HoldsImport.nil.step (isOfImport_of_isAtAny (by simpa using hname) rfl)
      dsimp only at h
      split at h
      · rename_i hgroup
        have hopened : c.HoldsImport p (p + 3) :=
          (hname.step (isOfImport_of_isAt hgroup.1 rfl)).step (isOfImport_of_isAt hgroup.2 rfl)
        cases hitems : groupItems c kind (dropBackslashes (c.text p)) (c.size + 1) (p + 3) with
        | error trouble =>
          rw [hitems] at h
          cases h
        | ok found =>
          rw [hitems] at h
          exact hmore (hopened.append (groupItems_holds hitems)) h
      · exact hmore (hname.append (importAlias_holds _)) h

/-- A statement that imports names begins with `use`, ends with a terminator, and is written with what `use`
statements are written with. -/
structure HasImportKinds (c : Code) (p n : Nat) : Prop where
  first : c.kind? p = some .kwUse
  last : isTerminator c (n - 1)
  holds : c.HoldsImport p n

theorem useStatement_kinds (hp : c.kind? p = some .kwUse) (h : (useStatement c p).value = .imports items) :
    HasImportKinds c p (useStatement c p).next := by
  rw [useStatement] at h ⊢
  dsimp only at h ⊢
  split at h
  · cases h
  · rename_i found next hfound
    split at h
    · rename_i hend
      rw [if_pos hend, terminator, if_pos hend]
      refine ⟨hp, hend, HoldsImport.step ?_ (isOfImport_of_isAtAny hend rfl)⟩
      refine (HoldsImport.nil.step ?_).append ((afterImportKind_holds _).append (importItems_holds hfound))
      rw [hp]
      rfl
    · cases h

/-- The kinds of a statement that imports names. -/
def ImportsSpelled (c : Code) (s : Statement) : Prop :=
  ∀ items, s.kind = .imports items → ∃ p n, s.Covers c p n ∧ HasImportKinds c p n

theorem topStatements_importsSpelled (ho : c.Ordered) :
    ∀ s ∈ (topStatements c).value, s.Everywhere (ImportsSpelled c) := by
  refine topStatements_everywhere (fun _ _ h => nomatch h) (fun inner p items h => ?_) fun inner p _ items h => ?_
  · obtain ⟨hkind, hshape⟩ := shape_imports h
    rw [hshape] at h ⊢
    have hreach := (useStatement_found ho (Code.lt_size_of_kind? hkind)).1
    exact ⟨p, _, node_covers ho hreach, useStatement_kinds hkind h⟩
  · change (namespaceStatement c inner p).value.1 = _ at h
    rw [namespaceStatement] at h
    dsimp only at h
    split_ifs at h

end Parser

namespace SourceFile

variable {t : Text}

/-- The positions of a `use` statement, with the kinds there. -/
theorem exists_importKinds {span : Nat × Nat} (h : span ∈ (parse t).importSpans) :
    ∃ p n, p < n ∧ n ≤ (Code.ofText t).size ∧
      span = ((Code.ofText t).tokenIndex p, (Code.ofText t).tokenIndex (n - 1) + 1) ∧
        Parser.HasImportKinds (.ofText t) p n := by
  obtain ⟨l, hl, hspan⟩ := List.mem_filterMap.mp h
  obtain ⟨items, hitems, rfl⟩ := Option.map_eq_some_iff.mp hspan
  have hspelled : Parser.ImportsSpelled (.ofText t) l.statement :=
    outline_forall (fun items h => by cases h)
      (Parser.topStatements_importsSpelled (Code.ordered_ofTokens _ _)) l hl
  have hkind : l.statement.kind = .imports items := by
    rw [Statement.importItems?] at hitems
    split at hitems
    · exact Option.some.inj hitems ▸ ‹_›
    · cases hitems
  obtain ⟨p, n, hcovers, hkinds⟩ := hspelled items hkind
  exact ⟨p, n, hcovers.lt, hcovers.le, by rw [hcovers.first, hcovers.stop], hkinds⟩

end SourceFile
end NamespaceMigration
