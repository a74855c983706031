import Mathlib.Data.List.Basic
import NamespaceMigration.Statement.Source

/-! What holds of every statement of a file. The parser builds statements in one place, so a
property of what can start at a position is one of all statements that it reads. Every level of the way from the
root to a statement is a statement of the outline itself, with a number of its own and something inside. -/
namespace NamespaceMigration

/-- A property of a statement and of all statements inside it. -/
inductive Statement.Everywhere (P : Statement → Prop) : Statement → Prop
  | intro {s : Statement} : P s → (∀ child ∈ s.children, child.Everywhere P) → s.Everywhere P

namespace Statement

variable {P : Statement → Prop}

theorem Everywhere.here {s : Statement} (h : s.Everywhere P) : P s := by
  cases h
  assumption

theorem Everywhere.child {s child : Statement} (h : s.Everywhere P) (hc : child ∈ s.children) :
    child.Everywhere P := by
  cases h with
  | intro _ hall => exact hall child hc

end Statement

mutual

theorem outline_everywhere {P : Statement → Prop} (above : List Level) (number : Nat)
    (s : Statement) (h : s.Everywhere P) : ∀ l ∈ outline above number s, l.statement.Everywhere P := by
  match s with
  | ⟨kind, first, stop, doc?, children⟩ =>
    intro l hl
    rw [outline, List.mem_cons] at hl
    rcases hl with rfl | hl
    · exact h
    · exact outlineAll_everywhere above number _ [] (number + 1) children (fun _ => h.child) l hl

theorem outlineAll_everywhere {P : Statement → Prop} (above : List Level) (number : Nat)
    (parent : Statement) (earlier : List Statement) (next : Nat) (later : List Statement)
    (h : ∀ s ∈ later, s.Everywhere P) :
    ∀ l ∈ outlineAll above number parent earlier next later, l.statement.Everywhere P := by
  match later with
  | [] => simp [outlineAll]
  | s :: later =>
    intro l hl
    rw [outlineAll, List.mem_append] at hl
    rcases hl with hl | hl
    · exact outline_everywhere _ next s (h s (by simp)) l hl
    · exact outlineAll_everywhere above number parent _ _ later
        (fun s hs => h s (List.mem_cons_of_mem _ hs)) l hl

end

mutual

theorem outline_above {P : Statement → Prop} (above : List Level) (number : Nat) (s : Statement)
    (h : s.Everywhere P) (habove : ∀ level ∈ above, P level.statement) :
    ∀ l ∈ outline above number s, ∀ level ∈ l.above, P level.statement := by
  match s with
  | ⟨kind, first, stop, doc?, children⟩ =>
    intro l hl
    rw [outline, List.mem_cons] at hl
    rcases hl with rfl | hl
    · exact habove
    · exact outlineAll_above above number _ [] (number + 1) children h.here habove
        (fun _ => h.child) l hl

theorem outlineAll_above {P : Statement → Prop} (above : List Level) (number : Nat)
    (parent : Statement) (earlier : List Statement) (next : Nat) (later : List Statement)
    (hparent : P parent) (habove : ∀ level ∈ above, P level.statement)
    (h : ∀ s ∈ later, s.Everywhere P) :
    ∀ l ∈ outlineAll above number parent earlier next later, ∀ level ∈ l.above, P level.statement := by
  match later with
  | [] => simp [outlineAll]
  | s :: later =>
    rw [List.forall_mem_cons] at h
    rw [outlineAll, List.forall_mem_append]
    exact ⟨outline_above _ next s h.1 (List.forall_mem_cons.mpr ⟨hparent, habove⟩),
      outlineAll_above above number parent _ _ later hparent habove h.2⟩

end

mutual

theorem everywhere_of_outline {P : Statement → Prop} (above : List Level) (number : Nat)
    (s : Statement) (h : ∀ l ∈ outline above number s, P l.statement) : s.Everywhere P := by
  match s with
  | ⟨kind, first, stop, doc?, children⟩ =>
    rw [outline, List.forall_mem_cons] at h
    exact .intro h.1 (everywhere_of_outlineAll above number _ [] (number + 1) children h.2)

theorem everywhere_of_outlineAll {P : Statement → Prop} (above : List Level) (number : Nat)
    (parent : Statement) (earlier : List Statement) (next : Nat) (later : List Statement)
    (h : ∀ l ∈ outlineAll above number parent earlier next later, P l.statement) :
    ∀ s ∈ later, s.Everywhere P := by
  match later with
  | [] => exact List.forall_mem_nil _
  | s :: later =>
    rw [outlineAll, List.forall_mem_append] at h
    rw [List.forall_mem_cons]
    exact ⟨everywhere_of_outline _ next s h.1,
      everywhere_of_outlineAll above number parent _ _ later h.2⟩

end

namespace Parser

variable {P : Statement → Prop} {c : Code} {inner : Inner}

theorem manyUntil_forall {α : Type} {Q : α → Prop} {item : Nat → Parsed α} {stop : Nat → Bool}
    (h : ∀ p, Q (item p).value) (fuel p : Nat) : ∀ a ∈ (manyUntil item stop fuel p).value, Q a := by
  induction fuel generalizing p with
  | zero => simp [manyUntil]
  | succ fuel ih =>
    rw [manyUntil]
    split
    · simp
    · simpa using ⟨h p, ih _⟩

section Inside

variable (h : ∀ p, (inner p).value.Everywhere P)
include h

theorem branch_everywhere (p : Nat) : ∀ s ∈ (branch c inner p).value, s.Everywhere P := by
  unfold branch
  split
  · exact manyUntil_forall h _ _
  · split
    · simp
    · simpa using h p

theorem braceArms_everywhere (fuel p : Nat) :
    ∀ s ∈ (braceArms c inner fuel p).value, s.Everywhere P := by
  induction fuel generalizing p with
  | zero => simp [braceArms]
  | succ fuel ih =>
    rw [braceArms]
    split
    · intro s hs
      rcases List.mem_append.mp hs with hs | hs
      · exact branch_everywhere h _ s hs
      · exact ih _ s hs
    · split
      · exact branch_everywhere h _
      · simp

theorem colonArms_everywhere (fuel p : Nat) :
    ∀ s ∈ (colonArms c inner fuel p).value, s.Everywhere P := by
  induction fuel generalizing p with
  | zero => simp [colonArms]
  | succ fuel ih =>
    rw [colonArms]
    have harms : ∀ s ∈ (let head := if c.isAt .kwElseif p then c.groupEnd (p + 1) else p + 1
        let arm := statementsUntil c inner armWords (c.skip .colon head)
        arm.value ++ (colonArms c inner fuel arm.next).value), s.Everywhere P := by
      intro s hs
      rcases List.mem_append.mp hs with hs | hs
      · exact manyUntil_forall h _ _ s hs
      · exact ih _ s hs
    split
    · exact harms
    · exact harms
    · simp
    · simp

theorem ifStatement_everywhere (p : Nat) :
    ∀ s ∈ (ifStatement c inner p).value.2, s.Everywhere P := by
  intro s hs
  rw [ifStatement] at hs
  rcases List.mem_append.mp hs with hs | hs
  · split at hs
    · exact manyUntil_forall h _ _ s hs
    · exact branch_everywhere h _ s hs
  · split at hs
    · exact colonArms_everywhere h _ _ s hs
    · exact braceArms_everywhere h _ _ s hs

theorem declareStatement_everywhere (p : Nat) :
    ∀ s ∈ (declareStatement c inner p).value.2, s.Everywhere P := by
  simp only [declareStatement]
  split_ifs
  · exact manyUntil_forall h _ _
  · exact manyUntil_forall h _ _
  · simp

theorem namespaceStatement_everywhere (p : Nat) :
    ∀ s ∈ (namespaceStatement c inner p).value.2, s.Everywhere P := by
  unfold namespaceStatement
  dsimp only
  generalize (if c.isAtAny [.ident, .nameQualified] (p + 1) then p + 2 else p + 1) = next
  split
  · exact manyUntil_forall h _ _
  · exact manyUntil_forall h _ _

theorem shape_everywhere (p : Nat) : ∀ s ∈ (shape c inner p).value.2, s.Everywhere P := by
  rw [shape]
  split <;> try simp [leaf]
  · split
    · exact declareStatement_everywhere h p
    · simp
  · exact ifStatement_everywhere h p

end Inside

theorem node_everywhere {start : Nat} {found : Parsed (StatementKind × List Statement)}
    (hnode : P (node c start found).value) (hchildren : ∀ s ∈ found.value.2, s.Everywhere P) :
    (node c start found).value.Everywhere P := .intro hnode hchildren

theorem statement_everywhere (hother : ∀ p, P (node c p (leaf ⟨.other, p + 1, []⟩)).value)
    (hshape : ∀ depth p, P (node c p (shape c (statement c depth) p)).value) (depth p : Nat) :
    (statement c depth p).value.Everywhere P := by
  induction depth generalizing p with
  | zero => exact node_everywhere (hother p) (by simp [leaf])
  | succ depth ih => exact node_everywhere (hshape depth p) (shape_everywhere ih p)

/-- A property of all that can start at a position, given what statements inside it are read, holds of all
statements of a file. -/
theorem topStatements_everywhere_of_depth (hother : ∀ p, P (node c p (leaf ⟨.other, p + 1, []⟩)).value)
    (hshape : ∀ depth p, P (node c p (shape c (statement c depth) p)).value)
    (hspace : ∀ p, isNamespaceHeader c p →
      P (node c p (namespaceStatement c (statement c (c.size + 1)) p)).value) :
    ∀ s ∈ (topStatements c).value, s.Everywhere P := by
  have hinner := statement_everywhere hother hshape (c.size + 1)
  refine manyUntil_forall (fun p => ?_) _ _
  split
  · rename_i hheader
    exact node_everywhere (hspace p hheader) (namespaceStatement_everywhere hinner p)
  · exact hinner p

theorem topStatements_everywhere (hother : ∀ p, P (node c p (leaf ⟨.other, p + 1, []⟩)).value)
    (hshape : ∀ inner p, P (node c p (shape c inner p)).value)
    (hspace : ∀ inner p, isNamespaceHeader c p → P (node c p (namespaceStatement c inner p)).value) :
    ∀ s ∈ (topStatements c).value, s.Everywhere P :=
  topStatements_everywhere_of_depth hother (fun depth => hshape (statement c depth)) fun p => hspace _ p

end Parser

namespace SourceFile

theorem outline_forall {P : Statement → Prop} {t : Text} (hroot : P (parse t).root)
    (h : ∀ s ∈ (parse t).root.children, s.Everywhere P) :
    ∀ l ∈ (parse t).outline, P l.statement := fun l hl =>
  (outline_everywhere [] 0 _ (.intro hroot h) l hl).here

theorem outline_above_forall {P : Statement → Prop} {t : Text} (hroot : P (parse t).root)
    (h : ∀ s ∈ (parse t).root.children, s.Everywhere P) :
    ∀ l ∈ (parse t).outline, ∀ level ∈ l.above, P level.statement :=
  outline_above [] 0 _ (.intro hroot h) (List.forall_mem_nil _)

end SourceFile

/-- Statements of an outline with others inside them: each level is the place of one, and the levels
above it are the ones above that. -/
def Rooted (all : List Located) (above : List Level) : Prop :=
  ∀ level outer, (level :: outer) <:+ above →
    ⟨level.number, level.statement, outer⟩ ∈ all ∧ level.statement.children ≠ []

theorem Rooted.cons {all : List Located} {above : List Level} (h : Rooted all above) {level : Level}
    (hlevel : ⟨level.number, level.statement, above⟩ ∈ all) (hchildren : level.statement.children ≠ []) :
    Rooted all (level :: above) := by
  intro next outer hsuffix
  rcases List.suffix_cons_iff.mp hsuffix with heq | hsuffix
  · cases heq
    exact ⟨hlevel, hchildren⟩
  · exact h next outer hsuffix

mutual

theorem outline_rooted {all : List Located} (above : List Level) (number : Nat) (s : Statement)
    (habove : Rooted all above) (hall : outline above number s ⊆ all) :
    ∀ l ∈ outline above number s, Rooted all l.above := by
  match s with
  | ⟨kind, first, stop, doc?, children⟩ =>
    rw [outline] at hall ⊢
    obtain ⟨hhere, hinside⟩ := List.cons_subset.mp hall
    rw [List.forall_mem_cons]
    exact ⟨habove, outlineAll_rooted above number _ [] (number + 1) children habove hhere
      (fun _ hmem => hmem) hinside⟩

theorem outlineAll_rooted {all : List Located} (above : List Level) (number : Nat)
    (parent : Statement) (earlier : List Statement) (next : Nat) (later : List Statement)
    (habove : Rooted all above) (hparent : ⟨number, parent, above⟩ ∈ all)
    (hlater : later ⊆ parent.children)
    (hall : outlineAll above number parent earlier next later ⊆ all) :
    ∀ l ∈ outlineAll above number parent earlier next later, Rooted all l.above := by
  match later with
  | [] => simp [outlineAll]
  | s :: later =>
    rw [outlineAll] at hall ⊢
    obtain ⟨hchild, hrest⟩ := List.append_subset.mp hall
    obtain ⟨hmem, hlater⟩ := List.cons_subset.mp hlater
    have hcons : Rooted all (⟨number, parent, earlier⟩ :: above) :=
      habove.cons hparent (List.ne_nil_of_mem hmem)
    rw [List.forall_mem_append]
    exact ⟨outline_rooted _ next s hcons hchild,
      outlineAll_rooted above number parent _ _ later habove hparent hlater hrest⟩

end

/-- Numbers go down on the way from a statement to the root. -/
def Located.Descending (l : Located) : Prop :=
  (l.number :: l.above.map (·.number)).Pairwise (· > ·)

mutual

theorem outline_descending (above : List Level) (number : Nat) (s : Statement)
    (habove : (number :: above.map (·.number)).Pairwise (· > ·)) :
    ∀ l ∈ outline above number s, l.Descending := by
  match s with
  | ⟨kind, first, stop, doc?, children⟩ =>
    rw [outline, List.forall_mem_cons]
    exact ⟨habove, outlineAll_descending above number _ [] (number + 1) children habove
      (Nat.lt_succ_self number)⟩

theorem outlineAll_descending (above : List Level) (number : Nat) (parent : Statement)
    (earlier : List Statement) (next : Nat) (later : List Statement)
    (habove : (number :: above.map (·.number)).Pairwise (· > ·)) (hnext : number < next) :
    ∀ l ∈ outlineAll above number parent earlier next later, l.Descending := by
  match later with
  | [] => simp [outlineAll]
  | s :: later =>
    have hcons : (next :: (⟨number, parent, earlier⟩ :: above : List Level).map
        (·.number)).Pairwise (· > ·) := by
      refine List.pairwise_cons.mpr ⟨fun n hn => ?_, habove⟩
      rcases List.mem_cons.mp hn with rfl | hn
      · exact hnext
      · exact Nat.lt_trans ((List.pairwise_cons.mp habove).1 n hn) hnext
    rw [outlineAll, List.forall_mem_append]
    exact ⟨outline_descending _ next s hcons, outlineAll_descending above number parent _ _ later
      habove (Nat.lt_of_lt_of_le hnext (Nat.le_add_right _ _))⟩

end

namespace SourceFile

variable {f : SourceFile} {l : Located}

theorem rooted (hl : l ∈ f.outline) : Rooted f.outline l.above :=
  outline_rooted [] 0 f.root (fun _ _ h => nomatch List.suffix_nil.mp h) (fun _ h => h) l hl

theorem descending (hl : l ∈ f.outline) : l.Descending :=
  outline_descending [] 0 f.root (List.pairwise_singleton _ _) l hl

end SourceFile

/-- The kinds of statements that others can stand in. -/
def StatementKind.Holds : StatementKind → Prop
  | .sourceFile | .space .. | .declare _ true | .conditional => True
  | _ => False

def Statement.HoldsIfAny (s : Statement) : Prop := s.children ≠ [] → s.kind.Holds

namespace Parser

theorem declareStatement_holds (c : Code) (inner : Inner) (p : Nat) :
    (declareStatement c inner p).value.2 ≠ [] → (declareStatement c inner p).value.1.Holds := by
  simp only [declareStatement]
  split_ifs
  · exact fun _ => trivial
  · exact fun _ => trivial
  · exact fun h => absurd rfl h

theorem shape_holds (c : Code) (inner : Inner) (p : Nat) :
    (shape c inner p).value.2 ≠ [] → (shape c inner p).value.1.Holds := by
  rw [shape]
  split <;> try exact fun h => absurd rfl h
  · split
    · exact declareStatement_holds c inner p
    · exact fun h => absurd rfl h
  · exact fun _ => trivial

theorem namespaceStatement_holds (c : Code) (inner : Inner) (p : Nat) :
    (namespaceStatement c inner p).value.1.Holds := by
  unfold namespaceStatement
  dsimp only
  generalize (if c.isAtAny [.ident, .nameQualified] (p + 1) then p + 2 else p + 1) = next
  split <;> trivial

end Parser

namespace SourceFile

theorem outline_holds {t : Text} {l : Located} (hl : l ∈ (parse t).outline) :
    l.statement.children ≠ [] → l.statement.kind.Holds :=
  outline_forall (P := Statement.HoldsIfAny) (fun _ => trivial)
    (Parser.topStatements_everywhere (fun _ h => absurd rfl h) (fun _ _ => Parser.shape_holds _ _ _)
      fun _ _ _ _ => Parser.namespaceStatement_holds _ _ _) l hl

end SourceFile
end NamespaceMigration
