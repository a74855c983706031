import Mathlib.Data.List.Pairwise
import NamespaceMigration.Proofs.Statements.Everywhere
import NamespaceMigration.Proofs.Statements.Outline
import NamespaceMigration.Proofs.Statements.Placement

/-! The statements of every file, malformed ones included, are a tree over its tokens: statements are
numbered in source order, lie inside their parents and beside each other, and start at different tokens. -/
namespace NamespaceMigration

open Statement (Placed InRow)

mutual

theorem outline_numbers (above : List Level) (number : Nat) (s : Statement) :
    (outline above number s).map (·.number) = List.range' number (outline above number s).length := by
  match s with
  | ⟨kind, first, stop, doc?, children⟩ =>
    rw [outline, List.map_cons, outlineAll_numbers, List.length_cons, List.range'_succ]

theorem outlineAll_numbers (above : List Level) (number : Nat) (parent : Statement)
    (earlier : List Statement) (next : Nat) (later : List Statement) :
    (outlineAll above number parent earlier next later).map (·.number) =
      List.range' next (outlineAll above number parent earlier next later).length := by
  match later with
  | [] => rfl
  | s :: later =>
    rw [outlineAll, List.map_append, outline_numbers, outlineAll_numbers, List.length_append,
      List.range'_append_1]

end

section Places

variable {c : Code}

mutual

theorem outline_placed (above : List Level) (number : Nat) (s : Statement) {p n : Nat}
    (h : s.Placed c p n) : ∀ l ∈ outline above number s,
      ∃ q m, p ≤ q ∧ m ≤ n ∧ l.statement.Placed c q m := by
  match s with
  | ⟨kind, first, stop, doc?, children⟩ =>
    intro l hl
    rw [outline, List.mem_cons] at hl
    rcases hl with rfl | hl
    · exact ⟨p, n, Nat.le_refl p, Nat.le_refl n, h⟩
    · obtain ⟨q, m, hq, hm, hplaced⟩ :=
        outlineAll_placed above number _ [] (number + 1) children h.children l hl
      exact ⟨q, m, Nat.le_of_succ_le hq, hm, hplaced⟩

theorem outlineAll_placed (above : List Level) (number : Nat) (parent : Statement)
    (earlier : List Statement) (next : Nat) (later : List Statement) {p n : Nat}
    (h : InRow c p n later) : ∀ l ∈ outlineAll above number parent earlier next later,
      ∃ q m, p ≤ q ∧ m ≤ n ∧ l.statement.Placed c q m := by
  match later, h with
  | [], _ => simp [outlineAll]
  | s :: later, .cons (q := q) (m := m) hpq hs hlater =>
    intro l hl
    rw [outlineAll, List.mem_append] at hl
    rcases hl with hl | hl
    · obtain ⟨q', m', hq', hm', hplaced⟩ := outline_placed _ next s hs l hl
      exact ⟨q', m', Nat.le_trans hpq hq', Nat.le_trans hm' hlater.le, hplaced⟩
    · obtain ⟨q', m', hq', hm', hplaced⟩ :=
        outlineAll_placed above number parent _ _ later hlater l hl
      have := hs.covers.lt
      exact ⟨q', m', by omega, hm', hplaced⟩

end

mutual

theorem outline_starts (ho : c.Ordered) (above : List Level) (number : Nat) (s : Statement) {p n : Nat}
    (h : s.Placed c p n) :
    (outline above number s).Pairwise fun l l' => l.statement.first < l'.statement.first := by
  match s with
  | ⟨kind, first, stop, doc?, children⟩ =>
    rw [outline, List.pairwise_cons]
    refine ⟨fun l hl => ?_, outlineAll_starts ho above number _ [] (number + 1) children h.children⟩
    obtain ⟨q, m, hq, hm, hplaced⟩ :=
      outlineAll_placed above number _ [] (number + 1) children h.children l hl
    have hlt := hplaced.covers.lt
    have hle := hplaced.covers.le
    rw [h.covers.first, hplaced.covers.first]
    exact ho.index p q (by omega) (by omega)

theorem outlineAll_starts (ho : c.Ordered) (above : List Level) (number : Nat) (parent : Statement)
    (earlier : List Statement) (next : Nat) (later : List Statement) {p n : Nat}
    (h : InRow c p n later) : (outlineAll above number parent earlier next later).Pairwise
      fun l l' => l.statement.first < l'.statement.first := by
  match later, h with
  | [], _ => exact .nil
  | s :: later, .cons (q := q) (m := m) hpq hs hlater =>
    rw [outlineAll, List.pairwise_append]
    refine ⟨outline_starts ho _ next s hs, outlineAll_starts ho above number parent _ _ later hlater,
      fun l hl l' hl' => ?_⟩
    obtain ⟨q, m, -, hm, hplaced⟩ := outline_placed _ next s hs l hl
    obtain ⟨q', m', hq', -, hplaced'⟩ :=
      outlineAll_placed above number parent _ _ later hlater l' hl'
    have hlt := hplaced.covers.lt
    have hlt' := hplaced'.covers.lt
    have hle' := hplaced'.covers.le
    rw [hplaced.covers.first, hplaced'.covers.first]
    exact ho.index q q' (by omega) (by omega)

end

mutual

theorem outline_extends (above : List Level) (number : Nat) (s : Statement) :
    ∀ l ∈ outline above number s, ∃ inner, l.above = inner ++ above := by
  match s with
  | ⟨kind, first, stop, doc?, children⟩ =>
    intro l hl
    rw [outline, List.mem_cons] at hl
    rcases hl with rfl | hl
    · exact ⟨[], rfl⟩
    · obtain ⟨inner, earlier, habove⟩ := outlineAll_extends above number _ [] (number + 1) children l hl
      exact ⟨inner ++ [⟨number, _, earlier⟩], by rw [habove, List.append_assoc]; rfl⟩

theorem outlineAll_extends (above : List Level) (number : Nat) (parent : Statement)
    (earlier : List Statement) (next : Nat) (later : List Statement) :
    ∀ l ∈ outlineAll above number parent earlier next later,
      ∃ inner earlier, l.above = inner ++ ⟨number, parent, earlier⟩ :: above := by
  match later with
  | [] => simp [outlineAll]
  | s :: later =>
    intro l hl
    rw [outlineAll, List.mem_append] at hl
    rcases hl with hl | hl
    · obtain ⟨inner, habove⟩ := outline_extends _ next s l hl
      exact ⟨inner, earlier, habove⟩
    · exact outlineAll_extends above number parent _ _ later l hl

end

/-- A statement ends before another one starts, or the other one is inside it. -/
def Located.IsBeforeOrAround (l l' : Located) : Prop :=
  l.statement.stop ≤ l'.statement.first ∨ ∃ level ∈ l'.above, level.statement = l.statement

mutual

theorem outline_apart (ho : c.Ordered) (above : List Level) (number : Nat) (s : Statement) {p n : Nat}
    (h : s.Placed c p n) : (outline above number s).Pairwise Located.IsBeforeOrAround := by
  match s with
  | ⟨kind, first, stop, doc?, children⟩ =>
    rw [outline, List.pairwise_cons]
    refine ⟨fun l hl => Or.inr ?_, outlineAll_apart ho above number _ [] (number + 1) children h.children⟩
    obtain ⟨inner, earlier, habove⟩ := outlineAll_extends above number _ [] (number + 1) children l hl
    exact ⟨⟨number, _, earlier⟩, habove ▸ List.mem_append_right _ List.mem_cons_self, rfl⟩

theorem outlineAll_apart (ho : c.Ordered) (above : List Level) (number : Nat) (parent : Statement)
    (earlier : List Statement) (next : Nat) (later : List Statement) {p n : Nat}
    (h : InRow c p n later) :
    (outlineAll above number parent earlier next later).Pairwise Located.IsBeforeOrAround := by
  match later, h with
  | [], _ => exact .nil
  | s :: later, .cons (q := q) (m := m) hpq hs hlater =>
    rw [outlineAll, List.pairwise_append]
    refine ⟨outline_apart ho _ next s hs, outlineAll_apart ho above number parent _ _ later hlater,
      fun l hl l' hl' => Or.inl ?_⟩
    obtain ⟨q, m, -, hm, hplaced⟩ := outline_placed _ next s hs l hl
    obtain ⟨q', m', hq', -, hplaced'⟩ :=
      outlineAll_placed above number parent _ _ later hlater l' hl'
    have hlt := hplaced.covers.lt
    have hlt' := hplaced'.covers.lt
    have hle' := hplaced'.covers.le
    rw [hplaced.covers.stop, hplaced'.covers.first]
    exact ho.index (m - 1) q' (by omega) (by omega)

end

end Places

/-- Only trivia stand from a comment that documents a token up to that token. -/
theorem Code.leadingDoc?_eq_some {c : Code} {index doc : Nat} (h : c.leadingDoc? index = some doc) :
    doc < index ∧ ∀ k, doc ≤ k → k < index → ∃ token, c.tokens[k]? = some token ∧ token.kind.isTrivia := by
  induction index with
  | zero => cases h
  | succ index ih =>
    rw [leadingDoc?] at h
    cases htoken : c.tokens[index]? with
    | none =>
      rw [htoken] at h
      cases h
    | some token =>
      rw [htoken, Option.map_some] at h
      have hgo (htrivia : token.kind.isTrivia) (hrest : c.leadingDoc? index = some doc) :
          doc < index + 1 ∧ ∀ k, doc ≤ k → k < index + 1 →
            ∃ token, c.tokens[k]? = some token ∧ token.kind.isTrivia := by
        obtain ⟨hlt, hbetween⟩ := ih hrest
        refine ⟨Nat.lt_succ_of_lt hlt, fun k hdoc hk => ?_⟩
        rcases Nat.lt_succ_iff_lt_or_eq.mp hk with hk | rfl
        · exact hbetween k hdoc hk
        · exact ⟨token, htoken, htrivia⟩
      split at h
      · rename_i hkind
        cases h
        refine ⟨Nat.lt_succ_self _, fun k hdoc hk => ?_⟩
        obtain rfl : k = doc := by omega
        exact ⟨token, htoken, by rw [Option.some.inj hkind]; rfl⟩
      all_goals first
        | cases h
        | rename_i hkind
          exact hgo (by rw [Option.some.inj hkind]; rfl) h

theorem Code.exists_token {t : Text} {q : Nat} (hq : q < (ofText t).size) :
    ∃ token, (ofText t).tokens[(ofText t).tokenIndex q]? = some token ∧ token.kind.isTrivia = false := by
  obtain ⟨item, hitem⟩ := exists_item hq
  rw [tokenIndex_eq hitem]
  rw [ofText, items_ofTokens, List.getElem?_toArray] at hitem
  obtain ⟨htoken, htrivia⟩ := mem_itemsOf.mp (List.mem_of_getElem? hitem)
  exact ⟨item.2, by rw [ofText, ofTokens, List.getElem?_toArray]; exact htoken, htrivia⟩

namespace Statement

variable {t : Text} {s : Statement} {ss : List Statement} {p q n m : Nat}

/-- Where a statement starts with the comment that documents it. -/
def start (s : Statement) : Nat := s.doc?.getD s.first

theorem Placed.start_le (h : s.Placed (.ofText t) p n) : s.start ≤ s.first := by
  rw [start]
  cases hdoc : s.doc? with
  | none => exact Nat.le_refl _
  | some doc =>
    rw [h.doc] at hdoc
    exact Nat.le_of_lt (Code.leadingDoc?_eq_some hdoc).1

theorem Covers.first_lt_stop {c : Code} (ho : c.Ordered) (h : s.Covers c p n) : s.first < s.stop := by
  have hlt := h.lt
  have hle := h.le
  rw [h.first, h.stop, Nat.lt_succ_iff]
  exact (ho.tokenIndex_le_iff (by omega) (by omega)).mpr (by omega)

/-- A statement does not share its comment with the statement before it. -/
theorem Covers.stop_le_start {s' : Statement} (h : s.Covers (.ofText t) p n)
    (h' : s'.Placed (.ofText t) q m) (hnq : n ≤ q) : s.stop ≤ s'.start := by
  have ho : (Code.ofText t).Ordered := Code.ordered_ofTokens _ _
  have hlt := h.lt
  have hlt' := h'.covers.lt
  have hle' := h'.covers.le
  have hfirst : (Code.ofText t).tokenIndex (n - 1) < s'.first := by
    rw [h'.covers.first]
    exact ho.index (n - 1) q (by omega) (by omega)
  rw [h.stop, start]
  cases hdoc : s'.doc? with
  | none => exact hfirst
  | some doc =>
    rw [h'.doc] at hdoc
    obtain ⟨-, hbetween⟩ := Code.leadingDoc?_eq_some hdoc
    refine Nat.succ_le_of_lt (Nat.lt_of_not_le fun hle => ?_)
    obtain ⟨token, htoken, htrivia⟩ := hbetween _ hle hfirst
    obtain ⟨token', htoken', hcode⟩ := Code.exists_token (t := t) (q := n - 1) (by omega)
    rw [htoken, Option.some.injEq] at htoken'
    rw [← htoken', htrivia] at hcode
    cases hcode

theorem InRow.pairwise_start (h : InRow (.ofText t) p n ss) :
    ss.Pairwise fun s s' => s.stop ≤ s'.start := by
  induction ss generalizing p with
  | nil => exact .nil
  | cons s ss ih =>
    cases h with
    | cons hle hs hss =>
      refine List.pairwise_cons.mpr ⟨fun s' hs' => ?_, ih hss⟩
      obtain ⟨q', m', hq', -, hplaced⟩ := hss.exists_placed hs'
      exact hs.covers.stop_le_start hplaced hq'

end Statement

/-- Of runs one after the other only one has an index in it. -/
theorem filter_contains {ss : List Statement} (h : ss.Pairwise fun s s' => s.stop ≤ s'.first)
    {s : Statement} (hs : s ∈ ss) {i : Nat} (hfirst : s.first ≤ i) (hstop : i < s.stop) :
    (ss.filter fun s => s.first ≤ i ∧ i < s.stop) = [s] := by
  obtain ⟨before, after, rfl⟩ := List.append_of_mem hs
  obtain ⟨-, hafter, hbefore⟩ := List.pairwise_append.mp h
  have hnone (l : List Statement) (hl : ∀ a ∈ l, ¬(a.first ≤ i ∧ i < a.stop)) :
      (l.filter fun s => s.first ≤ i ∧ i < s.stop) = [] := by
    rw [List.filter_eq_nil_iff]
    exact fun a ha => by simpa using hl a ha
  rw [List.filter_append, List.filter_cons_of_pos (by simpa using ⟨hfirst, hstop⟩),
    hnone before ?_, hnone after ?_, List.nil_append]
  · intro a ha hin
    have := (List.pairwise_cons.mp hafter).1 a ha
    omega
  · intro a ha hin
    have := hbefore a ha s List.mem_cons_self
    omega

theorem find?_span {ls : List Located}
    (h : ls.Pairwise fun l l' => l.statement.first < l'.statement.first) {l : Located} (hl : l ∈ ls) :
    (ls.find? fun l' => l'.statement.first = l.statement.first ∧
      l'.statement.stop = l.statement.stop) = some l := by
  obtain ⟨before, after, rfl⟩ := List.append_of_mem hl
  rw [List.find?_eq_some_iff_append]
  refine ⟨by simp, before, after, rfl, fun l' hl' => ?_⟩
  have := (List.pairwise_append.mp h).2.2 l' hl' l List.mem_cons_self
  simp only [Bool.not_eq_true', decide_eq_false_iff_not]
  omega

namespace SourceFile

/-- The listing numbers the statements of a file as they come. It does so whatever statements they are. -/
structure IsNumbered (f : SourceFile) : Prop where
  /-- Statements are numbered in source order, the root being number zero. -/
  numbers : f.outline.map (·.number) = List.range f.outline.length
  /-- Every statement but the root has a parent before it. -/
  parent : ∀ l ∈ f.outline.tail, ∃ p ∈ f.outline, l.parent? = some p.number ∧ p.number < l.number
  /-- What is inside a statement is listed once, in order, and has that statement as its parent. -/
  children : ∀ p ∈ f.outline,
    (f.outline.filter (·.parent? == some p.number)).map (·.statement) = p.statement.children

/-- The statements of a file are a tree over its tokens: where they stand is what the parser answers for. -/
structure IsTree (f : SourceFile) : Prop extends IsNumbered f where
  inside : ∀ p ∈ f.outline, ∀ s ∈ p.statement.children,
    p.statement.first ≤ s.first ∧ s.stop ≤ p.statement.stop
  nonempty : ∀ l ∈ f.outline.tail, l.statement.start ≤ l.statement.first ∧
    l.statement.first < l.statement.stop
  /-- Siblings are apart, each with the comment that documents it. -/
  siblings : ∀ p ∈ f.outline, p.statement.children.Pairwise fun s s' => s.stop ≤ s'.start
  /-- Every token of code is in one statement directly inside the file. -/
  covered : ∀ i, f.isCode i →
    ∃ s, (f.root.children.filter fun s => s.first ≤ i ∧ i < s.stop) = [s]
  starts : f.outline.tail.Pairwise fun l l' => l.statement.first < l'.statement.first
  found : ∀ l ∈ f.outline.tail,
    f.findByTokens? l.statement.first l.statement.stop = some l
  scopes : f.scopes.Pairwise fun s s' => s.stop ≤ s'.first

variable {t : Text}

theorem tail_outline (f : SourceFile) :
    f.outline.tail = outlineAll [] 0 f.root [] 1 f.root.children := by
  rw [SourceFile.outline]
  obtain ⟨kind, first, stop, doc?, children⟩ := f.root
  rfl

theorem root_inRow (t : Text) : InRow (.ofText t) 0 (Code.ofText t).size (parse t).root.children :=
  Parser.topStatements_inRow (Code.ordered_ofTokens _ _)

theorem exists_placed {l : Located} (hl : l ∈ (parse t).outline.tail) :
    ∃ q m, l.statement.Placed (.ofText t) q m := by
  rw [tail_outline] at hl
  obtain ⟨q, m, -, -, hplaced⟩ := outlineAll_placed [] 0 _ [] 1 _ (root_inRow t) l hl
  exact ⟨q, m, hplaced⟩

theorem mem_outline_cases {f : SourceFile} {l : Located} (hl : l ∈ f.outline) :
    l = ⟨0, f.root, []⟩ ∨ l ∈ f.outline.tail := by
  have hcons : f.outline = ⟨0, f.root, []⟩ :: f.outline.tail := by
    rw [tail_outline, SourceFile.outline]
    obtain ⟨kind, first, stop, doc?, children⟩ := f.root
    rfl
  rw [hcons] at hl
  exact List.mem_cons.mp hl

/-- What is inside a statement stands in a row between its ends. -/
theorem exists_row {p : Located} (hp : p ∈ (parse t).outline) :
    ∃ q m, InRow (.ofText t) q m p.statement.children ∧ m ≤ (Code.ofText t).size ∧
      (∀ k, q ≤ k → k < (Code.ofText t).size → p.statement.first ≤ (Code.ofText t).tokenIndex k) ∧
      ∀ k, k < m → (Code.ofText t).tokenIndex k < p.statement.stop := by
  have ho : (Code.ofText t).Ordered := Code.ordered_ofTokens _ _
  rcases mem_outline_cases hp with rfl | hp
  · exact ⟨0, _, root_inRow t, Nat.le_refl _, fun _ _ _ => Nat.zero_le _, fun k hk => ho.bound k hk⟩
  · obtain ⟨q, m, hplaced⟩ := exists_placed hp
    have hcovers := hplaced.covers
    have hlt := hcovers.lt
    have hle := hcovers.le
    refine ⟨q + 1, m, hplaced.children, hle, fun k hk hsize => ?_, fun k hk => ?_⟩
    · rw [hcovers.first]
      exact Nat.le_of_lt (ho.index q k hk hsize)
    · rw [hcovers.stop, Nat.lt_succ_iff]
      exact (ho.tokenIndex_le_iff (by omega) (by omega)).mpr (by omega)

theorem inside_parent {p : Located} (hp : p ∈ (parse t).outline) :
    ∀ s ∈ p.statement.children, p.statement.first ≤ s.first ∧ s.stop ≤ p.statement.stop := by
  intro s hs
  obtain ⟨q, m, hrow, hm, hfirst, hstop⟩ := exists_row hp
  obtain ⟨q', m', hq', hm', hplaced⟩ := hrow.exists_placed hs
  have hlt := hplaced.covers.lt
  rw [hplaced.covers.first, hplaced.covers.stop]
  exact ⟨hfirst q' hq' (by omega), hstop (m' - 1) (by omega)⟩

theorem children_apart {l : Located} (hl : l ∈ (parse t).outline) :
    l.statement.children.Pairwise fun s s' => s.stop ≤ s'.first := by
  obtain ⟨q, m, hrow, -⟩ := exists_row hl
  refine hrow.pairwise_start.imp_of_mem fun _ hs' hle => ?_
  obtain ⟨_, _, -, -, hplaced⟩ := hrow.exists_placed hs'
  exact Nat.le_trans hle hplaced.start_le

theorem exists_parent {f : SourceFile} {l : Located} (hl : l ∈ f.outline.tail) :
    ∃ p ∈ f.outline, l.parent? = some p.number ∧ p.number < l.number := by
  have hmem := List.mem_of_mem_tail hl
  rw [tail_outline] at hl
  obtain ⟨m, hparent, -⟩ := outlineAll_parent [] 0 f.root [] 1 f.root.children (Nat.zero_le 1) l hl
  obtain ⟨level, hlevel, rfl⟩ := Option.map_eq_some_iff.mp hparent
  obtain ⟨outer, habove⟩ : ∃ outer, l.above = level :: outer := List.head?_eq_some_iff.mp hlevel
  have hrooted := (f.rooted hmem level outer (habove ▸ List.suffix_refl _)).1
  have hdescending := f.descending hmem
  rw [Located.Descending, habove] at hdescending
  exact ⟨_, hrooted, hparent, (List.pairwise_cons.mp hdescending).1 _ List.mem_cons_self⟩

theorem exists_position {i : Nat} (h : (parse t).isCode i) :
    ∃ q < (Code.ofText t).size, (Code.ofText t).tokenIndex q = i := by
  rw [isCode, kind?] at h
  obtain ⟨token, htoken, htrivia⟩ : ∃ token, (Lexer.tokenize t)[i]? = some token ∧
      token.kind.isTrivia = false := by
    simpa [Option.any_eq_true, parse] using h
  have hmem : (i, token) ∈ Code.itemsOf (Lexer.tokenize t) := Code.mem_itemsOf.mpr ⟨htoken, htrivia⟩
  obtain ⟨q, hq⟩ := List.getElem?_of_mem hmem
  have hitem : (Code.ofText t).items[q]? = some (i, token) := by
    rw [Code.ofText, Code.items_ofTokens, List.getElem?_toArray, hq]
  exact ⟨q, (Array.getElem?_eq_some_iff.mp hitem).1, Code.tokenIndex_eq hitem⟩

theorem starts_parse (t : Text) : (parse t).outline.tail.Pairwise
    fun l l' => l.statement.first < l'.statement.first := by
  rw [tail_outline]
  exact outlineAll_starts (Code.ordered_ofTokens _ _) [] 0 _ [] 1 _ (root_inRow t)

theorem apart_parse (t : Text) : (parse t).outline.tail.Pairwise Located.IsBeforeOrAround := by
  rw [tail_outline]
  exact outlineAll_apart (Code.ordered_ofTokens _ _) [] 0 _ [] 1 _ (root_inRow t)

theorem eq_or_of_pairwise {α : Type} {R : α → α → Prop} {l : List α} (h : l.Pairwise R) {a b : α} (ha : a ∈ l)
    (hb : b ∈ l) : a = b ∨ R a b ∨ R b a := by
  by_contra hno
  obtain ⟨hne, hapart⟩ := not_or.mp hno
  have : Std.Symm fun a b => R a b ∨ R b a := ⟨fun _ _ h => h.symm⟩
  exact hapart ((h.imp (S := fun a b => R a b ∨ R b a) Or.inl).forall ha hb hne)

theorem eq_of_number {f : SourceFile} {l l' : Located} (hl : l ∈ f.outline) (hl' : l' ∈ f.outline)
    (h : l.number = l'.number) : l = l' := by
  refine List.inj_on_of_nodup_map ?_ hl hl' h
  rw [SourceFile.outline, outline_numbers]
  exact List.nodup_range'

theorem nodup_outline (f : SourceFile) : f.outline.Nodup := by
  refine List.Nodup.of_map (·.number) ?_
  rw [SourceFile.outline, outline_numbers]
  exact List.nodup_range'

theorem inside_above {l : Located} (hl : l ∈ (parse t).outline) : ∀ level ∈ l.above,
    level.statement.first ≤ l.statement.first ∧ l.statement.stop ≤ level.statement.stop := by
  have hrooted := rooted hl
  obtain ⟨number, statement, above⟩ := l
  induction above generalizing number statement with
  | nil => exact List.forall_mem_nil _
  | cons level outer ih =>
    have hparent := (hrooted level outer (List.suffix_refl _)).1
    have hchild : statement ∈ level.statement.children := by
      rw [← outline_inside _ _ hparent]
      exact List.mem_map_of_mem (List.mem_filter.mpr ⟨hl, by simp [Located.parent?]⟩)
    have hin := inside_parent hparent statement hchild
    refine List.forall_mem_cons.mpr ⟨hin, fun level' hlevel' => ?_⟩
    have hout := ih level.number level.statement hparent (rooted hparent) level' hlevel'
    exact ⟨Nat.le_trans hout.1 hin.1, Nat.le_trans hin.2 hout.2⟩

theorem isNumbered (f : SourceFile) : f.IsNumbered where
  numbers := by
    rw [List.range_eq_range']
    exact outline_numbers [] 0 f.root
  parent _ := exists_parent
  children := outline_inside _

/-- Every text is read as a tree of statements. -/
theorem parse_isTree (t : Text) : (parse t).IsTree where
  toIsNumbered := isNumbered _
  inside _ := inside_parent
  nonempty l hl := by
    obtain ⟨q, m, hplaced⟩ := exists_placed hl
    exact ⟨hplaced.start_le, hplaced.covers.first_lt_stop (Code.ordered_ofTokens _ _)⟩
  siblings p hp := by
    obtain ⟨q, m, hrow, -⟩ := exists_row hp
    exact hrow.pairwise_start
  covered i hi := by
    have ho : (Code.ofText t).Ordered := Code.ordered_ofTokens _ _
    obtain ⟨q, hq, rfl⟩ := exists_position hi
    obtain ⟨s, hs, p, n, hcovers, hp, hn⟩ := Parser.exists_topStatement ho hq
    obtain ⟨hfirst, hstop⟩ := (hcovers.mem_iff ho hq).mpr ⟨hp, hn⟩
    exact ⟨s, filter_contains (Parser.topStatements_pairwise ho) hs hfirst hstop⟩
  starts := starts_parse t
  found _ := find?_span (starts_parse t)
  scopes := scopes_pairwise t

end SourceFile
end NamespaceMigration
