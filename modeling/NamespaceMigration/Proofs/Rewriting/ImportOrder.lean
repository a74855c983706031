import NamespaceMigration.Proofs.Rendering.Adapted

/-! Imports in source order. The names that a scope imports stand at tokens of their own, one after the
other. -/
namespace NamespaceMigration
namespace Parser

variable {c : Code}

/-- Items whose names come in order. -/
def ItemsInOrder (items : List ImportItem) : Prop := items.Pairwise fun a b => a.nameToken < b.nameToken

/-- Items in order that were found at the positions from `p` on, or trouble there. -/
structure OrderedFrom (c : Code) (p : Nat) (x : Except Nat (List ImportItem × Nat)) : Prop where
  found : FoundFrom c p x
  order : ∀ found, x = .ok found → ItemsInOrder found.1

theorem OrderedFrom.append (ho : c.Ordered) {p q : Nat} {items : List ImportItem}
    {x : Except Nat (List ImportItem × Nat)} (hx : OrderedFrom c q x) (hpq : p ≤ q)
    (hitems : ∀ item ∈ items, ∃ r, p ≤ r ∧ r < q ∧ item.nameToken = c.tokenIndex r)
    (horder : ItemsInOrder items) :
    OrderedFrom c p (x >>= fun (more, stop) => .ok (items ++ more, stop)) := by
  refine ⟨.append items hx.found hpq hitems, fun found hfound => ?_⟩
  cases x with
  | error trouble => cases hfound
  | ok y =>
    cases hfound
    obtain ⟨⟨-, hsize⟩, hmore⟩ := hx.found
    refine List.pairwise_append.mpr ⟨horder, hx.order y rfl, fun a ha b hb => ?_⟩
    obtain ⟨r, -, hrq, hr⟩ := hitems a ha
    obtain ⟨r', hqr', hr'stop, hr'⟩ := hmore b hb
    rw [hr, hr']
    exact ho.index r r' (by omega) (by omega)

theorem groupItems_ordered (ho : c.Ordered) (kind : SymbolKind) (lead : Text) (fuel : Nat) {p : Nat}
    (hp : p ≤ c.size) : OrderedFrom c p (groupItems c kind lead fuel p) := by
  induction fuel generalizing p with
  | zero => exact ⟨groupItems_found kind lead 0 hp, fun _ h => by cases h⟩
  | succ fuel ih =>
    have hfound := groupItems_found kind lead (fuel + 1) hp
    have hstart := (afterImportKind_reaches hp).1
    rw [groupItems] at hfound ⊢
    split_ifs at hfound ⊢ with hclose
    · exact ⟨hfound, fun found h => by cases h; exact .nil⟩
    · dsimp only at hfound ⊢
      split_ifs at hfound ⊢ with hname hcomma hend
      · exact ⟨hfound, fun _ h => by cases h⟩
      · have hname : c.isAtAny [.ident, .nameQualified] (afterImportKind c p) := by simpa using hname
        have hnext : afterImportKind c p + 1 ≤ (importAlias c (afterImportKind c p + 1)).2 :=
          (importAlias_reaches (Code.lt_size_of_isAtAny hname)).1
        exact OrderedFrom.append ho (ih (Code.lt_size_of_isAt hcomma)) (by omega)
          (List.forall_mem_singleton.mpr ⟨_, hstart, by omega, rfl⟩) (List.pairwise_singleton _ _)
      · exact ⟨hfound, fun found h => by cases h; exact List.pairwise_singleton _ _⟩
      · exact ⟨hfound, fun _ h => by cases h⟩

theorem importItems_ordered (ho : c.Ordered) (kind : SymbolKind) (fuel : Nat) {p : Nat}
    (hp : p ≤ c.size) : OrderedFrom c p (importItems c kind fuel p) := by
  induction fuel generalizing p with
  | zero => exact ⟨importItems_found kind 0 hp, fun _ h => by cases h⟩
  | succ fuel ih =>
    have hmore {items : List ImportItem} {next : Nat} (h : OrderedFrom c p (.ok (items, next))) :
        OrderedFrom c p (if c.isAt .comma next then do
            let (more, stop) ← importItems c kind fuel (next + 1)
            .ok (items ++ more, stop)
          else .ok (items, next)) := by
      split
      · rename_i hcomma
        obtain ⟨⟨hnext, -⟩, hitems⟩ := h.found
        refine OrderedFrom.append ho (ih (Code.lt_size_of_isAt hcomma)) (by omega) (fun item hitem => ?_)
          (h.order _ rfl)
        obtain ⟨r, hpr, hr, heq⟩ := hitems item hitem
        exact ⟨r, hpr, by omega, heq⟩
      · exact h
    have hfound := importItems_found kind (fuel + 1) hp
    rw [importItems] at hfound ⊢
    split at hfound
    · rename_i hname
      rw [if_pos hname]
      exact ⟨hfound, fun _ h => by cases h⟩
    · rename_i hname
      rw [if_neg hname]
      have hname : p < c.size := Code.lt_size_of_isAtAny (by simpa using hname)
      dsimp only
      split
      · rename_i hgroup
        have hitems := groupItems_ordered ho kind (dropBackslashes (c.text p)) (c.size + 1)
          (Code.lt_size_of_isAt hgroup.2)
        cases hx : groupItems c kind (dropBackslashes (c.text p)) (c.size + 1) (p + 3) with
        | error trouble =>
          rw [hx] at hitems
          exact ⟨⟨by have := hitems.found.1; omega, hitems.found.2⟩, fun _ h => by cases h⟩
        | ok found =>
          obtain ⟨items, next⟩ := found
          rw [hx] at hitems
          obtain ⟨⟨hnext, hsize⟩, hall⟩ := hitems.found
          refine hmore ⟨⟨⟨by omega, hsize⟩, fun item hitem => ?_⟩, hitems.order⟩
          obtain ⟨r, hpr, hr⟩ := hall item hitem
          exact ⟨r, by omega, hr⟩
      · have hnext := importAlias_reaches hname
        refine hmore ⟨⟨hnext, ?_⟩, fun found h => by cases h; exact List.pairwise_singleton _ _⟩
        exact List.forall_mem_singleton.mpr ⟨p, Nat.le_refl p, hnext.1, rfl⟩

theorem useStatement_inOrder (ho : c.Ordered) {p : Nat} (hp : p < c.size) {items : List ImportItem}
    (h : (useStatement c p).value = .imports items) : ItemsInOrder items := by
  have hstart := (afterImportKind_reaches (c := c) (p := p + 1) hp).2
  have hordered := importItems_ordered ho ((importKind? c (p + 1)).getD .type) (c.size + 1) hstart
  rw [useStatement] at h
  dsimp only at h
  split at h
  · cases h
  · rename_i items' next hok
    split at h
    · cases h
      exact hordered.order _ hok
    · cases h

/-- What a statement imports comes in order. -/
def ImportsInOrder (s : Statement) : Prop := ∀ items, s.kind = .imports items → ItemsInOrder items

theorem topStatements_importsInOrder (ho : c.Ordered) :
    ∀ s ∈ (topStatements c).value, s.Everywhere ImportsInOrder := by
  refine topStatements_everywhere (fun _ _ h => nomatch h) (fun inner p items h => ?_)
    fun inner p _ items h => ?_
  · obtain ⟨hkind, hshape⟩ := shape_imports h
    rw [hshape] at h
    exact useStatement_inOrder ho (Code.lt_size_of_kind? hkind) h
  · change (namespaceStatement c inner p).value.1 = _ at h
    rw [namespaceStatement] at h
    dsimp only at h
    split_ifs at h

end Parser

namespace SourceFile

variable {t : Text}

theorem importItems_inside {l : Located} (hl : l ∈ (parse t).outline) {items : List ImportItem}
    (hitems : l.statement.importItems? = some items) : Parser.ItemsInOrder items ∧
      ∀ item ∈ items, l.statement.first ≤ item.nameToken ∧ item.nameToken < l.statement.stop := by
  have ho : (Code.ofText t).Ordered := Code.ordered_ofTokens _ _
  have hkind := importItems?_eq_some.mp hitems
  have horder : Parser.ImportsInOrder l.statement :=
    outline_forall (fun items hitems => by cases hitems) (Parser.topStatements_importsInOrder ho) l hl
  have hinside : Parser.ImportsInside (.ofText t) l.statement :=
    outline_forall (fun items hitems => by cases hitems) (Parser.topStatements_importsInside ho) l hl
  obtain ⟨p, n, hcovers, hall⟩ := hinside items hkind
  refine ⟨horder items hkind, fun item hitem => ?_⟩
  obtain ⟨q, hpq, hqn, hindex⟩ := hall item hitem
  rw [hindex]
  exact (hcovers.mem_iff ho (Nat.lt_of_lt_of_le hqn hcovers.le)).mpr ⟨Nat.le_of_lt hpq, hqn⟩

/-- The names that a scope imports come in order. -/
theorem scopeImports_inOrder {s : Scope} (hs : s ∈ (parse t).scopes) :
    Parser.ItemsInOrder ((parse t).scopeImports s) := by
  have hhome := home_mem_outline hs
  have hchild (child : Statement) (hchild : child ∈ s.home.statement.children) {items : List ImportItem}
      (hitems : child.importItems? = some items) : Parser.ItemsInOrder items ∧
        ∀ item ∈ items, child.first ≤ item.nameToken ∧ item.nameToken < child.stop := by
    rw [← (parse t).outline_inside s.home hhome] at hchild
    obtain ⟨l, hl, rfl⟩ := List.mem_map.mp hchild
    exact importItems_inside (List.mem_of_mem_filter hl) hitems
  rw [scopeImports_eq hhome, Parser.ItemsInOrder, List.pairwise_flatMap]
  refine ⟨fun child hmem => ?_, (children_apart hhome).imp_of_mem fun {a b} ha hb hle x hx y hy => ?_⟩
  · cases hitems : child.importItems? with
    | none => exact .nil
    | some items => exact (hchild child hmem hitems).1
  · cases hitems : a.importItems? with
    | none =>
      rw [hitems] at hx
      cases hx
    | some items =>
      cases hitems' : b.importItems? with
      | none =>
        rw [hitems'] at hy
        cases hy
      | some items' =>
        rw [hitems] at hx
        rw [hitems'] at hy
        have hx' := (hchild a ha hitems).2 x hx
        have hy' := (hchild b hb hitems').2 y hy
        omega

end SourceFile
end NamespaceMigration
