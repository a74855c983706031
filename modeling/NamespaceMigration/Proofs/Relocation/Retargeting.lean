import NamespaceMigration.Proofs.Relocation.Spaces
import NamespaceMigration.Proofs.Statements.Faultless
import NamespaceMigration.Proofs.Statements.ImportRows

/-! Another name in the place of one that is imported, perhaps with the old short name as an alias. What comes before
and after it is read as it was, and the `use` statement imports the same but for that name. -/
namespace NamespaceMigration

/-- Lists that are the same but for one entry. What comes after that is the same up to the place. -/
def Altered {α : Type} (move : Nat → α → α) (a b : Nat) (R : α → α → Prop) (xs ys : List α) : Prop :=
  ∃ (before : List α) (x y : α) (vs : List α),
    xs = before ++ x :: vs.map (move a) ∧ ys = before ++ y :: vs.map (move b) ∧ R x y

namespace Altered

variable {α β : Type} {move : Nat → α → α} {move' : Nat → β → β} {a b : Nat} {R : α → α → Prop} {R' : β → β → Prop}
  {xs ys : List α}

theorem here {x y : α} (h : R x y) (vs : List α) : Altered move a b R (x :: vs.map (move a)) (y :: vs.map (move b)) :=
  ⟨[], x, y, vs, rfl, rfl, h⟩

theorem after (before : List α) (h : Altered move a b R xs ys) : Altered move a b R (before ++ xs) (before ++ ys) := by
  obtain ⟨more, x, y, vs, rfl, rfl, hR⟩ := h
  exact ⟨before ++ more, x, y, vs, (List.append_assoc ..).symm, (List.append_assoc ..).symm, hR⟩

theorem flatMap {f : α → List β} (hf : ∀ shift v, f (move shift v) = (f v).map (move' shift))
    (hR : ∀ x y, R x y → Altered move' a b R' (f x) (f y)) (h : Altered move a b R xs ys) :
    Altered move' a b R' (xs.flatMap f) (ys.flatMap f) := by
  obtain ⟨before, x, y, vs, rfl, rfl, hxy⟩ := h
  obtain ⟨inner, x', y', ws, hx, hy, hR'⟩ := hR x y hxy
  have hafter (shift : Nat) : (vs.map (move shift)).flatMap f = (vs.flatMap f).map (move' shift) := by
    rw [List.flatMap_map, List.map_flatMap]
    exact List.flatMap_congr fun v _ => hf shift v
  refine ⟨before.flatMap f ++ inner, x', y', ws ++ vs.flatMap f, ?_, ?_, hR'⟩
  · simp [hx, hafter]
  · simp [hy, hafter]

end Altered

/-- The beginning of some code. -/
def Code.Place.start (c : Code) : Code.Place := ⟨c, 0, 0⟩

/-- Codes that are the same up to a position, and again from two places on to their ends. -/
structure Spliced (a b : Code.Place) (k n : Nat) : Prop where
  front : Parallel (.start a.code) (.start b.code) k
  back : Alongside a b n
  left : k < a.first ∧ a.code.size = a.first + n
  right : k < b.first ∧ b.code.size = b.first + n

namespace Spliced

variable {a b : Code.Place} {k n p : Nat} (h : Spliced a b k n)
include h

theorem kind? (hp : p < k) : b.code.kind? p = a.code.kind? p := by
  simpa [Code.Place.start] using h.front.kind p hp

theorem isAt (hp : p < k) (kind : TokenKind) : b.code.isAt kind p = a.code.isAt kind p := by
  rw [Code.isAt, Code.isAt, h.kind? hp]

theorem isAtAny (hp : p < k) (kinds : List TokenKind) : b.code.isAtAny kinds p = a.code.isAtAny kinds p := by
  rw [Code.isAtAny, Code.isAtAny, h.kind? hp]

theorem text (hp : p < k) : b.code.text p = a.code.text p := by
  simpa [Code.Place.start] using h.front.text p hp

theorem tokenIndex (hp : p < k) : b.code.tokenIndex p = a.code.tokenIndex p := by
  obtain ⟨m, hm, hm'⟩ := h.front.index p hp
  simpa [Code.Place.start] using hm'.trans hm.symm

theorem alongside {head : TokenKind} (hp : p < k) (hhead : head.isHead) (hkind : a.code.kind? p = some head) :
    Alongside (.start a.code) (.start b.code) p where
  toParallel := h.front.mono (Nat.le_of_lt hp)
  ends := by
    refine .inr (.inr ⟨head, hhead, ?_, ?_⟩)
    · simpa [Code.Place.start] using hkind
    · simpa [Code.Place.start] using (h.kind? hp).trans hkind

theorem atEnd (hp : p < k) : a.code.atEnd p = false ∧ b.code.atEnd p = false := by
  have hleft := h.left
  have hright := h.right
  unfold Code.atEnd
  constructor
  · exact decide_eq_false (by omega)
  · exact decide_eq_false (by omega)

theorem isNamespaceHeader_eq (hp : p + 1 < k ∨ p < k ∧ a.code.kind? p = some .kwUse) :
    Parser.isNamespaceHeader b.code p = Parser.isNamespaceHeader a.code p := by
  unfold Parser.isNamespaceHeader
  rcases hp with hp | ⟨hp, huse⟩
  · rw [h.isAt (Nat.lt_of_succ_lt hp), h.isAtAny hp]
  · rw [h.isAt hp, Code.isAt, huse]
    rfl

end Spliced

/-- Another name for the one that is read at a position, perhaps with an alias. -/
structure Retargeted (a b : Code.Place) (k n : Nat) (new : Text) (short? : Option Text) : Prop extends
    Spliced a b k n where
  name : a.code.isAtAny TokenKind.importNames k ∧ b.code.isAtAny TokenKind.importNames k
  written : dropBackslashes (b.code.text k) = new
  token : b.code.tokenIndex k = a.code.tokenIndex k
  next : a.first = k + 1
  added : short? = none ∧ b.first = k + 1 ∨ ∃ short, short? = some short ∧ b.first = k + 3 ∧
    b.code.isAt .kwAs (k + 1) ∧ b.code.isAt .ident (k + 2) ∧ b.code.text (k + 2) = short

/-- The same import with another name and perhaps an alias. -/
def ImportItem.retarget (new : Text) (short? : Option Text) (item : ImportItem) : ImportItem :=
  { item with name := new, alias? := short?.or item.alias? }

/-- The name at a token, outside groups, has got another one. -/
structure ImportItem.IsRetargeted (token : Nat) (new : Text) (short? : Option Text) (item item' : ImportItem) : Prop where
  token : item.nameToken = token
  alone : item.groupLead? = none
  unaliased : short?.isSome → item.alias? = none
  eq : item' = item.retarget new short?

namespace Parser

open Code (lt_size_of_kind? lt_size_of_isAt lt_size_of_isAtAny)

section Items

variable {c : Code} {p next : Nat}

theorem not_backslash_of_importAlias {alias? : Option Text} (halias : importAlias c p = (alias?, next))
    (hend : EndsName c next) : c.isAt .backslash p = false := by
  unfold importAlias at halias
  split at halias
  · rename_i has
    rw [Code.isAt, Code.isAt_iff.mp has.1]
    rfl
  · obtain ⟨-, rfl⟩ := Prod.mk.inj halias
    exact hend.2

theorem namedItems_alone {kind : SymbolKind} {items : List ImportItem} (hok : namedItems c kind p = .ok (items, next))
    {item : ImportItem} (hitem : item ∈ items) (halone : item.groupLead? = none) :
    ∃ alias?, item = ⟨kind, dropBackslashes (c.text p), alias?, c.tokenIndex p, none⟩ ∧ items = [item] ∧
      importAlias c (p + 1) = (alias?, next) := by
  unfold namedItems at hok
  dsimp only at hok
  split at hok
  · exact absurd halone (groupItems_lead hok item hitem)
  · cases hok
    obtain rfl := List.mem_singleton.mp hitem
    exact ⟨_, rfl, rfl, rfl⟩

theorem importKind?_of_name (hname : c.isAtAny TokenKind.importNames p) : importKind? c p = none := by
  obtain ⟨kind, hmem, hkind⟩ := Code.exists_kind_of_isAtAny hname
  unfold importKind?
  rw [hkind]
  simp only [TokenKind.importNames, List.mem_cons, List.not_mem_nil, or_false] at hmem
  rcases hmem with rfl | rfl | rfl <;> rfl

end Items

/-- The name at a position is imported by the `use` statement at another one, outside groups, and without an alias
if it is to get one. -/
structure UsesName (c : Code) (u k : Nat) (short? : Option Text) (items : List ImportItem) (item : ImportItem) :
    Prop where
  lt : u < k
  keyword : c.kind? u = some .kwUse
  value : (useStatement c u).value = .imports items
  mem : item ∈ items
  token : item.nameToken = c.tokenIndex k
  alone : item.groupLead? = none
  unaliased : short?.isSome → item.alias? = none

variable {a b : Code.Place} {k n : Nat} {new : Text} {short? : Option Text}

section Uses

variable (h : Retargeted a b k n new short?)
include h

theorem importAlias_retargeted {alias? : Option Text} {next : Nat} (halias : importAlias a.code (k + 1) = (alias?, next))
    (hshort : short?.isSome → alias? = none) (hlt : next < a.code.size) (hend : EndsName a.code next) :
    ∃ q, q < n ∧ next = a.first + q ∧ importAlias b.code (k + 1) = (short?.or alias?, b.first + q) ∧
      b.code.isAt .backslash (k + 1) = false := by
  rw [h.left.2] at hlt
  rw [← h.next, ← Nat.add_zero a.first] at halias
  obtain ⟨q, hq, hqn, rfl, halias'⟩ := importAlias_tracks h.back.toAbreast halias hlt hend
  rcases h.added with ⟨rfl, hfirst⟩ | ⟨short, rfl, hfirst, has, hident, htext⟩
  · rw [Nat.add_zero, hfirst] at halias'
    have hslash : b.code.isAt .backslash (k + 1) = false := by
      refine not_backslash_of_importAlias halias' ?_
      unfold EndsName
      rw [← hfirst, h.back.isAt_lt hqn, h.back.isAt_lt hqn]
      exact hend
    exact ⟨q, hqn, rfl, hfirst ▸ halias', hslash⟩
  · obtain rfl := hshort rfl
    obtain rfl : q = 0 := by
      have hnext := importAlias_of_none (c := a.code) (p := a.first + 0) (by rw [halias])
      rw [halias] at hnext
      dsimp only at hnext
      omega
    refine ⟨0, hqn, rfl, ?_, ?_⟩
    · rw [importAlias, if_pos ⟨has, hident⟩, htext, hfirst]
      rfl
    · rw [Code.isAt, Code.isAt_iff.mp has]
      rfl

theorem namedItems_retargeted {kind : SymbolKind} {items : List ImportItem} {next : Nat}
    (hok : namedItems a.code kind k = .ok (items, next)) (hlt : next < a.code.size) (hend : EndsName a.code next)
    {item : ImportItem} (hitem : item ∈ items) (halone : item.groupLead? = none)
    (hshort : short?.isSome → item.alias? = none) :
    ∃ q, q < n ∧ next = a.first + q ∧ items = [item] ∧
      namedItems b.code kind k = .ok ([item.retarget new short?], b.first + q) := by
  obtain ⟨alias?, rfl, rfl, halias⟩ := namedItems_alone hok hitem halone
  obtain ⟨q, hq, rfl, halias', hslash⟩ := importAlias_retargeted h halias hshort hlt hend
  refine ⟨q, hq, rfl, rfl, ?_⟩
  unfold namedItems
  dsimp only
  rw [hslash, if_neg fun hall => Bool.false_ne_true hall.1, halias', h.written, h.token]
  rfl

/-- The items of a `use` statement, one of which has got another name. -/
abbrev RetargetedItems (a b : Code.Place) (token : Nat) (new : Text) (short? : Option Text) :
    List ImportItem → List ImportItem → Prop :=
  Altered ImportItem.move a.token b.token (ImportItem.IsRetargeted token new short?)

theorem importItems_retargeted (kind : SymbolKind) (fuel : Nat) {fuel' i : Nat} (hi : i ≤ k)
    (hfuel' : b.code.size < i + fuel') {items : List ImportItem} {next : Nat}
    (hok : importItems a.code kind fuel i = .ok (items, next)) (hlt : next < a.code.size) (hend : EndsName a.code next)
    {item : ImportItem} (hitem : item ∈ items) (htoken : item.nameToken = a.code.tokenIndex k)
    (halone : item.groupLead? = none) (hshort : short?.isSome → item.alias? = none) :
    ∃ q, q < n ∧ next = a.first + q ∧ ∃ items', importItems b.code kind fuel' i = .ok (items', b.first + q) ∧
      RetargetedItems a b (a.code.tokenIndex k) new short? items items' := by
  have ho := h.back.ordered.1
  have hk : k < a.code.size := lt_size_of_isAtAny h.name.1
  have hright := h.right
  induction fuel generalizing i fuel' items with
  | zero => cases hok
  | succ fuel ih =>
    obtain ⟨fuel', rfl⟩ : ∃ m, fuel' = m + 1 := ⟨fuel' - 1, by omega⟩
    rw [importItems_succ] at hok
    by_cases hname : a.code.isAtAny [.ident, .nameQualified, .nameFullyQualified] i
    swap
    · rw [if_pos (by simpa using hname)] at hok
      cases hok
    rw [if_neg (by simpa using hname)] at hok
    obtain ⟨⟨first, stop⟩, hfirst, hrest⟩ := bind_eq_ok hok
    dsimp only at hrest
    have hname' : b.code.isAtAny [.ident, .nameQualified, .nameFullyQualified] i := by
      rcases Nat.lt_or_eq_of_le hi with hik | rfl
      · rwa [h.isAtAny hik]
      · exact h.name.2
    have hreach := namedItems_found (c := a.code) kind (lt_size_of_isAtAny hname)
    rw [hfirst] at hreach
    have hforward : i + 1 ≤ stop := hreach.1.1
    -- Where the name that changes is among the items after a comma, it stands after that.
    have hlater {more : List ImportItem} {last : Nat} (hcomma : a.code.isAt .comma stop)
        (hmore : importItems a.code kind fuel (stop + 1) = .ok (more, last)) (hmem : item ∈ more) : stop + 1 ≤ k := by
      have hfound := importItems_found kind fuel (lt_size_of_isAt hcomma)
      rw [hmore] at hfound
      obtain ⟨r, hr, hrlast, hindex⟩ := hfound.2 item hmem
      have hsize : r < a.code.size := Nat.lt_of_lt_of_le hrlast hfound.1.2
      exact Nat.le_trans hr (Nat.le_of_eq (ho.eq_of_tokenIndex hsize hk (hindex.symm.trans htoken)))
    rw [importItems_succ, if_neg (by simpa using hname')]
    rcases Nat.lt_or_eq_of_le hi with hik | rfl
    · have hother : item ∉ first := fun hmem => by
        obtain ⟨_, heq, -, -⟩ := namedItems_alone hfirst hmem halone
        have hindex : item.nameToken = a.code.tokenIndex i := by rw [heq]
        have := ho.index i k hik hk
        omega
      by_cases hcomma : a.code.isAt .comma stop
      swap
      · rw [if_neg hcomma] at hrest
        cases hrest
        exact absurd hitem hother
      rw [if_pos hcomma] at hrest
      obtain ⟨⟨more, last⟩, hmore, heq⟩ := bind_eq_ok hrest
      cases heq
      have hmem := (List.mem_append.mp hitem).resolve_left hother
      have hstop := hlater hcomma hmore hmem
      have htracks := namedItems_tracks h.front.toAbreast kind hik
      simp only [Code.Place.start, Nat.zero_add] at htracks
      obtain ⟨r, -, hr, vs, rfl, hfirst'⟩ := htracks first stop hfirst (show stop < 0 + k by omega)
        (endsName_of_kind? (Code.isAt_iff.mp hcomma) (by decide))
      obtain ⟨q, hq, rfl, items', hmore', halt⟩ := ih hstop
        (show b.code.size < stop + 1 + fuel' by omega) hmore hmem
      obtain rfl : stop = r := hr.trans (Nat.zero_add r)
      have hfirst' : namedItems b.code kind i = .ok (vs.map (ImportItem.move 0), stop) := by
        simpa [Code.Place.start] using hfirst'
      rw [hfirst', ok_bind]
      dsimp only
      rw [if_pos (by rwa [h.isAt hstop]), hmore', ok_bind]
      exact ⟨q, hq, rfl, _, rfl, halt.after _⟩
    · by_cases hcomma : a.code.isAt .comma stop
      · rw [if_pos hcomma] at hrest
        obtain ⟨⟨more, last⟩, hmore, heq⟩ := bind_eq_ok hrest
        cases heq
        have hmem : item ∈ first := (List.mem_append.mp hitem).resolve_right fun hmem => by
          have := hlater hcomma hmore hmem
          omega
        obtain ⟨q, hq, rfl, rfl, hfirst'⟩ := namedItems_retargeted h hfirst (lt_size_of_isAt hcomma)
          (endsName_of_kind? (Code.isAt_iff.mp hcomma) (by decide)) hmem halone hshort
        obtain ⟨r, hr, rfl, vs, rfl, hmore'⟩ := importItems_tracks h.back.toAbreast kind fuel (i := q + 1) hq
          (show n < q + 1 + fuel' by omega) more last hmore (h.left.2 ▸ hlt) hend
        have hmore' : importItems b.code kind fuel' (b.first + q + 1) =
            .ok (vs.map (ImportItem.move b.token), b.first + r) := hmore'
        rw [hfirst', ok_bind]
        dsimp only
        rw [if_pos (by rwa [h.back.isAt_lt hq]), hmore', ok_bind]
        exact ⟨r, hr, rfl, _, rfl, .here ⟨htoken, halone, hshort, rfl⟩ vs⟩
      · rw [if_neg hcomma] at hrest
        cases hrest
        obtain ⟨q, hq, rfl, rfl, hfirst'⟩ := namedItems_retargeted h hfirst hlt hend hitem halone hshort
        rw [hfirst', ok_bind]
        dsimp only
        rw [if_neg (by rwa [h.back.isAt_lt hq])]
        exact ⟨q, hq, rfl, _, rfl, .here ⟨htoken, halone, hshort, rfl⟩ []⟩

/-- A `use` statement imports the same but for the name that changes. -/
theorem useStatement_retargeted {u : Nat} {items : List ImportItem} {item : ImportItem}
    (huses : UsesName a.code u k short? items item) :
    ∃ q, q ≤ n ∧ (useStatement a.code u).next = a.first + q ∧ ∃ items',
      useStatement b.code u = ⟨.imports items', b.first + q, []⟩ ∧
        RetargetedItems a b (a.code.tokenIndex k) new short? items items' := by
  obtain ⟨hu, -, hvalue, hitem, htoken, halone, hshort⟩ := huses
  have hk : k < a.code.size := lt_size_of_isAtAny h.name.1
  have hright := h.right
  obtain ⟨found, next, hok, hend, hfound, hnext⟩ := useStatement_wellFormed (c := a.code) (p := u)
    (by rw [useStatement_errors hvalue]; simp)
  obtain rfl := StatementKind.imports.inj (hfound.symm.trans hvalue)
  have hstart : a.code.Reaches (u + 1) (afterImportKind a.code (u + 1)) := afterImportKind_reaches (by omega)
  have hlater := importItems_found ((importKind? a.code (u + 1)).getD .type) (a.code.size + 1) hstart.2
  rw [hok] at hlater
  have hle : afterImportKind a.code (u + 1) ≤ k := by
    obtain ⟨r, hr, hrnext, hindex⟩ := hlater.2 item hitem
    have hsize : r < a.code.size := Nat.lt_of_lt_of_le hrnext hlater.1.2
    exact Nat.le_trans hr (Nat.le_of_eq (h.back.ordered.1.eq_of_tokenIndex hsize hk (hindex.symm.trans htoken)))
  have hkind : importKind? b.code (u + 1) = importKind? a.code (u + 1) := by
    rcases Nat.lt_or_eq_of_le (show u + 1 ≤ k by omega) with hlt | rfl
    · unfold importKind?
      rw [h.kind? hlt]
    · rw [importKind?_of_name h.name.1, importKind?_of_name h.name.2]
  have hafter : afterImportKind b.code (u + 1) = afterImportKind a.code (u + 1) := by
    rw [afterImportKind, afterImportKind, hkind]
  obtain ⟨q, hq, rfl, items', hok', halt⟩ := importItems_retargeted h _ _ hle
    (show b.code.size < afterImportKind a.code (u + 1) + (b.code.size + 1) by omega) hok (lt_size_of_isAtAny hend)
    (endsName_of_isTerminator hend) hitem htoken halone hshort
  have hend' : isTerminator b.code (b.first + q) := by
    rw [isTerminator, h.back.isAtAny_lt hq]
    exact hend
  rw [terminator, if_pos hend] at hnext
  refine ⟨q + 1, hq, hnext, items', ?_, halt⟩
  unfold useStatement
  dsimp only
  rw [hkind, hafter, hok']
  dsimp only
  rw [if_pos hend', terminator, if_pos hend']
  rfl

end Uses

/-- A reading that goes on to the same place of what is left, with `R` between what was found. -/
def Alters {α : Type} (a b : Code.Place) (n : Nat) (R : α → α → Prop) (x y : Parsed α) : Prop :=
  y.errors = [] ∧ (∃ q, q ≤ n ∧ x.next = a.first + q ∧ y.next = b.first + q) ∧ R x.value y.value

theorem Tracks.eq_of_start {c c' : Code} {u : Nat} {α : Type} {move : Nat → α → α} {x y : Parsed α}
    (h : Tracks (.start c) (.start c') u move x y) (herrors : x.errors = []) (hle : x.next ≤ u) : y = x := by
  obtain ⟨herrors', ⟨q, -, hnext, hnext'⟩, v, hv, hv'⟩ := h herrors (by simpa [Code.Place.start] using hle)
  obtain ⟨value, next, errors⟩ := x
  obtain ⟨value', next', errors'⟩ := y
  obtain rfl : value' = value := hv'.trans hv.symm
  obtain rfl : next' = next := hnext'.trans hnext.symm
  obtain rfl : errors' = errors := herrors'.trans herrors.symm
  rfl

section Loops

variable (h : Spliced a b k n)
include h

/-- A loop that comes to something changed finds the same in front of it and after it. -/
theorem manyUntil_altered {item item' : Nat → Parsed Statement} {stop stop' : Nat → Bool} {u : Nat}
    {R : Statement → Statement → Prop} (hu : u < k)
    (hreach : ∀ p, stop p = false → a.code.Reaches (p + 1) (item p).next)
    (hfirst : ∀ p, (item p).value.first = a.code.tokenIndex p)
    (hbefore : ∀ p, p < u → (item p).errors = [] → (item p).next ≤ u → item' p = item p)
    (hstop : ∀ p, p ≤ u → stop' p = stop p)
    (hhere : (item u).errors = [] → Alters a b n R (item u) (item' u))
    (hafter : ∀ j, j < n → Tracks a b n Statement.move (item (a.first + j)) (item' (b.first + j)))
    (hstops : ∀ j, j < n → stop' (b.first + j) = stop (a.first + j)) (hend : stop' (b.first + n))
    {fuel fuel' p : Nat} (hp : p ≤ u) (hfuel : a.code.size < p + fuel) (hfuel' : b.code.size < p + fuel')
    (herrors : (manyUntil item stop fuel p).errors = [])
    (hmem : ∃ s ∈ (manyUntil item stop fuel p).value, s.first = a.code.tokenIndex u) :
    Alters a b n (Altered Statement.move a.token b.token R) (manyUntil item stop fuel p)
      (manyUntil item' stop' fuel' p) := by
  have hleft := h.left
  have hright := h.right
  have ho := h.back.ordered.1
  induction fuel generalizing p fuel' with
  | zero => omega
  | succ fuel ih =>
    obtain ⟨fuel', rfl⟩ : ∃ m, fuel' = m + 1 := ⟨fuel' - 1, by omega⟩
    obtain ⟨s, hs, hindex⟩ := hmem
    rw [manyUntil] at herrors hs ⊢
    rw [manyUntil, hstop p hp]
    cases hgoes : stop p with
    | true =>
      rw [hgoes, if_pos rfl] at hs
      cases hs
    | false =>
      rw [hgoes, if_neg Bool.false_ne_true] at herrors hs
      rw [if_neg Bool.false_ne_true, if_neg Bool.false_ne_true]
      obtain ⟨hhead, htail⟩ := List.append_eq_nil_iff.mp herrors
      have hforward := hreach p hgoes
      have hnext := hforward.1
      rcases Nat.lt_or_eq_of_le hp with hlt | rfl
      · -- What is changed comes later.
        have hs : s ∈ (manyUntil item stop fuel (item p).next).value := by
          refine (List.mem_cons.mp hs).resolve_left fun heq => ?_
          have hsame : a.code.tokenIndex p = a.code.tokenIndex u := by rw [← hfirst, ← heq, hindex]
          have := ho.eq_of_tokenIndex (by omega) (by omega) hsame
          omega
        obtain ⟨q, hq, hgoes', rfl⟩ := mem_manyUntil hreach hs
        obtain rfl : q = u := by
          have := hreach q hgoes'
          exact ho.eq_of_tokenIndex (Nat.lt_of_lt_of_le this.1 this.2) (by omega) ((hfirst q).symm.trans hindex)
        have hsame := hbefore p hlt hhead hq
        obtain ⟨herrors', hnexts, halt⟩ := ih (p := (item p).next) hq (by omega)
          (show b.code.size < (item p).next + fuel' by omega) htail
          ⟨_, hs, hindex⟩
        dsimp only
        rw [hsame]
        refine ⟨?_, hnexts, halt.after [(item p).value]⟩
        dsimp only
        rw [hhead, herrors']
        rfl
      · obtain ⟨herrors', ⟨q, hq, hstart, hstart'⟩, hR⟩ := hhere hhead
        dsimp only
        rw [hstart] at htail ⊢
        rw [hstart']
        have htracks : TracksAll a b n (manyUntil item stop fuel (a.first + q)) (manyUntil item' stop' fuel' (b.first + q)) :=
          manyUntil_tracks h.back.le_left hreach (fun j _ => hafter j) (fun j _ => hstops j) (.inr hend) hq
            (by omega) (by omega)
        have hbound : (manyUntil item stop fuel (a.first + q)).next ≤ a.first + n := by
          rw [← hleft.2]
          exact (manyUntil_reaches hreach fuel (by omega)).2
        obtain ⟨herrors'', hnexts, vs, hvs, hvs'⟩ := htracks htail hbound
        refine ⟨?_, hnexts, ?_⟩
        · dsimp only
          rw [herrors', herrors'']
          rfl
        · dsimp only
          rw [hvs, hvs']
          exact .here hR vs

end Loops

/-- A `use` statement with another name in it. -/
def RetargetsUse (a b : Code.Place) (token : Nat) (new : Text) (short? : Option Text) (s s' : Statement) : Prop :=
  ∃ items items', s.kind = .imports items ∧ s'.kind = .imports items' ∧
    RetargetedItems a b token new short? items items'

/-- A namespace with such a statement in it. -/
def RetargetsSpace (a b : Code.Place) (token : Nat) (new : Text) (short? : Option Text) (s s' : Statement) : Prop :=
  ∃ name? token? braced, s.kind = .space name? token? braced ∧ s'.kind = .space name? token? braced ∧
    Altered Statement.move a.token b.token (RetargetsUse a b token new short?) s.children s'.children

theorem statement_retargeted (h : Retargeted a b k n new short?) {u : Nat} {items : List ImportItem}
    {item : ImportItem} (huses : UsesName a.code u k short? items item) (depth depth' : Nat) :
    Alters a b n (RetargetsUse a b (a.code.tokenIndex k) new short?) (statement a.code (depth + 1) u)
      (statement b.code (depth' + 1) u) := by
  obtain ⟨q, hq, hnext, items', huse, halt⟩ := useStatement_retargeted h huses
  have hleft (inner : Inner) : shape a.code inner u = leaf (useStatement a.code u) := by
    rw [shape, huses.keyword]
  have hright (inner : Inner) : shape b.code inner u = leaf (useStatement b.code u) := by
    rw [shape, h.kind? huses.lt, huses.keyword]
  unfold statement
  rw [hleft, hright, huse]
  exact ⟨rfl, ⟨q, hq, hnext, rfl⟩, items, items', huses.value, rfl, halt⟩

section Namespaces

variable (h : Spliced a b k n)
include h

theorem statement_before {head : TokenKind} {u p depth depth' : Nat} (hu : u < k) (hhead : head.isHead)
    (hkind : a.code.kind? u = some head) (hp : p < u) (hdepth : u < p + depth) (hdepth' : u < p + depth')
    (herrors : (statement a.code depth p).errors = []) (hle : (statement a.code depth p).next ≤ u) :
    statement b.code depth' p = statement a.code depth p := by
  have htracks := statement_tracks (h.alongside hu hhead hkind) hp hdepth hdepth'
  simp only [Code.Place.start, Nat.zero_add] at htracks
  exact htracks.eq_of_start herrors hle

variable {inner inner' : Inner} {R : Statement → Statement → Prop} {u p : Nat} (hu : u < k)
  (hreach : ∀ p, p < a.code.size → a.code.Reaches (p + 1) (inner p).next)
  (hfirst : ∀ p, (inner p).value.first = a.code.tokenIndex p)
  (hbefore : ∀ p, p < u → (inner p).errors = [] → (inner p).next ≤ u → inner' p = inner p)
  (hhere : (inner u).errors = [] → Alters a b n R (inner u) (inner' u))
  (hafter : ∀ j, j < n → Tracks a b n Statement.move (inner (a.first + j)) (inner' (b.first + j)))
include hu hreach hfirst hbefore hhere hafter

/-- The statements of a namespace are the same but for the one with the change. -/
theorem spaceBody_altered (huse : a.code.kind? u = some .kwUse) (hp : p + 1 ≤ u)
    (herrors : (spaceBody a.code inner p).errors = [])
    (hmem : ∃ s ∈ (spaceBody a.code inner p).value, s.first = a.code.tokenIndex u) :
    Alters a b n (Altered Statement.move a.token b.token R) (spaceBody a.code inner p)
      (spaceBody b.code inner' p) := by
  have hend : b.code.atEnd (b.first + n) := decide_eq_true (Nat.le_of_eq h.right.2)
  have hleft (j : Nat) (hj : j < n) : a.code.atEnd (a.first + j) = false := by
    rw [Code.atEnd, decide_eq_false_iff_not, Nat.not_le]
    exact h.back.lt_size hj
  unfold spaceBody at herrors hmem ⊢
  rw [h.isAt (show p < k by omega)]
  split
  · rename_i hbrace
    rw [if_pos hbrace] at herrors hmem
    have hinside : Alters a b n (Altered Statement.move a.token b.token R)
        (statementsUntil a.code inner [.rightBrace] (p + 1)) (statementsUntil b.code inner' [.rightBrace] (p + 1)) := by
      refine manyUntil_altered h hu (fun p hp => hreach p (lt_size_of_atEnd (Bool.or_eq_false_iff.mp hp).1)) hfirst
        hbefore (fun p hp => ?_) hhere hafter (fun j hj => ?_) (by rw [hend, Bool.true_or]) hp
        (Nat.lt_add_left _ (Nat.lt_succ_self _)) (Nat.lt_add_left _ (Nat.lt_succ_self _)) herrors hmem
      · have hpk : p < k := Nat.lt_of_le_of_lt hp hu
        rw [(h.atEnd hpk).1, (h.atEnd hpk).2, h.isAtAny hpk]
      · rw [h.back.atEnd_lt hj, hleft j hj, h.back.isAtAny_lt hj]
    obtain ⟨herrors', ⟨q, hq, hnext, hnext'⟩, halt⟩ := hinside
    obtain ⟨r, -, hr, hskip, hskip', -⟩ := h.back.skip_eq .rightBrace (i := q) (.inr (.inl h.right.2)) hq
      fun hat => by
        have hsize := lt_size_of_isAt hat
        have := h.left.2
        omega
    refine ⟨herrors', ⟨r, hr, ?_, ?_⟩, halt⟩
    · exact (congrArg (a.code.skip .rightBrace) hnext).trans hskip
    · exact (congrArg (b.code.skip .rightBrace) hnext').trans hskip'
  · rename_i hbrace
    rw [if_neg hbrace] at herrors hmem
    refine manyUntil_altered h hu (fun p hp => hreach p (lt_size_of_atEnd (Bool.or_eq_false_iff.mp hp).1)) hfirst
      hbefore (fun p hp => ?_) hhere hafter (fun j hj => ?_) (by rw [hend, Bool.true_or]) hp
      (Nat.lt_add_left _ (Nat.lt_succ_self _)) (Nat.lt_add_left _ (Nat.lt_succ_self _)) herrors hmem
    · have hpk : p < k := Nat.lt_of_le_of_lt hp hu
      rw [(h.atEnd hpk).1, (h.atEnd hpk).2]
      rcases Nat.lt_or_eq_of_le hp with hlt | rfl
      · rw [h.isNamespaceHeader_eq (.inl (by omega))]
      · rw [h.isNamespaceHeader_eq (.inr ⟨hu, huse⟩)]
    · rw [h.back.atEnd_lt hj, hleft j hj, isNamespaceHeader_eq h.back h.left.2 h.right.2]

end Namespaces

/-- A namespace is the same but for a `use` statement in it. -/
theorem namespaceStatement_retargeted (h : Retargeted a b k n new short?) {u e : Nat} {items : List ImportItem}
    {item : ImportItem} (huses : UsesName a.code u k short? items item) (hlater : headerName a.code e + 1 < u)
    (herrors : (namespaceStatement a.code (statement a.code (a.code.size + 1)) e).errors = [])
    (hmem : ∃ s ∈ (namespaceStatement a.code (statement a.code (a.code.size + 1)) e).value.2,
      s.first = a.code.tokenIndex u) :
    Alters a b n
      (fun x y => (∃ name? token? braced, x.1 = .space name? token? braced) ∧ y.1 = x.1 ∧
        Altered Statement.move a.token b.token (RetargetsUse a b (a.code.tokenIndex k) new short?) x.2 y.2)
      (namespaceStatement a.code (statement a.code (a.code.size + 1)) e)
      (namespaceStatement b.code (statement b.code (b.code.size + 1)) e) := by
  have hu := huses.lt
  have hleft := h.left
  have hright := h.right
  have hend : EndsHeader a.code (headerName a.code e + 1) :=
    (namespaceStatement_faultless h.back.ordered.1 herrors).1
  have he : e ≤ headerName a.code e := by
    unfold headerName
    split <;> omega
  -- The header stands before the change.
  have hname : headerName b.code e = headerName a.code e := by
    unfold headerName
    rw [h.isAtAny (show e + 1 < k by omega)]
  have hend' : EndsHeader b.code (headerName b.code e + 1) := by
    unfold EndsHeader isTerminator
    rw [hname, h.isAt (by omega), h.isAtAny (by omega)]
    exact hend
  have hkind : spaceKind b.code e = spaceKind a.code e := by
    unfold spaceKind
    rw [hname, h.isAtAny (show e + 1 < k by omega), h.text (show e + 1 < k by omega),
      h.tokenIndex (show e + 1 < k by omega), h.isAt (show headerName a.code e + 1 < k by omega)]
  rw [namespaceStatement_eq hend] at herrors hmem ⊢
  rw [namespaceStatement_eq hend', hname, hkind]
  obtain ⟨herrors', hnext, halt⟩ := spaceBody_altered h.toSpliced hu
    (fun p hp => statement_reaches h.back.ordered.1 hp) (fun p => statement_first _ p)
    (fun p hp hnone hle => statement_before h.toSpliced hu (show TokenKind.kwUse.isHead from rfl) huses.keyword hp
      (by omega) (show u < p + (b.code.size + 1) by omega) hnone hle)
    (fun _ => statement_retargeted h huses a.code.size b.code.size)
    (fun j hj => statement_tracks h.back hj (by omega) (by omega)) huses.keyword hlater herrors hmem
  exact ⟨herrors', hnext, ⟨_, _, _, rfl⟩, rfl, halt⟩

/-- What stands outside other statements is the same but for one statement. -/
theorem topStatements_altered (h : Spliced a b k n) {u : Nat} {R : Statement → Statement → Prop}
    (hu : u + 1 < k ∨ u < k ∧ a.code.kind? u = some .kwUse) {head : TokenKind} (hhead : head.isHead)
    (hkind : a.code.kind? u = some head)
    (hhere : (topItem a.code u).errors = [] → Alters a b n R (topItem a.code u) (topItem b.code u))
    (herrors : (topStatements a.code).errors = [])
    (hmem : ∃ s ∈ (topStatements a.code).value, s.first = a.code.tokenIndex u) :
    Alters a b n (Altered Statement.move a.token b.token R) (topStatements a.code) (topStatements b.code) := by
  have hleft := h.left
  have hright := h.right
  have hlt : u < k := hu.elim Nat.lt_of_succ_lt And.left
  have hend : b.code.atEnd (b.first + n) := decide_eq_true (Nat.le_of_eq hright.2)
  have hheaders (j : Nat) (hj : j ≤ u) : isNamespaceHeader b.code j = isNamespaceHeader a.code j := by
    rcases Nat.lt_or_eq_of_le hj with hju | rfl
    · exact h.isNamespaceHeader_eq (.inl (by omega))
    · exact h.isNamespaceHeader_eq hu
  refine manyUntil_altered h hlt (fun p hp => topItem_reaches h.back.ordered.1 (lt_size_of_atEnd hp))
    (fun p => topItem_first p) (fun p hp hnone hle => ?_) (fun p hp => ?_) hhere (fun j hj => ?_) (fun j hj => ?_)
    hend (Nat.zero_le u) (by omega) (by omega) herrors hmem
  · have htracks := topItem_tracks (h.alongside hlt hhead hkind)
      (fun j hj => by simpa [Code.Place.start] using hheaders j hj) hp
    simp only [Code.Place.start, Nat.zero_add] at htracks
    exact htracks.eq_of_start hnone hle
  · have hpk : p < k := Nat.lt_of_le_of_lt hp hlt
    rw [(h.atEnd hpk).1, (h.atEnd hpk).2]
  · exact topItem_tracks h.back (fun i _ => isNamespaceHeader_eq h.back hleft.2 hright.2 i) hj
  · rw [h.back.atEnd_lt hj, Code.atEnd, eq_comm, decide_eq_false_iff_not, Nat.not_le]
    exact h.back.lt_size hj

section Top

variable (h : Retargeted a b k n new short?) {u : Nat} {items : List ImportItem} {item : ImportItem}
  (huses : UsesName a.code u k short? items item) (herrors : (topStatements a.code).errors = [])
include h huses herrors

theorem topStatements_retargeted (hmem : ∃ s ∈ (topStatements a.code).value, s.first = a.code.tokenIndex u) :
    (topStatements b.code).errors = [] ∧
      Altered Statement.move a.token b.token (RetargetsUse a b (a.code.tokenIndex k) new short?)
        (topStatements a.code).value (topStatements b.code).value := by
  have hplain (c : Code) (hkind : c.kind? u = some .kwUse) : isNamespaceHeader c u = false := by
    rw [isNamespaceHeader, Code.isAt, hkind]
    rfl
  obtain ⟨herrors', -, halt⟩ := topStatements_altered h.toSpliced (.inr ⟨huses.lt, huses.keyword⟩)
    (show TokenKind.kwUse.isHead from rfl) huses.keyword (fun _ => by
      rw [topItem_of_plain (hplain _ huses.keyword),
        topItem_of_plain (hplain _ ((h.kind? huses.lt).trans huses.keyword))]
      exact statement_retargeted h huses _ _) herrors hmem
  exact ⟨herrors', halt⟩

/-- A name is changed that is imported in a namespace. -/
theorem topStatements_retargeted_inside {e : Nat} (hheader : isNamespaceHeader a.code e)
    (hlater : headerName a.code e + 1 < u) (hspace : (topItem a.code e).value ∈ (topStatements a.code).value)
    (hmem : ∃ s ∈ (topItem a.code e).value.children, s.first = a.code.tokenIndex u) :
    (topStatements b.code).errors = [] ∧
      Altered Statement.move a.token b.token (RetargetsSpace a b (a.code.tokenIndex k) new short?)
        (topStatements a.code).value (topStatements b.code).value := by
  have hu := huses.lt
  have hkeyword : a.code.kind? e = some .kwNamespace := by
    unfold isNamespaceHeader at hheader
    exact Code.isAt_iff.mp (Bool.and_eq_true_iff.mp hheader).1
  have he : e + 1 < k := by
    unfold headerName at hlater
    split at hlater <;> omega
  obtain ⟨herrors', -, halt⟩ := topStatements_altered h.toSpliced
    (R := RetargetsSpace a b (a.code.tokenIndex k) new short?) (.inl he)
    (show TokenKind.kwNamespace.isHead from rfl) hkeyword (fun hnone => by
      have hheader' : isNamespaceHeader b.code e := (h.isNamespaceHeader_eq (.inl he)).trans hheader
      unfold topItem at hnone hmem ⊢
      rw [if_pos hheader] at hnone hmem ⊢
      rw [if_pos hheader']
      obtain ⟨herrors', hnext, ⟨name?, token?, braced, hkind⟩, hsame, halt⟩ :=
        namespaceStatement_retargeted h huses hlater hnone hmem
      exact ⟨herrors', hnext, name?, token?, braced, hkind, hsame.trans hkind, halt⟩) herrors
    ⟨_, hspace, topItem_first e⟩
  exact ⟨herrors', halt⟩

end Top

end Parser
end NamespaceMigration
