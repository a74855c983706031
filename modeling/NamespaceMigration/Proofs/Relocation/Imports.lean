import NamespaceMigration.Proofs.Relocation.Shapeless
import NamespaceMigration.Proofs.Statements.Respelling

/-! A `use` statement of a stretch of code imports the same at two places. -/
namespace NamespaceMigration
namespace Parser

open Code (lt_size_of_kind? lt_size_of_isAt lt_size_of_isAtAny)

variable {a b : Code.Place} {n i : Nat}

/-- What comes next is neither an alias nor a group. -/
def EndsName (c : Code) (p : Nat) : Prop := c.isAt .kwAs p = false ∧ c.isAt .backslash p = false

theorem endsName_of_kind? {c : Code} {p : Nat} {kind : TokenKind} (hkind : c.kind? p = some kind)
    (h : kind ∈ [.comma, .rightBrace, .semicolon, .closeTag]) : EndsName c p := by
  rw [EndsName, Code.isAt, Code.isAt, hkind]
  simp only [List.mem_cons, List.not_mem_nil, or_false] at h
  rcases h with rfl | rfl | rfl | rfl <;> decide

theorem endsName_of_isTerminator {c : Code} {p : Nat} (h : isTerminator c p) : EndsName c p := by
  obtain ⟨kind, hmem, hkind⟩ := Code.exists_kind_of_isAtAny h
  exact endsName_of_kind? hkind (List.mem_cons_of_mem _ (List.mem_cons_of_mem _ hmem))

/-- Readings of imported names that find the same up to the place, if something comes after them in
the stretch that goes on with none of them. -/
def TracksItems (a b : Code.Place) (n : Nat) (x y : Except Nat (List ImportItem × Nat)) : Prop :=
  ∀ items next, x = .ok (items, next) → next < a.first + n → EndsName a.code next →
    ∃ q, q < n ∧ next = a.first + q ∧ ∃ vs : List ImportItem,
      items = vs.map (ImportItem.move a.token) ∧
        y = .ok (vs.map (ImportItem.move b.token), b.first + q)

section Imports

variable (h : Abreast a b n)
include h

theorem importKind?_eq (hi : i < n) :
    importKind? b.code (b.first + i) = importKind? a.code (a.first + i) := by
  rw [importKind?, importKind?, h.kind i hi]

/-- An alias is read alike, after a name too. -/
theorem importAlias_tracks {alias? : Option Text} {next : Nat}
    (halias : importAlias a.code (a.first + i) = (alias?, next)) (hlt : next < a.first + n)
    (hend : EndsName a.code next) : ∃ q, i ≤ q ∧ q < n ∧ next = a.first + q ∧
      importAlias b.code (b.first + i) = (alias?, b.first + q) := by
  rw [importAlias] at halias ⊢
  by_cases has : a.code.isAt .kwAs (a.first + i) ∧ a.code.isAt .ident (a.first + i + 1)
  · rw [if_pos has] at halias
    obtain ⟨rfl, rfl⟩ := Prod.mk.inj halias
    have has' : b.code.isAt .kwAs (b.first + i) ∧ b.code.isAt .ident (b.first + i + 1) := by
      rw [h.isAt_lt (by omega), Nat.add_assoc, h.isAt_lt (by omega)]
      exact has
    rw [if_pos has', Nat.add_assoc b.first, h.text (i + 1) (by omega)]
    exact ⟨i + 2, by omega, by omega, rfl, rfl⟩
  · rw [if_neg has] at halias
    obtain ⟨rfl, rfl⟩ := Prod.mk.inj halias
    have has' : b.code.isAt .kwAs (b.first + i) = false := by
      rw [h.isAt_lt (by omega)]
      exact hend.1
    rw [has', if_neg fun hall => Bool.false_ne_true hall.1]
    exact ⟨i, Nat.le_refl i, by omega, rfl, rfl⟩

theorem groupItems_tracks (kind : SymbolKind) (lead : Text) (fuel : Nat) {fuel' : Nat} (hi : i ≤ n)
    (hfuel' : n < i + fuel') :
    TracksItems a b n (groupItems a.code kind lead fuel (a.first + i))
      (groupItems b.code kind lead fuel' (b.first + i)) := by
  induction fuel generalizing i fuel' with
  | zero =>
    intro items next hok
    cases hok
  | succ fuel ih =>
    intro items next hok hle hends
    have hfound := groupItems_found kind lead (fuel + 1)
      (show a.first + i ≤ a.code.size by have := h.le_left; omega)
    rw [hok] at hfound
    have hi : i < n := by
      have := hfound.1.1
      omega
    obtain ⟨fuel', rfl⟩ : ∃ m, fuel' = m + 1 := ⟨fuel' - 1, by omega⟩
    rw [groupItems] at hok
    rw [groupItems, h.isAt_lt hi, importKind?_eq h hi]
    by_cases hclose : a.code.isAt .rightBrace (a.first + i)
    · rw [if_pos hclose] at hok ⊢
      cases hok
      exact ⟨i + 1, by omega, rfl, [], rfl, rfl⟩
    rw [if_neg hclose] at hok ⊢
    obtain ⟨j, hij, hname, hname'⟩ : ∃ j, i ≤ j ∧
        afterImportKind a.code (a.first + i) = a.first + j ∧
        afterImportKind b.code (b.first + i) = b.first + j := by
      rw [afterImportKind, afterImportKind, importKind?_eq h hi]
      split
      · exact ⟨i + 1, Nat.le_succ i, rfl, rfl⟩
      · exact ⟨i, Nat.le_refl i, rfl, rfl⟩
    rw [hname] at hok
    rw [hname']
    dsimp only at hok ⊢
    by_cases hat : a.code.isAtAny [.ident, .nameQualified] (a.first + j)
    swap
    · rw [if_pos (by simpa using hat)] at hok
      cases hok
    rw [if_neg (by simpa using hat)] at hok
    obtain ⟨alias?, stop, halias⟩ : ∃ alias? stop,
        importAlias a.code (a.first + j + 1) = (alias?, stop) := ⟨_, _, rfl⟩
    have hstop := importAlias_reaches (lt_size_of_isAtAny hat)
    rw [halias] at hok hstop
    dsimp only at hok hstop
    -- A comma or the closing brace comes after the item, and stands in the stretch.
    obtain ⟨hlt, hend⟩ : stop < next ∧ EndsName a.code stop := by
      split_ifs at hok with hcomma hend
      · obtain ⟨⟨more, last⟩, hrest, heq⟩ := bind_eq_ok hok
        cases heq
        have hmore := groupItems_found kind lead fuel (lt_size_of_isAt hcomma)
        rw [hrest] at hmore
        have := hmore.1.1
        exact ⟨by omega, endsName_of_kind? (Code.isAt_iff.mp hcomma) (by decide)⟩
      · cases hok
        exact ⟨Nat.lt_succ_self stop, endsName_of_kind? (Code.isAt_iff.mp hend) (by decide)⟩
    have hfrom := hstop.1
    have hjn : j < n := by omega
    obtain ⟨k, hjk, hkn, rfl, halias'⟩ := importAlias_tracks h (i := j + 1) halias (by omega) hend
    obtain ⟨m, hm, hm'⟩ := h.index j hjn
    rw [h.isAtAny_lt hjn, if_neg (by simpa using hat), Nat.add_assoc b.first, halias', h.text j hjn,
      hm']
    rw [hm] at hok
    dsimp only
    rw [h.isAt_lt hkn, h.isAt_lt hkn]
    split_ifs at hok ⊢ with hcomma hend
    · obtain ⟨⟨more, last⟩, hrest, heq⟩ := bind_eq_ok hok
      cases heq
      obtain ⟨q, hq, rfl, vs, rfl, hrest'⟩ :=
        ih hkn (show n < k + 1 + fuel' by omega) more last hrest hle hends
      rw [Nat.add_assoc, hrest']
      exact ⟨q, hq, rfl, ⟨_, _, _, m, _⟩ :: vs, rfl, rfl⟩
    · cases hok
      exact ⟨k + 1, by omega, rfl, [⟨_, _, _, m, _⟩], rfl, rfl⟩

/-- What is imported by one name, alone or before braces. -/
theorem namedItems_tracks (kind : SymbolKind) (hi : i < n) :
    TracksItems a b n (namedItems a.code kind (a.first + i)) (namedItems b.code kind (b.first + i)) := by
  intro items next hok hlt hend
  have hright := h.le_right
  rw [namedItems] at hok ⊢
  dsimp only at hok ⊢
  by_cases hgroup : a.code.isAt .backslash (a.first + i + 1) ∧ a.code.isAt .leftBrace (a.first + i + 2)
  · rw [if_pos hgroup] at hok
    have hinside := groupItems_found kind (dropBackslashes (a.code.text (a.first + i)))
      (a.code.size + 1) (lt_size_of_isAt hgroup.2)
    rw [hok] at hinside
    have hafter := hinside.1.1
    have hgroup' : b.code.isAt .backslash (b.first + i + 1) ∧ b.code.isAt .leftBrace (b.first + i + 2) := by
      rw [Nat.add_assoc b.first, Nat.add_assoc b.first, h.isAt_lt (by omega), h.isAt_lt (by omega)]
      exact hgroup
    rw [if_pos hgroup', h.text i hi]
    exact groupItems_tracks h kind _ (a.code.size + 1) (i := i + 3) (by omega)
      (show n < i + 3 + (b.code.size + 1) by omega) items next hok hlt hend
  · rw [if_neg hgroup] at hok
    obtain ⟨alias?, stop, halias⟩ : ∃ alias? stop,
        importAlias a.code (a.first + i + 1) = (alias?, stop) := ⟨_, _, rfl⟩
    rw [halias] at hok
    cases hok
    obtain ⟨q, hiq, hq, rfl, halias'⟩ := importAlias_tracks h (i := i + 1) halias hlt hend
    have hslash : b.code.isAt .backslash (b.first + i + 1) = false := by
      rw [Nat.add_assoc, h.isAt_lt (by omega)]
      rcases Nat.eq_or_lt_of_le hiq with rfl | hafter
      · exact hend.2
      · -- An alias comes next.
        rw [importAlias] at halias
        split at halias
        · rename_i has
          rw [Code.isAt, ← Nat.add_assoc, Code.isAt_iff.mp has.1]
          rfl
        · have := (Prod.mk.inj halias).2
          omega
    obtain ⟨m, hm, hm'⟩ := h.index i hi
    rw [hslash, if_neg fun hall => Bool.false_ne_true hall.1, Nat.add_assoc b.first, halias', h.text i hi, hm, hm']
    exact ⟨q, hq, rfl, [⟨kind, _, alias?, m, none⟩], rfl, rfl⟩

theorem importItems_tracks (kind : SymbolKind) (fuel : Nat) {fuel' : Nat} (hi : i ≤ n)
    (hfuel' : n < i + fuel') :
    TracksItems a b n (importItems a.code kind fuel (a.first + i))
      (importItems b.code kind fuel' (b.first + i)) := by
  induction fuel generalizing i fuel' with
  | zero =>
    intro items next hok
    cases hok
  | succ fuel ih =>
    intro items next hok hlt hend
    have hfound := importItems_found kind (fuel + 1)
      (show a.first + i ≤ a.code.size by have := h.le_left; omega)
    rw [hok] at hfound
    have hin : i < n := by
      have := hfound.1.1
      omega
    obtain ⟨fuel', rfl⟩ : ∃ m, fuel' = m + 1 := ⟨fuel' - 1, by omega⟩
    rw [importItems_succ] at hok
    rw [importItems_succ, h.isAtAny_lt hin]
    by_cases hname : a.code.isAtAny [.ident, .nameQualified, .nameFullyQualified] (a.first + i)
    swap
    · rw [if_pos (by simpa using hname)] at hok
      cases hok
    rw [if_neg (by simpa using hname)] at hok ⊢
    obtain ⟨⟨first, stop⟩, hfirst, hrest⟩ := bind_eq_ok hok
    dsimp only at hrest
    by_cases hcomma : a.code.isAt .comma stop
    · rw [if_pos hcomma] at hrest
      obtain ⟨⟨more, last⟩, hmore, heq⟩ := bind_eq_ok hrest
      cases heq
      have hlater := importItems_found kind fuel (lt_size_of_isAt hcomma)
      rw [hmore] at hlater
      have hforward := hlater.1.1
      obtain ⟨q, hq, rfl, vs, rfl, hfirst'⟩ := namedItems_tracks h kind hin first stop hfirst (by omega)
        (endsName_of_kind? (Code.isAt_iff.mp hcomma) (by decide))
      have hstart := namedItems_found (c := a.code) kind (lt_size_of_isAtAny hname)
      rw [hfirst] at hstart
      have hafter := hstart.1.1
      obtain ⟨r, hr, rfl, ws, rfl, hmore'⟩ :=
        ih (i := q + 1) hq (show n < q + 1 + fuel' by omega) more last hmore hlt hend
      have hcomma' : b.code.isAt .comma (b.first + q) := by rwa [h.isAt_lt hq]
      have hmore' : importItems b.code kind fuel' (b.first + q + 1) =
          .ok (ws.map (ImportItem.move b.token), b.first + r) := hmore'
      rw [hfirst', ok_bind]
      dsimp only
      rw [if_pos hcomma', hmore', ok_bind, ← List.map_append, ← List.map_append]
      exact ⟨r, hr, rfl, vs ++ ws, rfl, rfl⟩
    · rw [if_neg hcomma] at hrest
      cases hrest
      obtain ⟨q, hq, rfl, vs, rfl, hfirst'⟩ := namedItems_tracks h kind hin items next hfirst hlt hend
      have hcomma' : ¬b.code.isAt .comma (b.first + q) := by rwa [h.isAt_lt hq]
      rw [hfirst', ok_bind]
      dsimp only
      rw [if_neg hcomma']
      exact ⟨q, hq, rfl, vs, rfl, rfl⟩

/-- A `use` statement without a problem is well-formed, and imports the same. Its keyword may stand before
the stretch. -/
theorem useStatement_tracks_after {p p' : Nat} (hp : p + 1 = a.first + i) (hp' : p' + 1 = b.first + i)
    (hi : i ≤ n) :
    Tracks a b n StatementKind.move (useStatement a.code p) (useStatement b.code p') := by
  intro herrors hle
  obtain ⟨items, next, hitems, hend, hvalue, hnext⟩ :=
    useStatement_wellFormed (c := a.code) (p := p) (by rw [herrors]; simp)
  have hsize : p + 1 ≤ a.code.size := by
    have := h.le_left
    omega
  have hstart : a.code.Reaches (p + 1) (afterImportKind a.code (p + 1)) := afterImportKind_reaches hsize
  have hfound := importItems_found ((importKind? a.code (p + 1)).getD .type) (a.code.size + 1) hstart.2
  rw [hitems] at hfound
  have hstop : (terminator a.code next).next = next + 1 := by rw [terminator, if_pos hend]
  rw [hnext, hstop] at hle ⊢
  have hlater := hfound.1.1
  have hafter := hstart.1
  have hin : i < n := by omega
  rw [hp] at hitems
  rw [hvalue, useStatement, hp', importKind?_eq h hin, afterImportKind, importKind?_eq h hin]
  rw [afterImportKind] at hitems
  obtain ⟨j, hj, hjn, hleft, hright⟩ : ∃ j, i ≤ j ∧ j ≤ n ∧
      (if (importKind? a.code (a.first + i)).isSome then a.first + i + 1 else a.first + i) = a.first + j ∧
      (if (importKind? a.code (a.first + i)).isSome then b.first + i + 1 else b.first + i) =
        b.first + j := by
    split
    · exact ⟨i + 1, by omega, hin, rfl, rfl⟩
    · exact ⟨i, by omega, by omega, rfl, rfl⟩
  rw [hleft] at hitems
  obtain ⟨q, hq, rfl, vs, rfl, hitems'⟩ := importItems_tracks h _ _ hjn
    (show n < j + (b.code.size + 1) by have := h.le_right; omega) items next hitems hle
    (endsName_of_isTerminator hend)
  have hend' : isTerminator b.code (b.first + q) := by
    rw [isTerminator, h.isAtAny_lt hq]
    exact hend
  dsimp only
  rw [hright, hitems']
  dsimp only
  rw [if_pos hend', terminator, if_pos hend']
  exact ⟨rfl, ⟨q + 1, hq, rfl, rfl⟩, .imports vs, rfl, rfl⟩

theorem useStatement_tracks (hi : i < n) :
    Tracks a b n StatementKind.move (useStatement a.code (a.first + i))
      (useStatement b.code (b.first + i)) :=
  useStatement_tracks_after h (Nat.add_assoc ..) (Nat.add_assoc ..) hi

end Imports

end Parser
end NamespaceMigration
