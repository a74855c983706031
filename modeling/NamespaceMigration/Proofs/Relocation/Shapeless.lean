import NamespaceMigration.Proofs.Relocation.Stretches

/-! A stretch of code is read in the same way at two places. Loops go to the same position of it, and a
statement without a shape ends at the same one. -/
namespace NamespaceMigration

/-- The same import with its token further back in the file. -/
def ImportItem.move (shift : Nat) (item : ImportItem) : ImportItem :=
  { item with nameToken := shift + item.nameToken }

def StatementKind.move (shift : Nat) : StatementKind → StatementKind
  | .space name? token? braced => .space name? (token?.map (shift + ·)) braced
  | .imports items => .imports (items.map (ImportItem.move shift))
  | .classLike kind name token => .classLike kind name (shift + token)
  | .function name token => .function name (shift + token)
  | .constants names => .constants (names.map fun entry => (entry.1, shift + entry.2))
  | kind => kind

/-- The same statement further back in the file. -/
def Statement.move (shift : Nat) : Statement → Statement
  | ⟨kind, first, stop, doc?, children⟩ =>
    ⟨kind.move shift, shift + first, shift + stop, doc?.map (shift + ·), children.map (move shift)⟩

namespace Parser

open Code (lt_size_of_kind? lt_size_of_isAt lt_size_of_isAtAny)

/-- Two readings of one stretch. If the first one has no problem and ends in the stretch, so does the
second one, and what they find is the same up to the place. -/
def Tracks {α : Type} (a b : Code.Place) (n : Nat) (move : Nat → α → α) (x y : Parsed α) : Prop :=
  x.errors = [] → x.next ≤ a.first + n →
    y.errors = [] ∧ (∃ q, q ≤ n ∧ x.next = a.first + q ∧ y.next = b.first + q) ∧
      ∃ v, x.value = move a.token v ∧ y.value = move b.token v

variable {a b : Code.Place} {n i : Nat}

theorem le_follow {step : Nat → Option Nat} (hstep : ∀ p next, step p = some next → p < next)
    (fuel p : Nat) : p ≤ follow step fuel p := by
  induction fuel generalizing p with
  | zero => exact Nat.le_refl p
  | succ fuel ih =>
    rw [follow]
    split
    · rename_i next hnext
      exact Nat.le_trans (Nat.le_of_lt (hstep p next hnext)) (ih next)
    · exact Nat.le_refl p

/-- Steps that agree in the stretch lead to the same position of it. `Q` holds of the positions on the
way. -/
theorem follow_tracks {step step' : Nat → Option Nat} {Q : Nat → Prop}
    (hlt : ∀ p next, step p = some next → p < next)
    (hsome : ∀ j next, j ≤ n → Q j → step (a.first + j) = some next → next ≤ a.first + n →
      ∃ q, q ≤ n ∧ next = a.first + q ∧ step' (b.first + j) = some (b.first + q) ∧ Q q)
    (hnone : ∀ j, j ≤ n → Q j → step (a.first + j) = none → step' (b.first + j) = none)
    {fuel fuel' : Nat} (hi : i ≤ n) (hQ : Q i) (hfuel : n < i + fuel) (hfuel' : n < i + fuel')
    (hle : follow step fuel (a.first + i) ≤ a.first + n) :
    ∃ q, i ≤ q ∧ q ≤ n ∧ Q q ∧ follow step fuel (a.first + i) = a.first + q ∧
      follow step' fuel' (b.first + i) = b.first + q := by
  induction fuel generalizing i fuel' with
  | zero => omega
  | succ fuel ih =>
    obtain ⟨fuel', rfl⟩ : ∃ m, fuel' = m + 1 := ⟨fuel' - 1, by omega⟩
    rw [follow] at hle ⊢
    rw [follow]
    cases hnext : step (a.first + i) with
    | none =>
      rw [hnone i hi hQ hnext]
      exact ⟨i, Nat.le_refl i, hi, hQ, rfl, rfl⟩
    | some next =>
      rw [hnext] at hle
      dsimp only at hle ⊢
      obtain ⟨q, hq, rfl, hnext', hQq⟩ :=
        hsome i next hi hQ hnext (Nat.le_trans (le_follow hlt fuel next) hle)
      have hiq := hlt _ _ hnext
      obtain ⟨r, hqr, hr⟩ := ih hq hQq (by omega) (by omega : n < q + fuel') hle
      rw [hnext']
      exact ⟨r, by omega, hr⟩

/-- Loops over readings that agree in the stretch agree. At the end of the stretch the first loop does
not stop, or the second one does. -/
theorem manyUntil_tracks {α : Type} {move : Nat → α → α} {item item' : Nat → Parsed α}
    {stop stop' : Nat → Bool} {c : Code} (hleft : a.first + n ≤ c.size)
    (hreach : ∀ p, stop p = false → c.Reaches (p + 1) (item p).next)
    (hitem : ∀ j, i ≤ j → j < n → Tracks a b n move (item (a.first + j)) (item' (b.first + j)))
    (hstop : ∀ j, i ≤ j → j < n → stop' (b.first + j) = stop (a.first + j))
    (hend : stop (a.first + n) = false ∨ stop' (b.first + n) = true)
    {fuel fuel' : Nat} (hi : i ≤ n) (hfuel : n < i + fuel) (hfuel' : n < i + fuel') :
    Tracks a b n (fun shift => List.map (move shift)) (manyUntil item stop fuel (a.first + i))
      (manyUntil item' stop' fuel' (b.first + i)) := by
  induction fuel generalizing i fuel' with
  | zero => omega
  | succ fuel ih =>
    obtain ⟨fuel', rfl⟩ : ∃ m, fuel' = m + 1 := ⟨fuel' - 1, by omega⟩
    intro herrors hle
    rw [manyUntil] at herrors hle ⊢
    rw [manyUntil]
    cases hs : stop (a.first + i) with
    | true =>
      have hs' : stop' (b.first + i) = true := by
        rcases Nat.lt_or_ge i n with hlt | hge
        · rw [hstop i (Nat.le_refl i) hlt, hs]
        · obtain rfl : i = n := Nat.le_antisymm hi hge
          exact hend.resolve_left (by simp [hs])
      rw [if_pos rfl, if_pos hs']
      exact ⟨rfl, ⟨i, hi, rfl, rfl⟩, [], rfl, rfl⟩
    | false =>
      rw [hs, if_neg Bool.false_ne_true] at herrors hle
      dsimp only at herrors hle
      have hreached := hreach _ hs
      have hrest := manyUntil_reaches hreach fuel hreached.2
      have hlt : i < n := by
        have := hreached.1
        have := hrest.1
        omega
      rw [if_neg Bool.false_ne_true, hstop i (Nat.le_refl i) hlt, hs, if_neg Bool.false_ne_true]
      dsimp only
      obtain ⟨hhead, htail⟩ := List.append_eq_nil_iff.mp herrors
      obtain ⟨herr, ⟨q, hq, hnext, hnext'⟩, v, hv, hv'⟩ :=
        hitem i (Nat.le_refl i) hlt hhead (Nat.le_trans hrest.1 hle)
      rw [hnext] at htail hle
      have hiq : i < q := by
        have := hreached.1
        omega
      obtain ⟨herr', hnexts, vs, hvs, hvs'⟩ := ih (fun j hj => hitem j (by omega))
        (fun j hj => hstop j (by omega)) hq (by omega) (by omega : n < q + fuel') htail hle
      rw [hnext, hnext', herr, herr', hv, hv', hvs, hvs']
      exact ⟨rfl, hnexts, v :: vs, rfl, rfl⟩

/-- Readings without a value. -/
abbrev stays (_ : Nat) (u : Unit) : Unit := u

section Shapeless

variable (h : Alongside a b n)
include h

theorem fuel_left (i : Nat) : n < i + (a.code.size + 1) := by
  have := h.le_left
  omega

theorem fuel_right (i : Nat) : n < i + (b.code.size + 1) := by
  have := h.le_right
  omega

theorem terminator_tracks (hi : i ≤ n) :
    Tracks a b n stays (terminator a.code (a.first + i)) (terminator b.code (b.first + i)) := by
  intro herrors hle
  rw [terminator] at herrors hle ⊢
  rw [terminator]
  cases hterm : isTerminator a.code (a.first + i) with
  | true =>
    rw [hterm, if_pos rfl] at hle
    dsimp only at hle
    have hterm' : isTerminator b.code (b.first + i) = true := by
      rw [isTerminator, h.isAtAny_lt (by omega)]
      exact hterm
    rw [if_pos rfl, hterm']
    exact ⟨rfl, ⟨i + 1, by omega, rfl, rfl⟩, (), rfl, rfl⟩
  | false =>
    rw [hterm, if_neg Bool.false_ne_true] at herrors
    have hend : a.code.atEnd (a.first + i) = true := by
      by_contra hend
      dsimp only at herrors
      rw [if_neg hend] at herrors
      cases herrors
    obtain ⟨rfl, hsize⟩ := h.size_of_atEnd hi hend
    have hterm' : isTerminator b.code (b.first + i) = false :=
      h.isAtAny_end (.inr (.inl hsize)) (Nat.le_refl i) (by decide)
    have hend' : b.code.atEnd (b.first + i) = true := by
      rw [Code.atEnd, hsize, decide_eq_true_eq]
    rw [hterm', hend', hend]
    exact ⟨rfl, ⟨i, hi, rfl, rfl⟩, (), rfl, rfl⟩

theorem endsAtBrace_eq (hi : i < n) :
    endsAtBrace b.code (b.first + i) = endsAtBrace a.code (a.first + i) := by
  rw [endsAtBrace, endsAtBrace, h.isAt_lt hi, h.isAt_lt hi, h.text i hi]

/-- A statement that is read up to the end of the stretch and ends there has nothing after it. -/
theorem statementEnd_at_end {start fuel : Nat} (hfuel : 0 < fuel)
    (hle : statementEnd a.code start fuel (a.first + n) ≤ a.first + n) :
    statementEnd a.code start fuel (a.first + n) = a.first + n ∧ b.code.size = b.first + n ∧
      a.code.isAtAny [.kwCatch, .kwFinally] (a.first + n) = false := by
  have hleft := h.le_left
  refine ⟨Nat.le_antisymm hle (statementEnd_reaches h.ordered.1 hleft).1, ?_⟩
  obtain ⟨fuel, rfl⟩ : ∃ m, fuel = m + 1 := ⟨fuel - 1, by omega⟩
  rw [statementEnd, statementStep] at hle
  cases hkind : a.code.kind? (a.first + n) with
  | none =>
    refine ⟨h.ends.resolve_right fun hend => ?_, by rw [Code.isAtAny, hkind]; rfl⟩
    rcases hend with ⟨-, hnext, -⟩ | ⟨_, -, hnext, -⟩
    all_goals
      rw [hkind] at hnext
      cases hnext
  | some kind =>
    have hsize := lt_size_of_kind? hkind
    rw [hkind] at hle
    dsimp only at hle
    split_ifs at hle with hterm hclosing hopening hbrace
    · exact absurd hle (by dsimp only; omega)
    · refine ⟨h.ends.resolve_right fun hend => ?_, ?_⟩
      · rcases hend with ⟨-, hnext, -⟩ | ⟨head, hhead, hnext, -⟩
        · rw [hkind, Option.some.injEq] at hnext
          exact hterm (.inl hnext)
        · obtain rfl := Option.some.inj (hkind.symm.trans hnext)
          exact TokenKind.not_closing_of_isHead hhead (hclosing.imp_right And.left)
      · rw [Code.isAtAny, hkind]
        rcases hclosing with hclosing | ⟨rfl, -⟩
        · cases kind <;> first | rfl | cases hclosing
        · rfl
    all_goals dsimp only at hle
    · have := (h.ordered.1.groupEnd_reaches_succ hsize).1
      omega
    · have hgroup := h.ordered.1.groupEnd_reaches_succ hsize
      have := hgroup.1
      have hend : a.code.Reaches _ (statementEnd a.code start fuel _) :=
        statementEnd_reaches h.ordered.1 hgroup.2
      have := hend.1
      omega
    · exact absurd (Nat.le_trans (statementEnd_reaches h.ordered.1 hsize).1 hle)
        (Nat.not_succ_le_self _)

theorem statementEnd_tracks {start : Nat} (hstart : start < n) (hle_start : start ≤ i) (hi : i ≤ n)
    {fuel fuel' : Nat} (hfuel : n < i + fuel) (hfuel' : n < i + fuel')
    (hle : statementEnd a.code (a.first + start) fuel (a.first + i) ≤ a.first + n) :
    ∃ q, i ≤ q ∧ q ≤ n ∧
      statementEnd a.code (a.first + start) fuel (a.first + i) = a.first + q ∧
      statementEnd b.code (b.first + start) fuel' (b.first + i) = b.first + q := by
  induction fuel generalizing i fuel' with
  | zero => omega
  | succ fuel ih =>
    obtain ⟨fuel', rfl⟩ : ∃ m, fuel' = m + 1 := ⟨fuel' - 1, by omega⟩
    have hleft := h.le_left
    rcases Nat.lt_or_ge i n with hlt | hge
    · obtain ⟨kind, hkind⟩ := h.exists_kind hlt
      have hkind' : b.code.kind? (b.first + i) = some kind := (h.kind i hlt).trans hkind
      rw [statementEnd, statementStep, hkind] at hle ⊢
      rw [statementEnd, statementStep, hkind']
      simp only [Nat.add_lt_add_iff_left] at hle ⊢
      by_cases hterm : kind = .semicolon ∨ kind = .closeTag
      · rw [if_pos hterm, if_pos hterm]
        exact ⟨i + 1, by omega, hlt, rfl, rfl⟩
      rw [if_neg hterm] at hle ⊢
      rw [if_neg hterm]
      by_cases hclosing : kind.isClosingBracket ∨ (kind = .inlineHtml ∧ start < i)
      · rw [if_pos hclosing, if_pos hclosing]
        exact ⟨i, Nat.le_refl i, hi, rfl, rfl⟩
      rw [if_neg hclosing] at hle ⊢
      rw [if_neg hclosing]
      by_cases hopening : kind.isOpeningBracket
      · rw [if_pos hopening] at hle ⊢
        rw [if_pos hopening]
        have hgroup := (h.ordered.1.groupEnd_reaches_succ (h.lt_size hlt))
        have hnext : a.code.groupEnd (a.first + i) ≤ a.first + n := by
          split_ifs at hle
          · exact hle
          · exact Nat.le_trans (statementEnd_reaches h.ordered.1 hgroup.2).1 hle
        obtain ⟨q, hq, hiq, -, hend, hend'⟩ := h.groupEnd_eq hi hnext
        rw [hend] at hle ⊢
        rw [hend']
        -- What goes on after a brace is in the stretch, or the statement does not end in it.
        have hgoes : b.code.isAtAny [.kwCatch, .kwFinally] (b.first + q) =
            a.code.isAtAny [.kwCatch, .kwFinally] (a.first + q) := by
          rcases Nat.lt_or_ge q n with hqn | hqn
          · exact h.isAtAny_lt hqn
          obtain rfl : q = n := Nat.le_antisymm hq hqn
          have hb : b.code.isAtAny [.kwCatch, .kwFinally] (b.first + q) = false := by
            rcases h.ends with hsize | ⟨-, -, hnext⟩ | hhead
            · exact h.isAtAny_end (.inr (.inl hsize)) hqn (by decide)
            · by_contra hat
              obtain ⟨kind, hmem, hkind⟩ :=
                Code.exists_kind_of_isAtAny (by simpa using hat)
              have := hnext kind hkind
              simp only [List.mem_cons, List.not_mem_nil, or_false] at hmem
              rcases hmem with rfl | rfl <;> cases this
            · exact h.isAtAny_end (.inr (.inr ⟨Nat.le_refl _, hhead⟩)) hqn (by decide)
          rw [hb]
          cases ha : a.code.isAtAny [.kwCatch, .kwFinally] (a.first + q) with
          | false => rfl
          | true =>
            rw [ha] at hle
            simp only [Bool.not_true, Bool.false_eq_true, and_false, if_false] at hle
            rw [(statementEnd_at_end h (by omega) hle).2.2] at ha
            exact ha
        rw [hgoes, endsAtBrace_eq h hstart]
        by_cases hbrace : kind = .leftBrace ∧ endsAtBrace a.code (a.first + start) = true ∧
            (!a.code.isAtAny [.kwCatch, .kwFinally] (a.first + q)) = true
        · rw [if_pos hbrace, if_pos hbrace]
          exact ⟨q, by omega, hq, rfl, rfl⟩
        · rw [if_neg hbrace] at hle ⊢
          rw [if_neg hbrace]
          obtain ⟨r, hr⟩ := ih (by omega) hq (by omega) (by omega : n < q + fuel') hle
          exact ⟨r, by omega, hr.2⟩
      rw [if_neg hopening] at hle ⊢
      rw [if_neg hopening]
      obtain ⟨r, hr⟩ := ih (i := i + 1) (by omega) hlt (by omega) (by omega : n < i + 1 + fuel') hle
      exact ⟨r, by omega, hr.2⟩
    · obtain rfl : i = n := Nat.le_antisymm hi hge
      obtain ⟨hend, hsize, -⟩ := statementEnd_at_end h (Nat.succ_pos fuel) hle
      refine ⟨i, hi, hi, hend, ?_⟩
      have hnone : b.code.kind? (b.first + i) = none := Code.kind?_past (Nat.le_of_eq hsize)
      rw [statementEnd, statementStep, hnone]

theorem skipStatement_tracks (hi : i < n) :
    Tracks a b n stays (skipStatement a.code (a.first + i)) (skipStatement b.code (b.first + i)) := by
  intro herrors hle
  rw [skipStatement] at herrors hle ⊢
  rw [skipStatement]
  by_cases hstop : statementEnd a.code (a.first + i) (a.code.size + 1) (a.first + i) = a.first + i
  · rw [if_pos hstop] at herrors
    cases herrors
  rw [if_neg hstop] at hle ⊢
  obtain ⟨q, -, hq, hend, hend'⟩ := statementEnd_tracks h hi (Nat.le_refl i) (Nat.le_of_lt hi)
    (fuel_left h i) (fuel_right h i) hle
  rw [hend] at hstop ⊢
  rw [hend', if_neg (by omega)]
  exact ⟨rfl, ⟨q, hq, rfl, rfl⟩, (), rfl, rfl⟩

theorem shapeless_tracks {kind : StatementKind} (hkind : ∀ shift, kind.move shift = kind) (hi : i < n) :
    Tracks a b n StatementKind.move (shapeless a.code kind (a.first + i))
      (shapeless b.code kind (b.first + i)) := by
  intro herrors hle
  obtain ⟨herrors', hnext, -⟩ := skipStatement_tracks h hi herrors hle
  exact ⟨herrors', hnext, kind, (hkind _).symm, (hkind _).symm⟩

end Shapeless

end Parser
end NamespaceMigration
