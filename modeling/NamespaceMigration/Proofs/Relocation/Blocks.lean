import NamespaceMigration.Proofs.Relocation.Declarations
import NamespaceMigration.Proofs.Relocation.Imports
import NamespaceMigration.Proofs.Statements.Preservation

/-! Statements with statements inside, and so all statements of a stretch of code, are read in the same
way at two places. -/
namespace NamespaceMigration
namespace Parser

open Code (lt_size_of_kind? lt_size_of_isAt lt_size_of_isAtAny)

variable {a b : Code.Place} {n i : Nat}

/-- Lists of statements that are the same up to the place. -/
abbrev TracksAll (a b : Code.Place) (n : Nat) (x y : Parsed (List Statement)) : Prop :=
  Tracks a b n (fun shift => List.map (Statement.move shift)) x y

theorem andThen_tracks {x y : Parsed (List Statement)} {more more' : Nat → Parsed (List Statement)}
    (hx : TracksAll a b n x y) (hle : x.next ≤ (more x.next).next)
    (hmore : ∀ q, q ≤ n → x.next = a.first + q →
      TracksAll a b n (more (a.first + q)) (more' (b.first + q))) :
    TracksAll a b n (x.andThen more) (y.andThen more') := by
  intro herrors hnext
  obtain ⟨hfirst, hlast⟩ := List.append_eq_nil_iff.mp herrors
  obtain ⟨herr, ⟨q, hq, hx, hy⟩, vs, hvs, hvs'⟩ := hx hfirst (Nat.le_trans hle hnext)
  have hnext : (more x.next).next ≤ a.first + n := hnext
  rw [hx] at hlast hnext
  obtain ⟨herr', hnexts, ws, hws, hws'⟩ := hmore q hq hx hlast hnext
  rw [Parsed.andThen, Parsed.andThen, hx, hy, herr, herr', hvs, hvs', hws, hws', ← List.map_append,
    ← List.map_append]
  exact ⟨rfl, hnexts, vs ++ ws, rfl, rfl⟩

theorem follow_le {step : Nat → Option Nat} {stop : Nat}
    (hstep : ∀ p next, step p = some next → next ≤ stop) {fuel p : Nat} (hp : p ≤ stop) :
    follow step fuel p ≤ stop := by
  induction fuel generalizing p with
  | zero => exact hp
  | succ fuel ih =>
    rw [follow]
    split
    · rename_i next hnext
      exact ih (hstep p next hnext)
    · exact hp

/-- One step through the value of a directive. -/
def valueStep (c : Code) (close q : Nat) : Option Nat :=
  if q < close ∧ !c.isAt .comma q then some (q + 1) else none

theorem valueStep_eq_some {c : Code} {close q next : Nat} (h : valueStep c close q = some next) :
    q < close ∧ c.isAt .comma q = false ∧ next = q + 1 := by
  rw [valueStep] at h
  split at h
  · rename_i hgoes
    cases h
    exact ⟨hgoes.1, by simpa using hgoes.2, rfl⟩
  · cases h

section Directives

variable (h : Alongside a b n)
include h

/-- Directives are the same at both places. -/
theorem directives_tracks {k j fuel fuel' : Nat} (hk : k < n) (hj : j ≤ k + 2)
    (hfuel : n + 1 < j + fuel) (hfuel' : n + 1 < j + fuel')
    (herrors : (directives a.code (a.first + k) fuel (a.first + j)).2 = []) :
    directives b.code (b.first + k) fuel' (b.first + j) =
      directives a.code (a.first + k) fuel (a.first + j) := by
  induction fuel generalizing j fuel' with
  | zero => omega
  | succ fuel ih =>
    obtain ⟨fuel', rfl⟩ : ∃ m, fuel' = m + 1 := ⟨fuel' - 1, by omega⟩
    rw [directives] at herrors
    rw [directives, directives]
    simp only [Nat.add_le_add_iff_left] at herrors ⊢
    by_cases hend : k ≤ j
    · rw [if_pos hend, if_pos hend]
    rw [if_neg hend] at herrors
    rw [if_neg hend, if_neg hend]
    have hj' : j + 1 < n := by omega
    by_cases hkey : a.code.isAt .ident (a.first + j) ∧ a.code.isAt .equals (a.first + j + 1)
    swap
    · rw [if_neg hkey] at herrors
      cases herrors
    have hkey' : b.code.isAt .ident (b.first + j) ∧ b.code.isAt .equals (b.first + j + 1) := by
      rw [Nat.add_assoc b.first, h.isAt_lt (by omega), h.isAt_lt hj']
      exact hkey
    rw [if_pos hkey] at herrors
    rw [if_pos hkey, if_pos hkey', h.text j (by omega)]
    -- The value goes on to a comma or to the closing bracket.
    have hforward : ∀ p next, valueStep a.code (a.first + k) p = some next → p < next :=
      fun p next hstep => by rw [(valueStep_eq_some hstep).2.2]; exact Nat.lt_succ_self p
    have hclose : ∀ p next, valueStep a.code (a.first + k) p = some next → next ≤ a.first + k + 1 :=
      fun p next hstep => by
        obtain ⟨hlt, -, rfl⟩ := valueStep_eq_some hstep
        omega
    have hgoes : ∀ l next, l ≤ n → l ≤ k + 1 → valueStep a.code (a.first + k) (a.first + l) = some next →
        next ≤ a.first + n → ∃ q, q ≤ n ∧ next = a.first + q ∧
          valueStep b.code (b.first + k) (b.first + l) = some (b.first + q) ∧ q ≤ k + 1 := by
      intro l next hl _ hstep _
      obtain ⟨hlt, hcomma, rfl⟩ := valueStep_eq_some hstep
      have hlk : l < k := by omega
      refine ⟨l + 1, by omega, rfl, ?_, by omega⟩
      rw [valueStep, h.isAt_lt (by omega), hcomma, if_pos ⟨by omega, rfl⟩]
      rfl
    have hends : ∀ l, l ≤ n → l ≤ k + 1 → valueStep a.code (a.first + k) (a.first + l) = none →
        valueStep b.code (b.first + k) (b.first + l) = none := by
      intro l hl _ hstep
      rw [valueStep] at hstep ⊢
      split at hstep
      · cases hstep
      · rename_i hgoes
        rw [if_neg]
        rintro ⟨hlk, hcomma⟩
        rw [h.isAt_lt (by omega)] at hcomma
        exact hgoes ⟨by omega, hcomma⟩
    obtain ⟨q, hjq, hq, hqk, hstop, hstop'⟩ := follow_tracks hforward hgoes hends
      (show j + 2 ≤ n by omega) (by omega) (fuel_left h (j + 2)) (fuel_right h (j + 2))
      (Nat.le_trans (follow_le hclose (by omega)) (by omega))
    have hstop : follow (fun q => if q < a.first + k ∧ !a.code.isAt .comma q then some (q + 1) else none)
      (a.code.size + 1) (a.first + j + 2) = a.first + q := hstop
    have hstop' : follow
      (fun q => if q < b.first + k ∧ !b.code.isAt .comma q then some (q + 1) else none)
      (b.code.size + 1) (b.first + j + 2) = b.first + q := hstop'
    have hvalue : (List.range' (b.first + j + 2) (b.first + q - (b.first + j + 2))).flatMap b.code.text =
        (List.range' (a.first + j + 2) (a.first + q - (a.first + j + 2))).flatMap a.code.text := by
      rw [Nat.add_assoc, Nat.add_assoc, Nat.add_sub_add_left, Nat.add_sub_add_left,
        ← List.map_add_range' (j + 2), ← List.map_add_range' (j + 2), List.flatMap_map,
        List.flatMap_map]
      refine List.flatMap_congr fun l hl => h.text l ?_
      have := (List.mem_range'_1.mp hl).2
      omega
    dsimp only at herrors ⊢
    rw [hstop] at herrors
    have hmore : directives b.code (b.first + k) fuel' (b.first + q + 1) =
        directives a.code (a.first + k) fuel (a.first + q + 1) :=
      ih (j := q + 1) (by omega) (by omega) (by omega) herrors
    rw [hstop, hstop', hvalue, hmore]

end Directives

section Arms

variable {c : Code} {inner : Inner} {fuel p : Nat}

theorem colonArms_elseif (hkind : c.kind? p = some .kwElseif) : colonArms c inner (fuel + 1) p =
    (statementsUntil c inner armWords (c.skip .colon (c.groupEnd (p + 1)))).andThen
      (colonArms c inner fuel) := by
  rw [colonArms, hkind]
  dsimp only
  rw [if_pos (Code.isAt_iff.mpr hkind)]
  rfl

theorem colonArms_else (hkind : c.kind? p = some .kwElse) : colonArms c inner (fuel + 1) p =
    (statementsUntil c inner armWords (c.skip .colon (p + 1))).andThen (colonArms c inner fuel) := by
  rw [colonArms, hkind]
  dsimp only
  rw [if_neg (by rw [Code.isAt, hkind]; decide)]
  rfl

theorem colonArms_endif (hkind : c.kind? p = some .kwEndif) : colonArms c inner (fuel + 1) p =
    ⟨[], (terminator c (p + 1)).next, (terminator c (p + 1)).errors⟩ := by
  rw [colonArms, hkind]

/-- What comes after the head of a `declare`: whether it is a block, and its statements. -/
def declareRest (c : Code) (inner : Inner) (p : Nat) : Bool × Parsed (List Statement) :=
  if c.isAt .leftBrace p then (true, block c inner (p + 1))
  else if c.isAt .colon p then
    (true, (statementsUntil c inner [.kwEnddeclare] (p + 1)).andThen fun q =>
      ⟨[], (terminator c (c.skip .kwEnddeclare q)).next,
        (terminator c (c.skip .kwEnddeclare q)).errors⟩)
  else (false, ⟨[], (terminator c p).next, (terminator c p).errors⟩)

theorem declareStatement_eq {close : Nat} (hclose : c.groupEnd (p + 1) = close + 1) :
    declareStatement c inner p =
      ⟨(.declare (directives c close (c.size + 1) (p + 2)).1 (declareRest c inner (close + 1)).1,
          (declareRest c inner (close + 1)).2.value),
        (declareRest c inner (close + 1)).2.next,
        (directives c close (c.size + 1) (p + 2)).2 ++
          (declareRest c inner (close + 1)).2.errors⟩ := by
  rw [declareStatement, hclose, Nat.add_sub_cancel, declareRest]
  dsimp only
  split
  · rfl
  · split
    · simp [Parsed.andThen]
    · rfl

theorem declareRest_reaches (hreach : ∀ p, p < c.size → c.Reaches (p + 1) (inner p).next)
    (hp : p ≤ c.size) : c.Reaches p (declareRest c inner p).2.next := by
  rw [declareRest]
  split
  · rename_i hbrace
    exact (block_reaches hreach (lt_size_of_isAt hbrace)).weaken
  · split
    · rename_i hcolon
      have hinside := statementsUntil_reaches hreach [.kwEnddeclare] (lt_size_of_isAt hcolon)
      have hskip := Code.skip_reaches .kwEnddeclare hinside.2
      exact (hinside.trans (hskip.trans (terminator_reaches hskip.2))).weaken
    · exact terminator_reaches hp

theorem groupEnd_le_declareStatement (ho : c.Ordered)
    (hreach : ∀ p, p < c.size → c.Reaches (p + 1) (inner p).next)
    (hparen : c.isAt .leftParen (p + 1)) :
    c.groupEnd (p + 1) ≤ (declareStatement c inner p).next := by
  have hgroup := ho.groupEnd_reaches_succ (lt_size_of_isAt hparen)
  have hforward := hgroup.1
  obtain ⟨close, hclose⟩ : ∃ close, c.groupEnd (p + 1) = close + 1 :=
    ⟨c.groupEnd (p + 1) - 1, by omega⟩
  rw [declareStatement_eq hclose, hclose]
  exact (declareRest_reaches hreach (hclose ▸ hgroup.2)).1

theorem ifStatement_inside : (ifStatement c inner p).inside =
    if c.isAt .colon (c.groupEnd (p + 1)) then
      (statementsUntil c inner armWords (c.groupEnd (p + 1) + 1)).andThen
        (colonArms c inner (c.size + 1))
    else (branch c inner (c.groupEnd (p + 1))).andThen (braceArms c inner (c.size + 1)) := by
  rw [ifStatement]
  cases c.isAt .colon (c.groupEnd (p + 1)) <;> rfl

theorem colonArms_cases (herrors : (colonArms c inner (fuel + 1) p).errors = []) :
    c.kind? p = some .kwElseif ∨ c.kind? p = some .kwElse ∨ c.kind? p = some .kwEndif := by
  rw [colonArms] at herrors
  split at herrors
  · rename_i hkind
    exact Or.inl hkind
  · rename_i hkind
    exact Or.inr (Or.inl hkind)
  · rename_i hkind
    exact Or.inr (Or.inr hkind)
  · cases herrors

end Arms

/-- A kind and statements inside that are the same up to the place. -/
abbrev TracksShape (a b : Code.Place) (n : Nat) (x y : Parsed (StatementKind × List Statement)) : Prop :=
  Tracks a b n (fun shift v => (v.1.move shift, v.2.map (Statement.move shift))) x y

theorem leaf_tracks {x y : Parsed StatementKind} (hx : Tracks a b n StatementKind.move x y) :
    TracksShape a b n (leaf x) (leaf y) := by
  intro herrors hle
  obtain ⟨herrors', hnext, v, hv, hv'⟩ := hx herrors hle
  exact ⟨herrors', hnext, (v, []), congrArg (·, []) hv, congrArg (·, []) hv'⟩

theorem token_tracks {kind : StatementKind} (hkind : ∀ shift, kind.move shift = kind) (hi : i < n) :
    TracksShape a b n (leaf ⟨kind, a.first + i + 1, []⟩) (leaf ⟨kind, b.first + i + 1, []⟩) :=
  leaf_tracks fun _ _ => ⟨rfl, ⟨i + 1, hi, rfl, rfl⟩, kind, (hkind _).symm, (hkind _).symm⟩

theorem shape_of_inside {x y : Parsed (StatementKind × List Statement)} {kind : StatementKind}
    (hkind : ∀ shift, kind.move shift = kind) (hx : x.value.1 = kind) (hy : y.value.1 = kind)
    (hinside : TracksAll a b n x.inside y.inside) : TracksShape a b n x y := by
  intro herrors hle
  obtain ⟨herrors', hnext, vs, hvs, hvs'⟩ := hinside herrors hle
  exact ⟨herrors', hnext, (kind, vs), Prod.ext (hx.trans (hkind _).symm) hvs,
    Prod.ext (hy.trans (hkind _).symm) hvs'⟩

section Blocks

variable (h : Alongside a b n) {inner inner' : Inner} {low : Nat}
  (hreach : ∀ p, p < a.code.size → a.code.Reaches (p + 1) (inner p).next)
  (hinner : ∀ j, low ≤ j → j < n →
    Tracks a b n Statement.move (inner (a.first + j)) (inner' (b.first + j)))

section Reach

include h hreach

/-- The statements up to a token go on to it, so they do not end with the stretch if a semicolon comes
after that. -/
theorem statementsUntil_open {kinds : List TokenKind} (hkinds : .semicolon ∉ kinds) {p : Nat}
    (hp : p ≤ a.code.size) (hle : (statementsUntil a.code inner kinds p).next ≤ a.first + n)
    (hi : a.first + i ≤ (statementsUntil a.code inner kinds p).next) : h.Open i := by
  rcases h.ends with hsize | ⟨-, hsemicolon, -⟩ | hhead
  · exact .inr (.inl hsize)
  swap
  · exact .inr (.inr ⟨by omega, hhead⟩)
  refine .inl ?_
  by_contra hge
  have hlast : (statementsUntil a.code inner kinds p).next = a.first + n := by omega
  have hitem (q : Nat) (hq : (a.code.atEnd q || a.code.isAtAny kinds q) = false) :
      a.code.Reaches (q + 1) (inner q).next := hreach q (by
    simp only [Code.atEnd, Bool.or_eq_false_iff, decide_eq_false_iff_not, Nat.not_le] at hq
    exact hq.1)
  have hstop := manyUntil_stop hitem (show a.code.size < p + (a.code.size + 1) by omega) hp
  have hsize := lt_size_of_kind? hsemicolon
  change (a.code.atEnd (statementsUntil a.code inner kinds p).next ||
    a.code.isAtAny kinds (statementsUntil a.code inner kinds p).next) = true at hstop
  rw [hlast, Code.atEnd, Code.isAtAny, hsemicolon, decide_eq_false (by omega)] at hstop
  exact hkinds (by simpa using hstop)

/-- A branch of a condition goes on after its head. -/
theorem branch_open (hi : i ≤ n) (hle : (branch a.code inner (a.first + i)).next ≤ a.first + n) : h.Open i := by
  rcases h.ends with hsize | ⟨-, hsemicolon, -⟩ | hhead
  · exact .inr (.inl hsize)
  swap
  · exact .inr (.inr ⟨hi, hhead⟩)
  refine .inl (Nat.lt_of_le_of_ne hi ?_)
  rintro rfl
  have hsize := lt_size_of_kind? hsemicolon
  have hforward : a.first + i + 1 ≤ (inner (a.first + i)).next := (hreach (a.first + i) hsize).1
  have hbrace : a.code.isAt .leftBrace (a.first + i) = false := by
    rw [Code.isAt, hsemicolon]
    rfl
  have hend : a.code.atEnd (a.first + i) = false := by
    rw [Code.atEnd, decide_eq_false_iff_not, Nat.not_le]
    exact hsize
  rw [branch, hbrace, if_neg Bool.false_ne_true, hend, if_neg Bool.false_ne_true] at hle
  have hle : (inner (a.first + i)).next ≤ a.first + i := hle
  omega

end Reach

include h hreach hinner

theorem statementsUntil_tracks {kinds : List TokenKind}
    (hkinds : ∀ kind ∈ kinds, kind ≠ .semicolon ∧ kind.isHead = false) (hlow : low ≤ i) (hi : i ≤ n) :
    TracksAll a b n
      (statementsUntil a.code inner kinds (a.first + i))
      (statementsUntil b.code inner' kinds (b.first + i)) := by
  refine manyUntil_tracks h.le_left (fun p hp => hreach p ?_) (fun j hj => hinner j (by omega))
    (fun j _ hj => ?_) ?_ hi (fuel_left h i) (fuel_right h i)
  · simp only [Code.atEnd, Bool.or_eq_false_iff, decide_eq_false_iff_not, Nat.not_le] at hp
    exact hp.1
  · have hleft : a.code.atEnd (a.first + j) = false := by
      rw [Code.atEnd, decide_eq_false_iff_not, Nat.not_le]
      exact h.lt_size hj
    rw [h.atEnd_lt hj, hleft, h.isAtAny_lt hj]
  · have hnext {kind : TokenKind} (hkind : a.code.kind? (a.first + n) = some kind) (hnot : kind ∉ kinds) :
        (a.code.atEnd (a.first + n) || a.code.isAtAny kinds (a.first + n)) = false := by
      have hsize := lt_size_of_kind? hkind
      rw [Code.atEnd, decide_eq_false (by omega), Bool.false_or, Code.isAtAny, hkind]
      simpa using hnot
    rcases h.ends with hsize | ⟨-, hsemicolon, -⟩ | ⟨kind, hhead, hkind, -⟩
    · right
      rw [Code.atEnd, hsize, decide_eq_true (Nat.le_refl _), Bool.true_or]
    · exact .inl (hnext hsemicolon fun hmem => (hkinds _ hmem).1 rfl)
    · exact .inl (hnext hkind fun hmem => Bool.false_ne_true ((hkinds _ hmem).2.symm.trans hhead))

theorem block_tracks (hlow : low ≤ i) (hi : i ≤ n) :
    TracksAll a b n (block a.code inner (a.first + i))
      (block b.code inner' (b.first + i)) := by
  intro herrors hle
  have hleft := h.le_left
  have hstart : a.first + i ≤ a.code.size := by omega
  have hrest := statementsUntil_reaches hreach [.rightBrace] hstart
  have hskip := (Code.skip_reaches .rightBrace hrest.2).1
  rw [block] at herrors hle ⊢
  rw [block]
  dsimp only at herrors hle ⊢
  have hinside := Nat.le_trans hskip hle
  obtain ⟨herrors', ⟨q, hq, hnext, hnext'⟩, hvalue⟩ :=
    statementsUntil_tracks h hreach hinner (by decide) hlow hi herrors hinside
  have hopen : h.Open q :=
    statementsUntil_open h hreach (by decide) hstart hinside (Nat.le_of_eq hnext.symm)
  rw [hnext] at hle ⊢
  rw [hnext']
  obtain ⟨r, -, hr, hend, hend', -⟩ := h.skip_eq .rightBrace hopen hq fun hat => by
    rw [Code.skip, if_pos hat] at hle
    omega
  exact ⟨herrors', ⟨r, hr, hend, hend'⟩, hvalue⟩

theorem branch_tracks (hlow : low ≤ i) (hi : i ≤ n) :
    TracksAll a b n (branch a.code inner (a.first + i))
      (branch b.code inner' (b.first + i)) := by
  intro herrors hle
  rw [branch] at herrors hle ⊢
  rw [branch]
  by_cases hbrace : a.code.isAt .leftBrace (a.first + i)
  · rw [if_pos hbrace] at herrors hle ⊢
    have hforward := (block_reaches hreach (lt_size_of_isAt hbrace)).1
    have hin : i < n := by
      have : a.first + i + 1 ≤ a.first + n := Nat.le_trans hforward hle
      omega
    rw [if_pos (by rw [h.isAt_lt hin]; exact hbrace)]
    exact block_tracks (i := i + 1) h hreach hinner (by omega) hin herrors hle
  rw [if_neg hbrace] at herrors hle ⊢
  by_cases hend : a.code.atEnd (a.first + i)
  · obtain ⟨rfl, hsize⟩ := h.size_of_atEnd hi hend
    have hbrace' : b.code.isAt .leftBrace (b.first + i) = false :=
      h.isAt_end (.inr (.inl hsize)) (Nat.le_refl i) rfl
    have hend' : b.code.atEnd (b.first + i) := by rw [Code.atEnd, hsize, decide_eq_true_eq]
    rw [if_pos hend, hbrace', if_neg Bool.false_ne_true, if_pos hend']
    exact ⟨rfl, ⟨i, hi, rfl, rfl⟩, [], rfl, rfl⟩
  · rw [if_neg hend] at herrors hle ⊢
    have hin : i < n := by
      have hforward : a.first + i + 1 ≤ (inner (a.first + i)).next :=
        (hreach (a.first + i) (by simpa [Code.atEnd] using hend)).1
      have hle : (inner (a.first + i)).next ≤ a.first + n := hle
      omega
    obtain ⟨herrors', hnext, v, hv, hv'⟩ := hinner i hlow hin herrors hle
    rw [h.isAt_lt hin, if_neg hbrace, h.atEnd_lt hin, if_neg Bool.false_ne_true]
    exact ⟨herrors', hnext, [v], congrArg (fun s => [s]) hv, congrArg (fun s => [s]) hv'⟩

theorem braceArms_tracks {fuel fuel' : Nat} (hlow : low ≤ i) (hi : i ≤ n) (hfuel : n < i + fuel)
    (hfuel' : n < i + fuel') :
    TracksAll a b n (braceArms a.code inner fuel (a.first + i))
      (braceArms b.code inner' fuel' (b.first + i)) := by
  induction fuel generalizing i fuel' with
  | zero => omega
  | succ fuel ih =>
    obtain ⟨fuel', rfl⟩ : ∃ m, fuel' = m + 1 := ⟨fuel' - 1, by omega⟩
    have hleft := h.le_left
    have ho := h.ordered.1
    intro herrors hle
    rw [braceArms] at herrors hle ⊢
    rw [braceArms]
    by_cases helseif : a.code.isAt .kwElseif (a.first + i)
    · rw [if_pos helseif] at herrors hle ⊢
      have hgroup : a.code.Reaches (a.first + i + 1) (a.code.groupEnd (a.first + i + 1)) :=
        ho.groupEnd_reaches (lt_size_of_isAt helseif)
      have harm := branch_reaches hreach hgroup.2
      have hrest := braceArms_reaches ho hreach fuel harm.2
      have hinside : a.code.groupEnd (a.first + i + 1) ≤ a.first + n :=
        Nat.le_trans harm.1 (Nat.le_trans hrest.1 hle)
      have hin : i + 1 ≤ n := by
        have := hgroup.1
        omega
      obtain ⟨q, hq, -, hiq, hend, hend'⟩ := h.groupEnd_eq (i := i + 1) hin hinside
      have hend : a.code.groupEnd (a.first + i + 1) = a.first + q := hend
      have hend' : b.code.groupEnd (b.first + i + 1) = b.first + q := hend'
      rw [if_pos (by rw [h.isAt_lt (by omega)]; exact helseif)]
      dsimp only at herrors hle ⊢
      rw [hend] at herrors hle harm hrest ⊢
      rw [hend']
      exact andThen_tracks (branch_tracks h hreach hinner (by omega) hq) hrest.1
        (fun r hr hnext => ih (by have := harm.1; omega) hr (by have := harm.1; omega)
          (by have := harm.1; omega)) herrors hle
    rw [if_neg helseif] at herrors hle ⊢
    rw [h.isAt_continuation rfl hi fun hat => absurd hat helseif, if_neg helseif]
    by_cases helse : a.code.isAt .kwElse (a.first + i)
    · rw [if_pos helse] at herrors hle ⊢
      have hin : i + 1 ≤ n := by
        have : a.first + i + 1 ≤ (branch a.code inner (a.first + i + 1)).next :=
          (branch_reaches hreach (lt_size_of_isAt helse)).1
        omega
      rw [if_pos (by rw [h.isAt_lt hin]; exact helse)]
      exact branch_tracks (i := i + 1) h hreach hinner (by omega) hin herrors hle
    · rw [if_neg helse, h.isAt_continuation rfl hi fun hat => absurd hat helse, if_neg helse]
      exact ⟨rfl, ⟨i, hi, rfl, rfl⟩, [], rfl, rfl⟩

theorem colonArms_tracks {fuel fuel' : Nat} (hlow : low ≤ i) (hi : i ≤ n) (hfuel : n < i + fuel)
    (hfuel' : n < i + fuel') :
    TracksAll a b n (colonArms a.code inner fuel (a.first + i))
      (colonArms b.code inner' fuel' (b.first + i)) := by
  induction fuel generalizing i fuel' with
  | zero => omega
  | succ fuel ih =>
    obtain ⟨fuel', rfl⟩ : ∃ m, fuel' = m + 1 := ⟨fuel' - 1, by omega⟩
    have hleft := h.le_left
    have ho := h.ordered.1
    -- An arm goes on from the position after its head.
    have harm {head head' k : Nat} (hhead : head = a.first + k) (hhead' : head' = b.first + k)
        (hik : i < k) (hk : k ≤ n) :
        TracksAll a b n
          ((statementsUntil a.code inner armWords (a.code.skip .colon head)).andThen
            (colonArms a.code inner fuel))
          ((statementsUntil b.code inner' armWords (b.code.skip .colon head')).andThen
            (colonArms b.code inner' fuel')) := by
      intro herrors hle
      subst hhead hhead'
      have hskip := Code.skip_reaches (c := a.code) .colon
        (show a.first + k ≤ a.code.size by omega)
      have hinside := statementsUntil_reaches hreach armWords hskip.2
      have hrest := colonArms_reaches ho hreach fuel hinside.2
      have hstop : (statementsUntil a.code inner armWords
          (a.code.skip .colon (a.first + k))).next ≤ a.first + n := Nat.le_trans hrest.1 hle
      have hopen : h.Open k := statementsUntil_open h hreach (by decide) hskip.2 hstop
        (Nat.le_trans hskip.1 hinside.1)
      obtain ⟨q, hkq, hq, hend, hend', -⟩ := h.skip_eq .colon hopen hk fun hat => by
        have := hinside.1
        rw [Code.skip, if_pos hat] at this hstop
        omega
      rw [hend] at herrors hle hrest hinside ⊢
      rw [hend']
      exact andThen_tracks (statementsUntil_tracks h hreach hinner (by decide) (by omega) hq) hrest.1
        (fun r hr hnext => ih (by have := hinside.1; omega) hr (by have := hinside.1; omega)
          (by have := hinside.1; omega)) herrors hle
    intro herrors hle
    rcases colonArms_cases herrors with helseif | helse | hendif
    · rw [colonArms_elseif helseif] at herrors hle ⊢
      have hat := Code.isAt_iff.mpr helseif
      have hgroup : a.code.Reaches (a.first + i + 1) (a.code.groupEnd (a.first + i + 1)) :=
        ho.groupEnd_reaches (lt_size_of_isAt hat)
      have hskip := Code.skip_reaches .colon hgroup.2
      have hinside := statementsUntil_reaches hreach armWords hskip.2
      have hrest := colonArms_reaches ho hreach fuel hinside.2
      have hstop : a.code.groupEnd (a.first + i + 1) ≤ a.first + n :=
        Nat.le_trans hskip.1 (Nat.le_trans hinside.1 (Nat.le_trans hrest.1 hle))
      have hin : i + 1 ≤ n := by
        have := hgroup.1
        omega
      obtain ⟨q, hq, -, hiq, hend, hend'⟩ := h.groupEnd_eq (i := i + 1) hin hstop
      rw [colonArms_elseif ((h.kind i hin).trans helseif)]
      exact harm hend hend' hiq hq herrors hle
    · rw [colonArms_else helse] at herrors hle ⊢
      have hat := Code.isAt_iff.mpr helse
      have hskip : a.code.Reaches (a.first + i + 1) (a.code.skip .colon (a.first + i + 1)) :=
        Code.skip_reaches .colon (lt_size_of_isAt hat)
      have hinside := statementsUntil_reaches hreach armWords hskip.2
      have hrest := colonArms_reaches ho hreach fuel hinside.2
      have hin : i + 1 ≤ n := by
        have : a.first + i + 1 ≤ a.first + n :=
          Nat.le_trans hskip.1 (Nat.le_trans hinside.1 (Nat.le_trans hrest.1 hle))
        omega
      rw [colonArms_else ((h.kind i hin).trans helse)]
      exact harm rfl rfl (Nat.lt_succ_self i) hin herrors hle
    · rw [colonArms_endif hendif] at herrors hle ⊢
      have hforward : a.first + i + 1 ≤ (terminator a.code (a.first + i + 1)).next :=
        (terminator_reaches (lt_size_of_kind? hendif)).1
      have hle : (terminator a.code (a.first + i + 1)).next ≤ a.first + n := hle
      have hin : i + 1 ≤ n := by omega
      rw [colonArms_endif ((h.kind i hin).trans hendif)]
      obtain ⟨herrors', hnext, -⟩ := terminator_tracks (i := i + 1) h hin herrors hle
      exact ⟨herrors', hnext, [], rfl, rfl⟩

theorem ifStatement_tracks (hi : i < n) (hlow : low ≤ i + 1) :
    TracksShape a b n (ifStatement a.code inner (a.first + i))
      (ifStatement b.code inner' (b.first + i)) := by
  refine shape_of_inside (fun _ => rfl) rfl rfl ?_
  intro herrors hle
  have hleft := h.le_left
  have ho := h.ordered.1
  have hgroup : a.code.Reaches (a.first + i + 1) (a.code.groupEnd (a.first + i + 1)) :=
    ho.groupEnd_reaches (h.lt_size hi)
  rw [ifStatement_inside] at herrors hle ⊢
  rw [ifStatement_inside]
  by_cases hcolon : a.code.isAt .colon (a.code.groupEnd (a.first + i + 1))
  · rw [if_pos hcolon] at herrors hle ⊢
    have hinside : a.code.Reaches (a.code.groupEnd (a.first + i + 1) + 1) (statementsUntil a.code inner
        armWords (a.code.groupEnd (a.first + i + 1) + 1)).next :=
      statementsUntil_reaches hreach _ (lt_size_of_isAt hcolon)
    have hrest := colonArms_reaches ho hreach (a.code.size + 1) hinside.2
    have hstop : a.code.groupEnd (a.first + i + 1) + 1 ≤ a.first + n :=
      Nat.le_trans hinside.1 (Nat.le_trans hrest.1 hle)
    obtain ⟨q, hq, -, hiq, hend, hend'⟩ :=
      h.groupEnd_eq (i := i + 1) hi (Nat.le_of_succ_le hstop)
    have hend : a.code.groupEnd (a.first + i + 1) = a.first + q := hend
    have hend' : b.code.groupEnd (b.first + i + 1) = b.first + q := hend'
    rw [hend] at herrors hle hinside hrest hstop hcolon ⊢
    have hqn : q + 1 ≤ n := by omega
    rw [hend', if_pos (by rw [h.isAt_lt hqn]; exact hcolon)]
    have hforward := hinside.1
    exact andThen_tracks
      (statementsUntil_tracks (i := q + 1) h hreach hinner (by decide) (by omega) hqn) hrest.1
      (fun r hr hnext => colonArms_tracks h hreach hinner (by omega) hr (fuel_left h r)
        (fuel_right h r)) herrors hle
  · rw [if_neg hcolon] at herrors hle ⊢
    have hinside := branch_reaches hreach hgroup.2
    have hrest := braceArms_reaches ho hreach (a.code.size + 1) hinside.2
    have hbranch := Nat.le_trans hrest.1 hle
    obtain ⟨q, hq, -, hiq, hend, hend'⟩ := h.groupEnd_eq (i := i + 1) hi
      (Nat.le_trans hinside.1 hbranch)
    have hend : a.code.groupEnd (a.first + i + 1) = a.first + q := hend
    have hend' : b.code.groupEnd (b.first + i + 1) = b.first + q := hend'
    rw [hend] at herrors hle hinside hrest hbranch hcolon ⊢
    have hopen := branch_open h hreach hq hbranch
    have hcolon' : ¬b.code.isAt .colon (b.first + q) := fun hat =>
      hcolon (h.of_isAt hopen hat rfl).2
    rw [hend', if_neg hcolon']
    exact andThen_tracks (branch_tracks h hreach hinner (by omega) hq) hrest.1
      (fun r hr hnext => braceArms_tracks h hreach hinner (by have := hinside.1; omega) hr
        (fuel_left h r) (fuel_right h r)) herrors hle

theorem declareRest_tracks (hlow : low ≤ i) (hi : i ≤ n) (hopen : h.Open i)
    (hle : (declareRest a.code inner (a.first + i)).2.next ≤ a.first + n) :
    (declareRest b.code inner' (b.first + i)).1 = (declareRest a.code inner (a.first + i)).1 ∧
      TracksAll a b n (declareRest a.code inner (a.first + i)).2
        (declareRest b.code inner' (b.first + i)).2 := by
  rw [declareRest] at hle
  rw [declareRest, declareRest]
  by_cases hbrace : a.code.isAt .leftBrace (a.first + i)
  · rw [if_pos hbrace] at hle ⊢
    have hforward : a.first + i + 1 ≤ (block a.code inner (a.first + i + 1)).next :=
      (block_reaches hreach (lt_size_of_isAt hbrace)).1
    have hin : i + 1 ≤ n := by
      dsimp only at hle
      omega
    rw [if_pos (by rw [h.isAt_lt hin]; exact hbrace)]
    exact ⟨rfl, block_tracks (i := i + 1) h hreach hinner (by omega) hin⟩
  have hbrace' : ¬b.code.isAt .leftBrace (b.first + i) := fun hat => hbrace (h.of_isAt hopen hat rfl).2
  rw [if_neg hbrace] at hle ⊢
  rw [if_neg hbrace']
  by_cases hcolon : a.code.isAt .colon (a.first + i)
  · rw [if_pos hcolon] at hle ⊢
    have hinside : a.code.Reaches (a.first + i + 1)
        (statementsUntil a.code inner [.kwEnddeclare] (a.first + i + 1)).next :=
      statementsUntil_reaches hreach _ (lt_size_of_isAt hcolon)
    have hskip := Code.skip_reaches .kwEnddeclare hinside.2
    have hterminator := terminator_reaches hskip.2
    have hstop : (terminator a.code (a.code.skip .kwEnddeclare
        (statementsUntil a.code inner [.kwEnddeclare] (a.first + i + 1)).next)).next ≤
          a.first + n := hle
    have hin : i + 1 ≤ n := by
      have := hinside.1
      have := hskip.1
      have := hterminator.1
      omega
    rw [if_pos (by rw [h.isAt_lt hin]; exact hcolon)]
    refine ⟨rfl, andThen_tracks
      (statementsUntil_tracks (i := i + 1) h hreach hinner (by decide) (by omega) hin)
      (Nat.le_trans hskip.1 hterminator.1) fun q hq hnext => ?_⟩
    rw [hnext] at hskip hterminator hstop
    have hopenq : h.Open q := statementsUntil_open h hreach (by decide) (lt_size_of_isAt hcolon)
      (by rw [hnext]; omega) (Nat.le_of_eq hnext.symm)
    obtain ⟨r, -, hr, hend, hend', -⟩ := h.skip_eq .kwEnddeclare hopenq hq fun hat => by
      have := hterminator.1
      rw [Code.skip, if_pos hat] at this hstop
      omega
    rw [hend, hend']
    intro herrors hle
    obtain ⟨herrors', hnext, -⟩ := terminator_tracks h hr herrors hle
    exact ⟨herrors', hnext, [], rfl, rfl⟩
  · have hcolon' : ¬b.code.isAt .colon (b.first + i) := fun hat => hcolon (h.of_isAt hopen hat rfl).2
    rw [if_neg hcolon, if_neg hcolon']
    refine ⟨rfl, fun herrors hle => ?_⟩
    obtain ⟨herrors', hnext, -⟩ := terminator_tracks h hi herrors hle
    exact ⟨herrors', hnext, [], rfl, rfl⟩

theorem declareStatement_tracks (hi : i + 1 < n) (hlow : low ≤ i + 1)
    (hparen : a.code.isAt .leftParen (a.first + i + 1)) :
    TracksShape a b n (declareStatement a.code inner (a.first + i))
      (declareStatement b.code inner' (b.first + i)) := by
  intro herrors hle
  have hleft := h.le_left
  have hgroup := h.ordered.1.groupEnd_reaches_succ (lt_size_of_isAt hparen)
  have hforward := hgroup.1
  obtain ⟨close, hclose⟩ : ∃ close, a.code.groupEnd (a.first + i + 1) = close + 1 :=
    ⟨a.code.groupEnd (a.first + i + 1) - 1, by omega⟩
  rw [declareStatement_eq hclose] at herrors hle ⊢
  rw [hclose] at hgroup hforward
  obtain ⟨hdirectives, hrest⟩ := List.append_eq_nil_iff.mp herrors
  have hstop : close + 1 ≤ a.first + n :=
    Nat.le_trans (declareRest_reaches hreach hgroup.2).1 hle
  obtain ⟨q, hq, hiq, -, hend, hend'⟩ := h.groupEnd_eq (i := i + 1) (Nat.le_of_lt hi)
    (show a.code.groupEnd (a.first + i + 1) ≤ a.first + n by rw [hclose]; exact hstop)
  have hiq := hiq hi
  have hopen := h.open_groupEnd (i := i + 1) (Code.isAt_iff.mp hparen) (by decide) hq hend
  obtain ⟨k, rfl⟩ : ∃ k, q = k + 1 := ⟨q - 1, by omega⟩
  obtain rfl : close = a.first + k := by
    have : close + 1 = a.first + (k + 1) := hclose.symm.trans hend
    omega
  have hend' : b.code.groupEnd (b.first + i + 1) = b.first + k + 1 := hend'
  have hsame : directives b.code (b.first + k) (b.code.size + 1) (b.first + i + 2) =
      directives a.code (a.first + k) (a.code.size + 1) (a.first + i + 2) :=
    directives_tracks h (by omega) (show i + 2 ≤ k + 2 by omega)
      (show n + 1 < i + 2 + (a.code.size + 1) by omega)
      (show n + 1 < i + 2 + (b.code.size + 1) by have := h.le_right; omega) hdirectives
  obtain ⟨hblock, hinside⟩ := declareRest_tracks h hreach hinner (i := k + 1) (by omega) hq hopen
    hle
  have hblock : (declareRest b.code inner' (b.first + k + 1)).1 =
      (declareRest a.code inner (a.first + k + 1)).1 := hblock
  obtain ⟨herrors', hnext, vs, hvs, hvs'⟩ := hinside hrest hle
  have herrors' : (declareRest b.code inner' (b.first + k + 1)).2.errors = [] := herrors'
  rw [declareStatement_eq hend', hsame, hblock, herrors', hdirectives]
  exact ⟨rfl, hnext, (.declare _ _, vs), Prod.ext rfl hvs, Prod.ext rfl hvs'⟩

theorem shape_tracks (hi : i < n) (hlow : low ≤ i + 1) :
    TracksShape a b n (shape a.code inner (a.first + i)) (shape b.code inner' (b.first + i)) := by
  obtain ⟨kind, hkind⟩ := h.exists_kind hi
  have hkind' := (h.kind i hi).trans hkind
  have hdeclaration := leaf_tracks (declaration_tracks h hi)
  rw [shape.eq_def, shape.eq_def, hkind, hkind']
  cases kind <;> try exact hdeclaration
  case semicolon => exact token_tracks (fun _ => rfl) hi
  case closeTag => exact token_tracks (fun _ => rfl) hi
  case inlineHtml =>
    dsimp only
    rw [h.text i hi]
    exact token_tracks (fun _ => rfl) hi
  case kwUse => exact leaf_tracks (useStatement_tracks h.toAbreast hi)
  case kwConst => exact leaf_tracks (constStatement_tracks h hi hkind)
  case kwIf => exact ifStatement_tracks h hreach hinner hi hlow
  case kwReturn => exact leaf_tracks (shapeless_tracks h (fun _ => rfl) hi)
  case kwExit => exact leaf_tracks (shapeless_tracks h (fun _ => rfl) hi)
  case ident => exact leaf_tracks (defineOrDeclaration_tracks h hi hkind)
  case kwHaltCompiler =>
    intro _ hle
    have hend : a.code.atEnd (a.first + n) := decide_eq_true hle
    exact ⟨rfl, ⟨n, Nat.le_refl n, Nat.le_antisymm hle h.le_left, (h.size_of_atEnd (Nat.le_refl n) hend).2⟩,
      (.other, []), rfl, rfl⟩
  case kwDeclare =>
    have hopen := h.open_succ hi hkind rfl
    dsimp only
    by_cases hparen : a.code.isAt .leftParen (a.first + i + 1)
    · rw [if_pos hparen]
      intro herrors hle
      have hforward : a.first + i + 1 + 1 ≤ a.code.groupEnd (a.first + i + 1) :=
        (h.ordered.1.groupEnd_reaches_succ (lt_size_of_isAt hparen)).1
      have hgroup := Nat.le_trans (groupEnd_le_declareStatement h.ordered.1 hreach hparen) hle
      have hin : i + 1 < n := by omega
      rw [if_pos (show b.code.isAt .leftParen (b.first + i + 1) by
        rw [Nat.add_assoc, h.isAt_lt hin]
        exact hparen)]
      exact declareStatement_tracks h hreach hinner hin hlow hparen herrors hle
    · have hparen' : ¬b.code.isAt .leftParen (b.first + i + 1) := fun hat =>
        hparen (h.of_isAt (i := i + 1) hopen hat rfl).2
      rw [if_neg hparen, if_neg hparen']
      exact hdeclaration

end Blocks

section Statements

variable (h : Alongside a b n)
include h

theorem node_tracks (hi : i < n) {x y : Parsed (StatementKind × List Statement)}
    (hx : TracksShape a b n x y) (hforward : a.first + i < x.next) :
    Tracks a b n Statement.move (node a.code (a.first + i) x) (node b.code (b.first + i) y) := by
  intro herrors hle
  obtain ⟨herrors', ⟨q, hq, hnext, hnext'⟩, v, hv, hv'⟩ := hx herrors hle
  obtain ⟨k, rfl⟩ : ∃ k, q = k + 1 := ⟨q - 1, by omega⟩
  obtain ⟨m, hm, hm'⟩ := h.index i hi
  obtain ⟨l, hl, hl'⟩ := h.index k hq
  obtain ⟨m?, hdoc, hdoc'⟩ := h.doc i hi
  refine ⟨herrors', ⟨k + 1, hq, hnext, hnext'⟩, ⟨v.1, m, max m (l + 1), m?, v.2⟩, ?_, ?_⟩
  · simp only [node, hnext, Nat.add_succ_sub_one, hl, hm, hv, Statement.move]
    rw [← hm, hdoc, if_neg (by omega), hm, Nat.add_assoc, Nat.add_max_add_left]
  · simp only [node, hnext', Nat.add_succ_sub_one, hl', hm', hv', Statement.move]
    rw [← hm', hdoc', if_neg (by omega), hm', Nat.add_assoc, Nat.add_max_add_left]

theorem statement_tracks {depth depth' : Nat} (hi : i < n) (hdepth : n < i + depth)
    (hdepth' : n < i + depth') :
    Tracks a b n Statement.move (statement a.code depth (a.first + i))
      (statement b.code depth' (b.first + i)) := by
  induction depth generalizing i depth' with
  | zero => omega
  | succ depth ih =>
    obtain ⟨depth', rfl⟩ : ∃ m, depth' = m + 1 := ⟨depth' - 1, by omega⟩
    have hreach : ∀ p, p < a.code.size → a.code.Reaches (p + 1) (statement a.code depth p).next :=
      fun p hp => statement_reaches h.ordered.1 hp
    rw [statement, statement]
    refine node_tracks h hi (shape_tracks h hreach (fun j hij hj => ?_) hi
      (Nat.le_refl _)) (shape_reaches h.ordered.1 hreach (h.lt_size hi)).1
    exact ih hj (by omega) (by omega)

end Statements

end Parser
end NamespaceMigration
