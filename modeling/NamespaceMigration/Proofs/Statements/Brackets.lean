import NamespaceMigration.Proofs.Statements.Positions

/-! Bracket groups of a stretch of code. Where brackets are well nested, a group that opens and closes
in the stretch is the same group whatever code stands around it. -/
namespace NamespaceMigration
namespace BracketMatching

/-- The open brackets, innermost first, without the innermost one, if the kind closes that. -/
def close? (kind : TokenKind) : List TokenKind → Option (List TokenKind)
  | [] => none
  | opener :: outer => if closes opener kind then some outer else none

/-- The brackets that are open after some kinds, innermost first, if every closing bracket closes the
innermost one. -/
def nest : (opened kinds : List TokenKind) → Option (List TokenKind)
  | opened, [] => some opened
  | opened, kind :: kinds =>
    if kind = .error then none
    else if kind.isOpeningBracket then nest (kind :: opened) kinds
    else if kind.isClosingBracket then (close? kind opened).bind fun outer => nest outer kinds
    else nest opened kinds

theorem nest_append (opened xs ys : List TokenKind) :
    nest opened (xs ++ ys) = (nest opened xs).bind fun opened' => nest opened' ys := by
  induction xs generalizing opened with
  | nil => rfl
  | cons kind xs ih =>
    rw [List.cons_append, nest, nest]
    split_ifs
    · rfl
    · exact ih _
    · cases close? kind opened with
      | none => rfl
      | some outer => exact ih _
    · exact ih _

theorem exists_nest_of_append {opened xs ys opened' : List TokenKind}
    (h : nest opened (xs ++ ys) = some opened') : ∃ between, nest opened xs = some between := by
  rw [nest_append, Option.bind_eq_some_iff] at h
  obtain ⟨between, hbetween, -⟩ := h
  exact ⟨between, hbetween⟩

theorem nest_of_plain {kinds : List TokenKind}
    (h : ∀ kind ∈ kinds, kind ≠ .error ∧ kind.isOpeningBracket = false ∧ kind.isClosingBracket = false)
    (opened : List TokenKind) : nest opened kinds = some opened := by
  induction kinds with
  | nil => rfl
  | cons kind kinds ih =>
    rw [List.forall_mem_cons] at h
    obtain ⟨⟨herror, hopen, hclose⟩, hrest⟩ := h
    rw [nest, if_neg herror, hopen, hclose]
    exact ih hrest

theorem takeWhile_not_closes {opened : Nat × TokenKind} {kind : TokenKind} (h : closes opened.2 kind)
    (outer : Stack) : ((opened :: outer).takeWhile fun o => !closes o.2 kind) = [] := by
  rw [List.takeWhile_cons, h]
  rfl

/-- Well nested kinds touch only the brackets that are open since `bound`, and match the same
whatever is open around them. -/
theorem ofKindsFrom_nest {kinds opened : List TokenKind} {bound : Nat} (position : Nat) (inner : Stack)
    (hbound : bound ≤ position) (hinner : ∀ o ∈ inner, bound ≤ o.1)
    (h : nest (inner.map (·.2)) kinds = some opened) :
    ∃ pairs, ∃ inner' : Stack, (∀ pair ∈ pairs, bound ≤ pair.1) ∧ inner'.map (·.2) = opened ∧
      ∀ outer rest, (ofKindsFrom position (inner ++ outer) (kinds ++ rest)).pairs =
        pairs ++ (ofKindsFrom (position + kinds.length) (inner' ++ outer) rest).pairs := by
  induction kinds generalizing position inner with
  | nil => exact ⟨[], inner, List.forall_mem_nil _, Option.some.inj h, fun _ _ => rfl⟩
  | cons kind kinds ih =>
    have hlen : position + (kind :: kinds).length = position + 1 + kinds.length := by
      rw [List.length_cons]
      omega
    rw [nest] at h
    split_ifs at h with herror hopening hclosing
    · obtain ⟨pairs, inner', hpairs, hmap, hrun⟩ := ih (position + 1)
        ((position, kind) :: inner) (by omega) (List.forall_mem_cons.mpr ⟨hbound, hinner⟩) h
      refine ⟨pairs, inner', hpairs, hmap, fun outer rest => ?_⟩
      rw [List.cons_append, ofKindsFrom, if_neg herror, if_pos hopening, hlen, ← List.cons_append,
        hrun]
    · cases inner with
      | nil => cases h
      | cons o inner =>
        rw [List.map_cons, close?] at h
        by_cases hcloses : closes o.2 kind
        swap
        · rw [if_neg hcloses] at h
          cases h
        rw [if_pos hcloses] at h
        rw [List.forall_mem_cons] at hinner
        obtain ⟨pairs, inner', hpairs, hmap, hrun⟩ :=
          ih (position + 1) inner (by omega) hinner.2 h
        refine ⟨(o.1, position) :: pairs, inner', List.forall_mem_cons.mpr ⟨hinner.1, hpairs⟩, hmap,
          fun outer rest => ?_⟩
        rw [List.cons_append, List.cons_append, ofKindsFrom, if_neg herror, if_neg hopening,
          if_pos hclosing, hlen, takeWhile_not_closes hcloses]
        exact congrArg _ (hrun outer rest)
    · obtain ⟨pairs, inner', hpairs, hmap, hrun⟩ :=
        ih (position + 1) inner (by omega) hinner h
      refine ⟨pairs, inner', hpairs, hmap, fun outer rest => ?_⟩
      rw [List.cons_append, ofKindsFrom, if_neg herror, if_neg hopening, if_neg hclosing, hlen, hrun]

/-- Whatever comes first leaves pairs and open brackets of its own, and faults stay faults. -/
theorem ofKindsFrom_append (kinds : List TokenKind) (position : Nat) {stack : Stack}
    (hstack : ∀ o ∈ stack, o.1 < position) :
    ∃ pairs, ∃ stack' : Stack, (∀ pair ∈ pairs, pair.1 < position + kinds.length) ∧
      ∀ rest, (ofKindsFrom position stack (kinds ++ rest)).pairs =
          pairs ++ (ofKindsFrom (position + kinds.length) stack' rest).pairs ∧
        ((ofKindsFrom position stack (kinds ++ rest)).faults = [] →
          (ofKindsFrom (position + kinds.length) stack' rest).faults = []) := by
  induction kinds generalizing position stack with
  | nil => exact ⟨[], stack, List.forall_mem_nil _, fun _ => ⟨rfl, id⟩⟩
  | cons kind kinds ih =>
    have hlen : position + (kind :: kinds).length = position + 1 + kinds.length := by
      rw [List.length_cons]
      omega
    have hkept : ∀ o ∈ stack, o.1 < position + 1 := fun o ho => Nat.lt_succ_of_lt (hstack o ho)
    rw [hlen]
    simp only [List.cons_append, ofKindsFrom]
    split_ifs with herror hopening hclosing
    · obtain ⟨pairs, stack', hpairs, hrun⟩ := ih _ hkept
      exact ⟨pairs, stack', hpairs, fun rest => ⟨(hrun rest).1, fun hf => by cases hf⟩⟩
    · exact ih _ (List.forall_mem_cons.mpr ⟨Nat.lt_succ_self _, hkept⟩)
    · split
      · obtain ⟨pairs, stack', hpairs, hrun⟩ := ih _ hkept
        exact ⟨pairs, stack', hpairs, fun rest => ⟨(hrun rest).1, fun hf => by cases hf⟩⟩
      · rename_i opened outer hdrop
        have hsub : opened :: outer ⊆ stack := hdrop ▸ List.drop_subset _ _
        obtain ⟨pairs, stack', hpairs, hrun⟩ :=
          ih _ fun o ho => hkept o (hsub (List.mem_cons_of_mem _ ho))
        have hopened := hstack _ (hsub List.mem_cons_self)
        refine ⟨(opened.1, position) :: pairs, stack', List.forall_mem_cons.mpr ⟨?_, hpairs⟩,
          fun rest => ⟨congrArg _ (hrun rest).1, fun hf => (hrun rest).2 (List.append_eq_nil_iff.mp hf).2⟩⟩
        dsimp only
        omega
    · exact ih _ hkept

/-- What is closed from a position on is closed there or later. -/
theorem le_of_mem_ofKindsFrom (kinds : List TokenKind) (position : Nat) (stack : Stack) :
    ∀ pair ∈ (ofKindsFrom position stack kinds).pairs, position ≤ pair.2 := by
  induction kinds generalizing position stack with
  | nil => simp [ofKindsFrom]
  | cons kind kinds ih =>
    have hlater (stack' : Stack) : ∀ pair ∈ (ofKindsFrom (position + 1) stack' kinds).pairs,
        position ≤ pair.2 := fun pair hpair => Nat.le_of_succ_le (ih _ _ pair hpair)
    rw [ofKindsFrom]
    split_ifs
    · exact hlater _
    · exact hlater _
    · dsimp only
      split
      · exact hlater _
      · exact List.forall_mem_cons.mpr ⟨Nat.le_refl _, hlater _⟩
    · exact hlater _

/-- Without faults an open bracket is closed later, after well nested kinds. -/
theorem exists_group {kinds : List TokenKind} {position : Nat} (inner : Stack) {outer : Stack}
    {opened : Nat × TokenKind}
    (h : (ofKindsFrom position (inner ++ opened :: outer) kinds).faults = []) :
    ∃ inside closing rest, kinds = inside ++ closing :: rest ∧
      nest (inner.map (·.2)) inside = some [] ∧ closing.isClosingBracket ∧
      closes opened.2 closing := by
  induction kinds generalizing position inner with
  | nil => simp [ofKindsFrom] at h
  | cons kind kinds ih =>
    rw [ofKindsFrom] at h
    by_cases herror : kind = .error
    · rw [if_pos herror] at h
      cases h
    rw [if_neg herror] at h
    by_cases hopening : kind.isOpeningBracket
    · rw [if_pos hopening, ← List.cons_append] at h
      obtain ⟨inside, closing, rest, rfl, hnest, hc⟩ := ih ((position, kind) :: inner) h
      refine ⟨kind :: inside, closing, rest, rfl, ?_, hc⟩
      rw [nest, if_neg herror, if_pos hopening]
      exact hnest
    rw [if_neg hopening] at h
    by_cases hclosing : kind.isClosingBracket
    · rw [if_pos hclosing] at h
      dsimp only at h
      split at h
      · cases h
      · rename_i o outer' hdrop
        -- Nothing may stay unclosed, so the innermost open bracket is the one that is closed.
        have hnone := (List.append_eq_nil_iff.mp h).1
        rw [List.map_eq_nil_iff, List.reverse_eq_nil_iff] at hnone
        rw [hnone, List.length_nil, List.drop_zero] at hdrop
        have hcloses : closes o.2 kind := by
          by_contra hopen
          rw [hdrop, List.takeWhile_cons, if_pos (by simpa using hopen)] at hnone
          cases hnone
        cases inner with
        | nil =>
          obtain ⟨rfl, rfl⟩ := List.cons.inj hdrop
          exact ⟨[], kind, kinds, rfl, rfl, hclosing, hcloses⟩
        | cons o' inner =>
          obtain ⟨rfl, rfl⟩ := List.cons.inj hdrop
          obtain ⟨inside, closing, rest, rfl, hnest, hc⟩ := ih inner (List.append_eq_nil_iff.mp h).2
          refine ⟨kind :: inside, closing, rest, rfl, ?_, hc⟩
          rw [List.map_cons, nest, if_neg herror, if_neg hopening, if_pos hclosing, close?,
            if_pos hcloses]
          exact hnest
    · rw [if_neg hclosing] at h
      obtain ⟨inside, closing, rest, rfl, hnest, hc⟩ := ih _ h
      refine ⟨kind :: inside, closing, rest, rfl, ?_, hc⟩
      rw [nest, if_neg herror, if_neg hopening, if_neg hclosing]
      exact hnest

theorem ne_error_of_isOpeningBracket {kind : TokenKind} (h : kind.isOpeningBracket) :
    kind ≠ .error := by
  rintro rfl
  cases h

theorem pairs_after_opening (before : List TokenKind) {opening : TokenKind}
    (hopening : opening.isOpeningBracket) :
    ∃ pairs, ∃ stack : Stack, (∀ pair ∈ pairs, pair.1 < before.length) ∧
      ∀ rest, (ofKinds (before ++ opening :: rest)).pairs = pairs ++
          (ofKindsFrom (before.length + 1) ((before.length, opening) :: stack) rest).pairs ∧
        ((ofKinds (before ++ opening :: rest)).faults = [] →
          (ofKindsFrom (before.length + 1) ((before.length, opening) :: stack) rest).faults = []) := by
  obtain ⟨pairs, stack, hpairs, hrun⟩ := ofKindsFrom_append before 0 (List.forall_mem_nil _)
  refine ⟨pairs, stack, by simpa using hpairs, fun rest => ?_⟩
  have hstep := hrun (opening :: rest)
  rwa [Nat.zero_add, ofKindsFrom, if_neg (ne_error_of_isOpeningBracket hopening),
    if_pos hopening] at hstep

theorem lookup_append_of_ne {pairs : List (Nat × Nat)} {p : Nat} (h : ∀ pair ∈ pairs, pair.1 ≠ p)
    (rest : List (Nat × Nat)) : (pairs ++ rest).lookup p = rest.lookup p := by
  induction pairs with
  | nil => rfl
  | cons pair pairs ih =>
    rw [List.forall_mem_cons] at h
    rw [List.cons_append, List.lookup_cons, beq_false_of_ne h.1.symm]
    exact ih h.2

/-- A group with well nested kinds inside ends where these do. -/
theorem closer?_of_nest {before inside after : List TokenKind} {opening closing : TokenKind}
    (hopening : opening.isOpeningBracket) (hinside : nest [] inside = some [])
    (hclosing : closing.isClosingBracket) (hcloses : closes opening closing) :
    (ofKinds (before ++ opening :: (inside ++ closing :: after))).closer? before.length =
      some (before.length + 1 + inside.length) := by
  obtain ⟨pairs, stack, hpairs, hrun⟩ := pairs_after_opening before hopening
  obtain ⟨pairs', inner', hpairs', hinner', hrun'⟩ := ofKindsFrom_nest _ []
    (Nat.le_refl (before.length + 1)) (List.forall_mem_nil _) hinside
  obtain rfl : inner' = [] := List.map_eq_nil_iff.mp hinner'
  have hplain : closing ≠ .error ∧ closing.isOpeningBracket = false := by
    cases closing <;> first | exact ⟨by decide, rfl⟩ | cases hclosing
  rw [closer?, (hrun _).1, ← List.nil_append ((before.length, opening) :: stack), hrun',
    lookup_append_of_ne fun pair hp => Nat.ne_of_lt (hpairs pair hp),
    lookup_append_of_ne fun pair hp => Nat.ne_of_gt (hpairs' pair hp), List.nil_append, ofKindsFrom,
    if_neg hplain.1, if_neg (by simp [hplain.2]), if_pos hclosing,
    takeWhile_not_closes (show closes (before.length, opening).2 closing from hcloses)]
  simp

theorem le_closer? {before inside after opened : List TokenKind} {opening : TokenKind}
    (hopening : opening.isOpeningBracket) (hinside : nest [] inside = some opened) {q : Nat}
    (h : (ofKinds (before ++ opening :: (inside ++ after))).closer? before.length = some q) :
    before.length + 1 + inside.length ≤ q := by
  obtain ⟨pairs, stack, hpairs, hrun⟩ := pairs_after_opening before hopening
  obtain ⟨pairs', inner', hpairs', -, hrun'⟩ := ofKindsFrom_nest _ []
    (Nat.le_refl (before.length + 1)) (List.forall_mem_nil _) hinside
  rw [closer?, (hrun _).1, ← List.nil_append ((before.length, opening) :: stack), hrun',
    lookup_append_of_ne fun pair hp => Nat.ne_of_lt (hpairs pair hp),
    lookup_append_of_ne fun pair hp => Nat.ne_of_gt (hpairs' pair hp), List.lookup_eq_some_iff] at h
  obtain ⟨l₁, l₂, hl, -⟩ := h
  exact le_of_mem_ofKindsFrom _ _ _ (before.length, q) (by rw [hl]; simp)

theorem mem_ofKindsFrom_opening {kinds : List TokenKind} {position : Nat} {stack : Stack} :
    ∀ pair ∈ (ofKindsFrom position stack kinds).pairs, (∃ opened ∈ stack, opened.1 = pair.1) ∨
      ∃ i kind, position + i = pair.1 ∧ kinds[i]? = some kind ∧ kind.isOpeningBracket := by
  induction kinds generalizing position stack with
  | nil => simp [ofKindsFrom]
  | cons kind kinds ih =>
    have hlater {stack' : Stack} (hsub : stack' ⊆ stack) :
        ∀ pair ∈ (ofKindsFrom (position + 1) stack' kinds).pairs,
          (∃ opened ∈ stack, opened.1 = pair.1) ∨
          ∃ i k, position + i = pair.1 ∧ (kind :: kinds)[i]? = some k ∧ k.isOpeningBracket := by
      intro pair hpair
      rcases ih pair hpair with ⟨opened, ho, heq⟩ | ⟨i, k, hi, hk⟩
      · exact Or.inl ⟨opened, hsub ho, heq⟩
      · exact Or.inr ⟨i + 1, k, by omega, by simpa using hk⟩
    rw [ofKindsFrom]
    split_ifs with herror hopening hclosing
    · exact hlater (List.Subset.refl _)
    · intro pair hpair
      rcases ih pair hpair with ⟨opened, ho, heq⟩ | ⟨i, k, hi, hk⟩
      · rcases List.mem_cons.mp ho with rfl | ho
        · exact Or.inr ⟨0, kind, by simpa using heq, rfl, hopening⟩
        · exact Or.inl ⟨opened, ho, heq⟩
      · exact Or.inr ⟨i + 1, k, by omega, by simpa using hk⟩
    · dsimp only
      split
      · exact hlater (List.Subset.refl _)
      · rename_i opened outer hdrop
        have hsub : opened :: outer ⊆ stack := hdrop ▸ List.drop_subset _ _
        rw [List.forall_mem_cons]
        exact ⟨Or.inl ⟨opened, hsub List.mem_cons_self, rfl⟩,
          hlater fun o ho => hsub (List.mem_cons_of_mem _ ho)⟩
    · exact hlater (List.Subset.refl _)

theorem isOpeningBracket_of_closer? {kinds : List TokenKind} {p q : Nat}
    (h : (ofKinds kinds).closer? p = some q) : ∃ kind, kinds[p]? = some kind ∧ kind.isOpeningBracket := by
  rw [closer?, List.lookup_eq_some_iff] at h
  obtain ⟨l₁, l₂, hl, -⟩ := h
  have hmem : (p, q) ∈ (ofKindsFrom 0 [] kinds).pairs := by
    rw [← ofKinds, hl]
    simp
  rcases mem_ofKindsFrom_opening _ hmem with ⟨opened, ho, -⟩ | ⟨i, kind, hi, hkind⟩
  · cases ho
  · obtain rfl : i = p := by simpa using hi
    exact ⟨kind, hkind⟩

theorem ne_error_of_faults {kinds : List TokenKind} {position : Nat} {stack : Stack}
    (h : (ofKindsFrom position stack kinds).faults = []) : ∀ kind ∈ kinds, kind ≠ .error := by
  induction kinds generalizing position stack with
  | nil => simp
  | cons kind kinds ih =>
    rw [List.forall_mem_cons]
    rw [ofKindsFrom] at h
    split_ifs at h with herror hopening hclosing
    · exact ⟨herror, ih h⟩
    · dsimp only at h
      split at h
      · cases h
      · exact ⟨herror, ih (List.append_eq_nil_iff.mp h).2⟩
    · exact ⟨herror, ih h⟩

/-- Where there are no faults, a bracket is closed by its closer. -/
theorem closes_of_closer? {kinds : List TokenKind} (hfaults : (ofKinds kinds).faults = []) {p q : Nat}
    (h : (ofKinds kinds).closer? p = some q) :
    ∃ opening closing, kinds[p]? = some opening ∧ kinds[q]? = some closing ∧ closes opening closing := by
  obtain ⟨opening, hp, hopening⟩ := isOpeningBracket_of_closer? h
  obtain ⟨hlt, rfl⟩ := List.getElem?_eq_some_iff.mp hp
  obtain ⟨before, rest, hkinds, hlen⟩ :
      ∃ before rest, kinds = before ++ kinds[p] :: rest ∧ before.length = p :=
    ⟨kinds.take p, kinds.drop (p + 1), by simp, by simp; omega⟩
  generalize kinds[p] = opening at *
  subst hkinds hlen
  obtain ⟨pairs, stack, -, hrun⟩ := pairs_after_opening before hopening
  obtain ⟨inside, closing, rest, rfl, hnest, hclosing, hcloses⟩ :=
    exists_group [] ((hrun _).2 hfaults)
  rw [closer?_of_nest hopening hnest hclosing hcloses, Option.some.injEq] at h
  subst h
  refine ⟨opening, closing, hp, ?_, hcloses⟩
  rw [Nat.add_assoc, List.getElem?_append_right (Nat.le_add_right _ _), Nat.add_sub_cancel_left,
    Nat.add_comm, List.getElem?_cons_succ, List.getElem?_append_right (Nat.le_refl _), Nat.sub_self,
    List.getElem?_cons_zero]

/-- Where there are no faults, the groups inside a stretch are its groups in all other surroundings
too. -/
theorem closer?_stretch {before stretch after : List TokenKind}
    (hfaults : (ofKinds (before ++ stretch ++ after)).faults = []) (before' after' : List TokenKind)
    {i j : Nat} (hi : i < stretch.length) (hj : j < stretch.length) :
    (ofKinds (before ++ stretch ++ after)).closer? (before.length + i) = some (before.length + j) ↔
      (ofKinds (before' ++ stretch ++ after')).closer? (before'.length + i) =
        some (before'.length + j) := by
  obtain ⟨first, kind, last, rfl, rfl⟩ :
      ∃ first kind last, stretch = first ++ kind :: last ∧ first.length = i :=
    ⟨stretch.take i, stretch[i], stretch.drop (i + 1), by simp, by simp; omega⟩
  have hshape (b a : List TokenKind) :
      b ++ (first ++ kind :: last) ++ a = (b ++ first) ++ kind :: (last ++ a) := by simp
  rw [hshape] at hfaults
  rw [hshape, hshape, ← List.length_append, ← List.length_append]
  by_cases hopening : kind.isOpeningBracket
  · obtain ⟨pairs, stack, -, hrun⟩ := pairs_after_opening (before ++ first) hopening
    obtain ⟨inside, closing, rest, hinside, hnest, hclosing, hcloses⟩ :=
      exists_group [] ((hrun _).2 hfaults)
    rw [List.length_append, List.length_cons] at hj
    rw [hinside, closer?_of_nest hopening hnest hclosing hcloses]
    rcases Nat.lt_or_ge inside.length last.length with hlt | hge
    · -- The group ends in the stretch.
      obtain ⟨last', rfl⟩ : ∃ last', last = inside ++ closing :: last' := by
        have hgroup : inside ++ [closing] <+: last ++ after := ⟨rest, by rw [hinside]; simp⟩
        have hwhole : inside ++ [closing] <+: last :=
          List.prefix_of_prefix_length_le hgroup (List.prefix_append last after)
            (by simpa using Nat.succ_le_of_lt hlt)
        obtain ⟨last', rfl⟩ := hwhole
        exact ⟨last', by simp⟩
      rw [show inside ++ closing :: last' ++ after' = inside ++ closing :: (last' ++ after') by simp,
        closer?_of_nest hopening hnest hclosing hcloses]
      simp only [List.length_append, Option.some.injEq]
      omega
    · -- The group goes beyond the stretch.
      obtain ⟨more, rfl⟩ : ∃ more, inside = last ++ more := by
        have hgroup : inside <+: last ++ after := ⟨closing :: rest, hinside.symm⟩
        obtain ⟨more, hmore⟩ :=
          List.prefix_of_prefix_length_le (List.prefix_append last after) hgroup hge
        exact ⟨more, hmore.symm⟩
      obtain ⟨opened, hlast⟩ := exists_nest_of_append hnest
      constructor
      · intro h
        simp only [List.length_append, Option.some.injEq] at h
        omega
      · intro h
        have := le_closer? hopening hlast h
        rw [List.length_append] at this
        omega
  · have hnone {b a : List TokenKind} {q : Nat} :
        (ofKinds (b ++ kind :: a)).closer? b.length ≠ some q := by
      intro h
      obtain ⟨kind', hkind', hopening'⟩ := isOpeningBracket_of_closer? h
      rw [List.getElem?_append_right (Nat.le_refl _), Nat.sub_self, List.getElem?_cons_zero,
        Option.some.injEq] at hkind'
      exact hopening (hkind' ▸ hopening')
    exact iff_of_false hnone hnone

end BracketMatching
end NamespaceMigration
