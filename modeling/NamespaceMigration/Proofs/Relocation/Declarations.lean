import NamespaceMigration.Proofs.Relocation.Shapeless
import NamespaceMigration.Proofs.Statements.Respelling

/-! Constants, classes, functions and calls of `define` in a stretch of code are read as the same
declarations at two places. -/
namespace NamespaceMigration
namespace Parser

open Code (lt_size_of_kind? lt_size_of_isAt lt_size_of_isAtAny)

variable {a b : Code.Place} {n i : Nat}

/-- No assignment comes after a statement that ends with a name. -/
theorem statementEnd_not_equals {c : Code} {start : Nat} (hstart : endsAtBrace c start = false)
    {fuel p : Nat} (ho : c.Ordered) (hp : p ≤ c.size) (hfuel : c.size < p + fuel)
    (hident : c.isAt .ident (statementEnd c start fuel p - 1)) :
    c.isAt .equals (statementEnd c start fuel p) = false := by
  induction fuel generalizing p with
  | zero => omega
  | succ fuel ih =>
    rw [statementEnd, statementStep] at hident ⊢
    cases hkind : c.kind? p with
    | none =>
      dsimp only
      rw [Code.isAt, hkind]
      rfl
    | some kind =>
      have hsize := lt_size_of_kind? hkind
      have hgroup := ho.groupEnd_reaches_succ hsize
      have hforward := hgroup.1
      simp only [hkind, hstart, Bool.false_eq_true, false_and, and_false, if_false] at hident ⊢
      split_ifs at hident ⊢ with hterm hclosing hopening
      · rw [Nat.add_sub_cancel, Code.isAt, hkind] at hident
        rcases hterm with rfl | rfl <;> cases hident
      · dsimp only
        rw [Code.isAt, hkind]
        rcases hclosing with hclosing | ⟨rfl, -⟩
        · cases kind <;> first | rfl | cases hclosing
        · rfl
      · exact ih hgroup.2 (by omega) hident
      · exact ih hsize (by omega) hident

theorem exists_map_common {α β γ : Type} {l : List α} {f g : α → β} {u w : γ → β}
    (h : ∀ x ∈ l, ∃ v, f x = u v ∧ g x = w v) :
    ∃ vs : List γ, l.map f = vs.map u ∧ l.map g = vs.map w := by
  induction l with
  | nil => exact ⟨[], rfl, rfl⟩
  | cons x l ih =>
    rw [List.forall_mem_cons] at h
    obtain ⟨⟨v, hf, hg⟩, hrest⟩ := h
    obtain ⟨vs, hfs, hgs⟩ := ih hrest
    refine ⟨v :: vs, ?_, ?_⟩
    · rw [List.map_cons, hf, hfs, List.map_cons]
    · rw [List.map_cons, hg, hgs, List.map_cons]

theorem statementEnd_eq {c : Code} {p : Nat} (herrors : (skipStatement c p).errors = []) :
    (skipStatement c p).next = statementEnd c p (c.size + 1) p := by
  rw [skipStatement] at herrors ⊢
  by_cases hstop : statementEnd c p (c.size + 1) p = p
  · rw [if_pos hstop] at herrors
    cases herrors
  · rw [if_neg hstop]

theorem statementEnd_le {c : Code} {kind : StatementKind} {p stop : Nat}
    (herrors : (shapeless c kind p).errors = []) (hle : (shapeless c kind p).next ≤ stop) :
    statementEnd c p (c.size + 1) p ≤ stop :=
  statementEnd_eq herrors ▸ hle

section Constants

variable (h : Alongside a b n)
include h

theorem insideGroup_eq {k : Nat} (hk : k < n) :
    insideGroup b.code (b.first + i) (b.first + k) = insideGroup a.code (a.first + i) (a.first + k) := by
  rw [insideGroup, insideGroup, Nat.add_sub_add_left, Nat.add_sub_add_left, ← List.map_add_range' i,
    ← List.map_add_range' i, List.any_map, List.any_map, Bool.eq_iff_iff, List.any_eq_true,
    List.any_eq_true]
  refine exists_congr fun j => and_congr_right fun hj => ?_
  obtain ⟨hij, hjk⟩ := List.mem_range'_1.mp hj
  have hjk : j < k := by omega
  rw [Function.comp_apply, Function.comp_apply, h.kind j (by omega), Bool.and_eq_true, Bool.and_eq_true,
    decide_eq_true_eq, decide_eq_true_eq, h.lt_groupEnd_iff (Nat.le_of_lt hjk) hk]

theorem constStatement_tracks (hi : i < n) (hkind : a.code.kind? (a.first + i) = some .kwConst) :
    Tracks a b n StatementKind.move (constStatement a.code (a.first + i))
      (constStatement b.code (b.first + i)) := by
  intro herrors hle
  rw [constStatement] at herrors hle ⊢
  rw [constStatement]
  obtain ⟨herrors', ⟨e, he, hnext, hnext'⟩, -⟩ := skipStatement_tracks h hi herrors hle
  have hreach := skipStatement_reaches_succ h.ordered.1 (h.lt_size hi)
  rw [hnext] at hreach
  have hie := hreach.1
  have hsame (k : Nat) (hk : i < k) (hke : k < e) : declaresConstant b.code (b.first + i) (b.first + k) =
      declaresConstant a.code (a.first + i) (a.first + k) := by
    have hkn : k < n := by omega
    obtain ⟨j, rfl⟩ : ∃ j, k = j + 1 := ⟨k - 1, by omega⟩
    have hprev (x : Nat) : x + (j + 1) - 1 = x + j := rfl
    rw [declaresConstant, declaresConstant, insideGroup_eq h hkn, hprev, hprev,
      h.isAtAny_lt (i := j) (by omega), h.isAt_lt hkn]
    cases hident : a.code.isAt .ident (a.first + (j + 1)) with
    | false => rfl
    | true =>
      have hopen := h.open_of_isAt hkn hident rfl
      rw [Nat.add_assoc b.first, Nat.add_assoc a.first, h.isAt_eq hopen]
      intro hequals
      refine Nat.lt_of_le_of_ne hkn fun heq => ?_
      -- The statement ends after this name, so no assignment comes there.
      have heq' : e = j + 1 + 1 := by omega
      have hend : statementEnd a.code (a.first + i) (a.code.size + 1) (a.first + i) = a.first + e :=
        (statementEnd_eq herrors).symm.trans hnext
      have hstart : endsAtBrace a.code (a.first + i) = false := by
        rw [endsAtBrace, Code.isAt, Code.isAt, hkind]
        rfl
      have hnot := statementEnd_not_equals hstart h.ordered.1 (Nat.le_of_lt (h.lt_size hi))
        (show a.code.size < a.first + i + (a.code.size + 1) by omega) (by rw [hend, heq']; exact hident)
      rw [hend, heq', hequals] at hnot
      cases hnot
  have hnames (c : Code) (x : Nat) : List.range' (x + i + 1) (x + e - (x + i + 1)) =
      (List.range' (i + 1) (e - (i + 1))).map (x + ·) := by
    rw [Nat.add_assoc, Nat.add_sub_add_left, List.map_add_range']
  dsimp only
  rw [hnext, hnext', hnames a.code, hnames b.code, List.filter_map, List.filter_map, List.map_map,
    List.map_map]
  have hfilter : (List.range' (i + 1) (e - (i + 1))).filter
      (declaresConstant b.code (b.first + i) ∘ (b.first + ·)) =
      (List.range' (i + 1) (e - (i + 1))).filter
        (declaresConstant a.code (a.first + i) ∘ (a.first + ·)) := by
    refine List.filter_congr fun k hk => ?_
    obtain ⟨hik, hke⟩ := List.mem_range'_1.mp hk
    exact hsame k hik (by omega)
  rw [hfilter]
  obtain ⟨vs, hleft, hright⟩ := exists_map_common
    (l := (List.range' (i + 1) (e - (i + 1))).filter
      (declaresConstant a.code (a.first + i) ∘ (a.first + ·)))
    (f := (fun q => (a.code.text q, a.code.tokenIndex q)) ∘ (a.first + ·))
    (g := (fun q => (b.code.text q, b.code.tokenIndex q)) ∘ (b.first + ·))
    (u := fun entry : Text × Nat => (entry.1, a.token + entry.2))
    (w := fun entry : Text × Nat => (entry.1, b.token + entry.2)) fun k hk => by
      obtain ⟨-, hke⟩ := List.mem_range'_1.mp (List.mem_of_mem_filter hk)
      have hkn : k < n := by omega
      obtain ⟨m, hm, hm'⟩ := h.index k hkn
      refine ⟨(a.code.text (a.first + k), m), ?_, ?_⟩
      · rw [Function.comp_apply, hm]
      · rw [Function.comp_apply, hm', h.text k hkn]
  rw [hleft, hright]
  exact ⟨herrors', ⟨e, he, rfl, rfl⟩, .constants vs, rfl, rfl⟩

end Constants

/-- A step that goes over one token or over one bracket group, by the kind of the token. -/
def stepBy (c : Code) (goes : TokenKind → Option Bool) (p : Nat) : Option Nat :=
  ((c.kind? p).bind goes).map fun group => if group then c.groupEnd p else p + 1

/-- What may stand before a declaration. -/
def modifierStep : TokenKind → Option Bool
  | .attributeOpen => some true
  | .kwAbstract | .kwFinal | .kwReadonly => some false
  | _ => none

/-- What may stand before the body of a declaration. -/
def beforeBody : TokenKind → Option Bool
  | .leftBrace | .semicolon | .rightBrace => none
  | .leftParen | .leftBracket | .attributeOpen => some true
  | _ => some false

theorem afterModifiers_eq (c : Code) (p : Nat) :
    afterModifiers c p = follow (stepBy c modifierStep) (c.size + 1) p := by
  rw [afterModifiers]
  congr 1
  funext q
  rw [stepBy]
  cases hkind : c.kind? q with
  | none => rfl
  | some kind => cases kind <;> rfl

theorem headerStep_eq (c : Code) : headerStep c = stepBy c beforeBody := by
  funext q
  rw [headerStep, stepBy]
  cases hkind : c.kind? q with
  | none => rfl
  | some kind => cases kind <;> rfl

theorem lt_of_stepBy {c : Code} (ho : c.Ordered) {goes : TokenKind → Option Bool} {p next : Nat}
    (hstep : stepBy c goes p = some next) : p < next := by
  rw [stepBy, Option.map_eq_some_iff] at hstep
  obtain ⟨group, hgoes, rfl⟩ := hstep
  obtain ⟨kind, hkind, -⟩ := Option.bind_eq_some_iff.mp hgoes
  split
  · exact (ho.groupEnd_reaches_succ (lt_size_of_kind? hkind)).1
  · exact Nat.lt_succ_self p

section Headers

variable (h : Alongside a b n)
include h

/-- Steps that go over no braces and no end of a statement lead to the same position. -/
theorem follow_stepBy_tracks {goes : TokenKind → Option Bool}
    (hgoes : ∀ kind group, goes kind = some group → kind.isStop = false ∧ kind ≠ .leftBrace)
    (ho : h.Open i) (hi : i ≤ n)
    (hle : follow (stepBy a.code goes) (a.code.size + 1) (a.first + i) ≤ a.first + n) :
    ∃ q, i ≤ q ∧ q ≤ n ∧ h.Open q ∧
      follow (stepBy a.code goes) (a.code.size + 1) (a.first + i) = a.first + q ∧
      follow (stepBy b.code goes) (b.code.size + 1) (b.first + i) = b.first + q := by
  refine follow_tracks (Q := h.Open) (fun p next => lt_of_stepBy h.ordered.1)
    (fun j next hj hopen hstep hnext => ?_) (fun j hj hopen hstep => ?_) hi ho (fuel_left h i)
    (fuel_right h i) hle
  · have hjn : j < n := by
      have := lt_of_stepBy h.ordered.1 hstep
      omega
    rw [stepBy, Option.map_eq_some_iff] at hstep
    obtain ⟨group, hbind, rfl⟩ := hstep
    obtain ⟨kind, hkind, hgroup⟩ := Option.bind_eq_some_iff.mp hbind
    obtain ⟨hstop, hbrace⟩ := hgoes kind group hgroup
    rw [stepBy, h.kind j hjn, hkind, Option.bind_some, hgroup, Option.map_some]
    cases group with
    | false => exact ⟨j + 1, hjn, rfl, rfl, h.open_succ hjn hkind hstop⟩
    | true =>
      obtain ⟨q, hq, -, -, hend, hend'⟩ := h.groupEnd_eq hj hnext
      exact ⟨q, hq, hend, congrArg some hend', h.open_groupEnd hkind hbrace hq hend⟩
  · rcases Nat.lt_or_ge j n with hjn | hjn
    · rw [stepBy, Option.map_eq_none_iff] at hstep ⊢
      rw [h.kind j hjn]
      exact hstep
    · rcases h.kind?_open hopen with hsame | ⟨-, hnone⟩
      · rw [stepBy, Option.map_eq_none_iff] at hstep ⊢
        rw [hsame]
        exact hstep
      · rw [stepBy, hnone]
        rfl

theorem body_tracks (ho : h.Open i) (hi : i ≤ n) :
    Tracks a b n stays (body a.code (a.first + i)) (body b.code (b.first + i)) := by
  intro herrors hle
  rw [body, headerStep_eq] at herrors hle ⊢
  rw [body, headerStep_eq]
  by_cases hbrace : a.code.isAt .leftBrace
      (follow (stepBy a.code beforeBody) (a.code.size + 1) (a.first + i))
  swap
  · rw [if_neg hbrace] at herrors
    cases herrors
  rw [if_pos hbrace] at hle ⊢
  have hsize := lt_size_of_isAt hbrace
  have hgroup := (h.ordered.1.groupEnd_reaches_succ hsize).1
  have hgoes : ∀ kind group, beforeBody kind = some group →
      kind.isStop = false ∧ kind ≠ .leftBrace := by
    intro kind group hgoes
    cases kind <;> first | exact ⟨rfl, by decide⟩ | cases hgoes
  obtain ⟨q, -, hq, -, hopener, hopener'⟩ := follow_stepBy_tracks h hgoes ho hi
    (by dsimp only at hle; omega)
  rw [hopener] at hbrace hle hgroup ⊢
  rw [hopener', if_pos (by rw [h.isAt_lt (by dsimp only at hle; omega)]; exact hbrace)]
  obtain ⟨r, hr, -, -, hend, hend'⟩ := h.groupEnd_eq hq hle
  exact ⟨rfl, ⟨r, hr, hend, hend'⟩, (), rfl, rfl⟩

theorem afterModifiers_tracks (hi : i < n) (hle : afterModifiers a.code (a.first + i) ≤ a.first + n) :
    ∃ q, i ≤ q ∧ q ≤ n ∧ h.Open q ∧ afterModifiers a.code (a.first + i) = a.first + q ∧
      afterModifiers b.code (b.first + i) = b.first + q := by
  rw [afterModifiers_eq] at hle
  rw [afterModifiers_eq, afterModifiers_eq]
  refine follow_stepBy_tracks h ?_ (Or.inl hi) (Nat.le_of_lt hi) hle
  intro kind group hgoes
  cases kind <;> first | exact ⟨rfl, by decide⟩ | cases hgoes

omit h in
/-- A statement without a shape goes over its modifiers. -/
theorem afterModifiers_le_statementEnd {c : Code} (ho : c.Ordered) {start fuel fuel' p : Nat}
    (hp : p ≤ c.size) (hfuel : c.size < p + fuel') :
    follow (stepBy c modifierStep) fuel p ≤ statementEnd c start fuel' p := by
  induction fuel generalizing p fuel' with
  | zero => exact (statementEnd_reaches ho hp).1
  | succ fuel ih =>
    rw [follow]
    split
    · rename_i next hstep
      obtain ⟨fuel', rfl⟩ : ∃ m, fuel' = m + 1 := ⟨fuel' - 1, by omega⟩
      have hlt := lt_of_stepBy ho hstep
      rw [stepBy, Option.map_eq_some_iff] at hstep
      obtain ⟨group, hbind, rfl⟩ := hstep
      obtain ⟨kind, hkind, hgroup⟩ := Option.bind_eq_some_iff.mp hbind
      have hsize := lt_size_of_kind? hkind
      have hgoOn : statementStep c start p = .goOn (if group then c.groupEnd p else p + 1) := by
        rw [statementStep, hkind]
        cases kind <;> cases hgroup <;> simp [TokenKind.isClosingBracket, TokenKind.isOpeningBracket]
      rw [statementEnd, hgoOn]
      have hreach := ho.groupEnd_reaches_succ hsize
      exact ih (by split; exacts [hreach.2, hsize]) (by omega)
    · exact (statementEnd_reaches ho hp).1

/-- A class keyword is read alike where the name after it is in the stretch. -/
theorem classKeyword?_eq (ho : h.Open i)
    (hlt : ∀ kind, classKeyword? a.code (a.first + i) = some kind → i + 1 < n) :
    classKeyword? b.code (b.first + i) = classKeyword? a.code (a.first + i) := by
  rcases Nat.lt_or_ge (i + 1) n with hin | hin
  · rw [classKeyword?, classKeyword?, Nat.add_assoc, h.isAt_lt hin, h.kind i (by omega),
      h.text i (by omega)]
    rfl
  · have hnone : classKeyword? a.code (a.first + i) = none := by
      by_contra hsome
      obtain ⟨kind, hkind⟩ := Option.ne_none_iff_exists'.mp hsome
      exact absurd (hlt kind hkind) (Nat.not_lt_of_le hin)
    rw [hnone]
    cases hsome : classKeyword? b.code (b.first + i) with
    | none => rfl
    | some kind =>
      exfalso
      rw [classKeyword?] at hsome
      by_cases hname : b.code.isAt .ident (b.first + i + 1)
      swap
      · simp [hname] at hsome
      simp only [hname, Bool.not_true, Bool.false_eq_true, if_false] at hsome
      -- The keyword is in the stretch and ends no statement, so the parser looks at the next token.
      have hi : i < n := by
        by_contra hge
        rcases h.kind?_end ho (by omega) with hnone | ⟨-, head, hhead, -, hkind'⟩
        · rw [hnone] at hsome
          cases hsome
        · rw [hkind'] at hsome
          cases head <;> first | (cases hhead; done) | cases hsome
      rw [h.kind i hi] at hsome
      obtain ⟨word, hword⟩ := h.exists_kind hi
      rw [hword] at hsome
      have hopen := h.open_succ hi hword (by cases word <;> first | rfl | cases hsome)
      rw [Nat.add_assoc, h.isAt_end hopen hin rfl] at hname
      cases hname

omit h in
theorem functionName?_eq_some_iff {c : Code} {p name : Nat} : functionName? c p = some name ↔
    c.isAt .kwFunction p ∧ c.skip .ampersand (p + 1) = name ∧ c.isAt .ident name ∧
      c.isAt .leftParen (name + 1) := by
  rw [functionName?]
  split_ifs with hall
  · simp only [Option.some.injEq]
    constructor
    · rintro rfl
      exact ⟨hall.1, rfl, hall.2⟩
    · exact fun h => h.2.1
  · simp only [false_iff]
    rintro ⟨h1, rfl, h2⟩
    exact hall ⟨h1, h2⟩

/-- The name of a function is found alike where the bracket after it is in the stretch. -/
theorem functionName?_tracks (ho : h.Open i)
    (hlt : ∀ name, functionName? a.code (a.first + i) = some name → name + 1 < a.first + n) :
    (functionName? a.code (a.first + i) = none ∧ functionName? b.code (b.first + i) = none) ∨
      ∃ m, m + 1 < n ∧ functionName? a.code (a.first + i) = some (a.first + m) ∧
        functionName? b.code (b.first + i) = some (b.first + m) := by
  have hskip (hin : i + 1 < n) : ∃ q, i + 1 ≤ q ∧ q ≤ n ∧
      a.code.skip .ampersand (a.first + i + 1) = a.first + q ∧
        b.code.skip .ampersand (b.first + i + 1) = b.first + q ∧ h.Open q := by
    obtain ⟨q, hiq, hq, hleft, hright, hopen⟩ :=
      h.skip_eq .ampersand (Or.inl hin) (Nat.le_of_lt hin) fun _ => hin
    exact ⟨q, hiq, hq, hleft, hright, hopen rfl⟩
  cases ha : functionName? a.code (a.first + i) with
  | some name =>
    right
    have hend := hlt name ha
    obtain ⟨hword, hname, hident, hparen⟩ := functionName?_eq_some_iff.mp ha
    have hforward : a.first + i + 1 ≤ a.code.skip .ampersand (a.first + i + 1) :=
      (Code.skip_reaches .ampersand (lt_size_of_isAt hword)).1
    obtain ⟨q, hiq, -, hleft, hright, -⟩ := hskip (by omega)
    rw [hleft] at hname
    subst hname
    refine ⟨q, by omega, rfl, functionName?_eq_some_iff.mpr ⟨?_, hright, ?_, ?_⟩⟩
    · rw [h.isAt_lt (by omega)]
      exact hword
    · rw [h.isAt_lt (by omega)]
      exact hident
    · rw [Nat.add_assoc, h.isAt_lt (by omega)]
      exact hparen
  | none =>
    refine Or.inl ⟨rfl, ?_⟩
    by_contra hsome
    obtain ⟨name, hb⟩ := Option.ne_none_iff_exists'.mp hsome
    obtain ⟨hword, hname, hident, hparen⟩ := functionName?_eq_some_iff.mp hb
    obtain ⟨hi, hword'⟩ := h.of_isAt ho hword rfl
    have hopen := h.open_of_isAt hi hword' rfl
    have hin : i + 1 < n := by
      by_contra hge
      rw [Code.skip, Nat.add_assoc, h.isAt_end hopen (by omega) rfl, if_neg Bool.false_ne_true] at hname
      subst hname
      exact hge (h.of_isAt (i := i + 1) hopen hident rfl).1
    obtain ⟨q, hiq, hq, hleft, hright, hopenq⟩ := hskip hin
    rw [hright] at hname
    subst hname
    obtain ⟨hqn, hident'⟩ := h.of_isAt hopenq hident rfl
    obtain ⟨-, hparen'⟩ := h.of_isAt (i := q + 1) (h.open_of_isAt hqn hident' rfl) hparen rfl
    rw [functionName?_eq_some_iff.mpr ⟨hword', hleft, hident', hparen'⟩] at ha
    cases ha

omit h in
/-- What follows its modifiers is a part of a declaration. -/
theorem afterModifiers_le_declaration {c : Code} (ho : c.Ordered) {p stop : Nat} (hp : p < c.size)
    (herrors : (declaration c p).errors = []) (hle : (declaration c p).next ≤ stop) :
    afterModifiers c p ≤ stop ∧
      (∀ kind, classKeyword? c (afterModifiers c p) = some kind → afterModifiers c p + 2 ≤ stop) ∧
      ∀ name, classKeyword? c (afterModifiers c p) = none →
        functionName? c (afterModifiers c p) = some name → name + 2 ≤ stop := by
  rw [declaration] at herrors hle
  cases hclass : classKeyword? c (afterModifiers c p) with
  | some kind =>
    rw [hclass] at hle
    have hbody : afterModifiers c p + 2 ≤ (body c (afterModifiers c p + 1 + 1)).next :=
      (body_reaches ho (lt_size_of_isAt (isAt_of_classKeyword? hclass))).1
    have hle : (body c (afterModifiers c p + 1 + 1)).next ≤ stop := hle
    exact ⟨by omega, fun _ _ => by omega, fun _ hnone => by cases hnone⟩
  | none =>
    rw [hclass] at herrors hle
    cases hfunction : functionName? c (afterModifiers c p) with
    | some name =>
      rw [hfunction] at hle
      obtain ⟨hword, hname, -, hparen⟩ := functionName?_eq_some_iff.mp hfunction
      have hskip : afterModifiers c p + 1 ≤ c.skip .ampersand (afterModifiers c p + 1) :=
        (Code.skip_reaches .ampersand (lt_size_of_isAt hword)).1
      have hgroup := ho.groupEnd_reaches_succ (lt_size_of_isAt hparen)
      have hforward := hgroup.1
      have hbody := (body_reaches ho hgroup.2).1
      have hle : (body c (c.groupEnd (name + 1))).next ≤ stop := hle
      refine ⟨by omega, fun _ hsome => by (cases hsome), fun name' _ hname' => ?_⟩
      cases hname'
      omega
    | none =>
      rw [hfunction] at herrors hle
      refine ⟨?_, fun _ hsome => by (cases hsome), fun _ _ hsome => by (cases hsome)⟩
      rw [afterModifiers_eq]
      exact Nat.le_trans (afterModifiers_le_statementEnd ho (Nat.le_of_lt hp) (by omega))
        (statementEnd_le herrors hle)

theorem declaration_tracks (hi : i < n) :
    Tracks a b n StatementKind.move (declaration a.code (a.first + i))
      (declaration b.code (b.first + i)) := by
  intro herrors hle
  obtain ⟨hmodifiers, hclassLt, hfunctionLt⟩ :=
    afterModifiers_le_declaration h.ordered.1 (h.lt_size hi) herrors hle
  obtain ⟨k, -, hk, hopen, hword, hword'⟩ := afterModifiers_tracks h hi hmodifiers
  rw [hword] at hclassLt hfunctionLt
  rw [declaration, hword] at herrors hle
  rw [declaration, declaration, hword, hword', classKeyword?_eq h hopen fun kind hkind => by
    have := hclassLt kind hkind
    omega]
  cases hclass : classKeyword? a.code (a.first + k) with
  | some kind =>
    rw [hclass] at herrors hle
    dsimp only at herrors hle ⊢
    have hkn : k + 1 < n := by
      have := hclassLt kind hclass
      omega
    have hopen' := h.open_of_isAt (i := k + 1) hkn (isAt_of_classKeyword? hclass) rfl
    obtain ⟨herrors', hnext, -⟩ := body_tracks h hopen' hkn herrors hle
    obtain ⟨m, hm, hm'⟩ := h.index (k + 1) hkn
    rw [Nat.add_assoc a.first, Nat.add_assoc b.first, hm, hm', h.text (k + 1) hkn]
    exact ⟨herrors', hnext, .classLike kind _ m, rfl, rfl⟩
  | none =>
    rw [hclass] at herrors hle
    dsimp only at herrors hle ⊢
    rcases functionName?_tracks h hopen fun name hname => hfunctionLt name hclass hname with
      ⟨hnone, hnone'⟩ | ⟨m, hm, hsome, hsome'⟩
    · rw [hnone] at herrors hle ⊢
      rw [hnone']
      exact shapeless_tracks h (fun _ => rfl) hi herrors hle
    · rw [hsome] at herrors hle ⊢
      rw [hsome']
      dsimp only at herrors hle ⊢
      obtain ⟨-, -, -, hparen⟩ := functionName?_eq_some_iff.mp hsome
      have hgroup := h.ordered.1.groupEnd_reaches_succ (lt_size_of_isAt hparen)
      have hbody := (body_reaches h.ordered.1 hgroup.2).1
      obtain ⟨q, hq, -, -, hend, hend'⟩ := h.groupEnd_eq (i := m + 1) (Nat.le_of_lt hm)
        (Nat.le_trans hbody hle)
      have hopen' := h.open_groupEnd (i := m + 1) (Code.isAt_iff.mp hparen) (by decide) hq hend
      rw [Nat.add_assoc, hend] at herrors hle
      rw [Nat.add_assoc, Nat.add_assoc, hend, hend']
      obtain ⟨herrors', hnext, -⟩ := body_tracks h hopen' hq herrors hle
      obtain ⟨l, hl, hl'⟩ := h.index m (by omega)
      rw [hl, hl', h.text m (by omega)]
      exact ⟨herrors', hnext, .function _ l, rfl, rfl⟩

end Headers

theorem defineStatement_eq {c : Code} {p : Nat} (hend : isTerminator c (c.groupEnd (p + 1))) :
    defineStatement c p =
      ⟨.define (if c.isAt .string (p + 2) ∧ c.isAt .comma (p + 3) then literalValue? (c.text (p + 2))
        else none), c.groupEnd (p + 1) + 1, []⟩ := by
  rw [defineStatement, terminator, if_pos hend]

section Defines

variable (h : Alongside a b n)
include h

/-- A statement that starts with a word is a call of `define` at both places or at none. -/
theorem defineOrDeclaration_tracks (hi : i < n) (hkind : a.code.kind? (a.first + i) = some .ident) :
    Tracks a b n StatementKind.move
      (if isDefineCall a.code (a.first + i) then defineStatement a.code (a.first + i)
        else declaration a.code (a.first + i))
      (if isDefineCall b.code (b.first + i) then defineStatement b.code (b.first + i)
        else declaration b.code (b.first + i)) := by
  have hleft := h.le_left
  have hopen := h.open_succ hi hkind rfl
  by_cases hdefine : isDefineCall a.code (a.first + i)
  · rw [if_pos hdefine]
    intro herrors hle
    simp only [isDefineCall, Bool.and_eq_true] at hdefine
    obtain ⟨⟨hword, hparen⟩, hend⟩ := hdefine
    rw [defineStatement_eq hend] at hle ⊢
    have hgroup : a.first + i + 3 ≤ a.code.groupEnd (a.first + i + 1) :=
      h.ordered.1.add_two_le_groupEnd (lt_size_of_isAtAny hend)
    have hle : a.code.groupEnd (a.first + i + 1) + 1 ≤ a.first + n := hle
    obtain ⟨q, hq, -, -, hclose, hclose'⟩ := h.groupEnd_eq (i := i + 1) (by omega)
      (show a.code.groupEnd (a.first + i + 1) ≤ a.first + n by omega)
    have hclose : a.code.groupEnd (a.first + i + 1) = a.first + q := hclose
    have hclose' : b.code.groupEnd (b.first + i + 1) = b.first + q := hclose'
    have hparen' : b.code.isAt .leftParen (b.first + i + 1) := by
      rw [Nat.add_assoc, h.isAt_lt (by omega)]
      exact hparen
    have hend' : isTerminator b.code (b.code.groupEnd (b.first + i + 1)) := by
      rw [hclose', isTerminator, h.isAtAny_lt (by omega), ← hclose]
      exact hend
    have hdefine' : isDefineCall b.code (b.first + i) := by
      rw [isDefineCall, h.text i hi, hword, hparen', hend']
      rfl
    rw [if_pos hdefine', defineStatement_eq hend', hclose, hclose', Nat.add_assoc b.first,
      Nat.add_assoc b.first, h.isAt_lt (by omega), h.isAt_lt (by omega), h.text (i + 2) (by omega)]
    exact ⟨rfl, ⟨q + 1, by omega, rfl, rfl⟩, .define _, rfl, rfl⟩
  · rw [if_neg hdefine]
    intro herrors hle
    have hdefine' : ¬isDefineCall b.code (b.first + i) := by
      intro hdefine'
      simp only [isDefineCall, Bool.and_eq_true] at hdefine'
      obtain ⟨⟨hword, hparen⟩, hend⟩ := hdefine'
      obtain ⟨hin, hparen⟩ := h.of_isAt (i := i + 1) hopen hparen rfl
      have hparen : a.code.isAt .leftParen (a.first + i + 1) := hparen
      have hkind' := Code.isAt_iff.mp hparen
      -- The statement goes on after the brackets, so these end in the stretch.
      have hinside : a.code.groupEnd (a.first + i + 1) ≤ a.first + n := by
        have hgroup := h.ordered.1.groupEnd_reaches_succ (lt_size_of_isAt hparen)
        have hend : statementEnd a.code (a.first + i) (a.code.size + 1) (a.first + i) ≤ a.first + n := by
          rw [declaration_of_call hkind hkind'] at herrors hle
          exact statementEnd_le herrors hle
        obtain ⟨fuel, hfuel⟩ : ∃ fuel, a.code.size + 1 = fuel + 2 := ⟨a.code.size - 1, by omega⟩
        rw [hfuel, statementEnd_of_call hkind hkind'] at hend
        exact Nat.le_trans (statementEnd_reaches h.ordered.1 hgroup.2).1 hend
      obtain ⟨q, hq, -, -, hclose, hclose'⟩ :=
        h.groupEnd_eq (i := i + 1) (Nat.le_of_lt hin) hinside
      have hopenq := h.open_groupEnd (i := i + 1) hkind' (by decide) hq hclose
      have hclose : a.code.groupEnd (a.first + i + 1) = a.first + q := hclose
      have hclose' : b.code.groupEnd (b.first + i + 1) = b.first + q := hclose'
      rw [hclose'] at hend
      have hqn : q < n := by
        by_contra hge
        rw [isTerminator, h.isAtAny_end hopenq (by omega) (by decide)] at hend
        cases hend
      rw [isTerminator, h.isAtAny_lt hqn, ← isTerminator, ← hclose] at hend
      refine hdefine ?_
      rw [isDefineCall, ← h.text i hi, hword, hparen, hend]
      rfl
    rw [if_neg hdefine']
    exact declaration_tracks h hi herrors hle

end Defines

end Parser
end NamespaceMigration
