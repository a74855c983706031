import NamespaceMigration.Proofs.Lexing.Joining
import NamespaceMigration.Proofs.Statements.Brackets
import NamespaceMigration.Proofs.Statements.Progress

/-! A stretch of code at two places. Its tokens, its bracket groups and the comments in it are the same
at both, whatever stands around it there. -/
namespace NamespaceMigration

namespace TokenKind

/-- The kinds of the words that go on with a statement after its closing brace. -/
def isContinuation : TokenKind → Bool
  | kwElse | kwElseif | kwCatch | kwFinally => true
  | _ => false

/-- The kinds of the words that begin what stands directly in a scope, or a scope. -/
def isHead : TokenKind → Bool
  | kwUse | kwNamespace => true
  | _ => false

theorem not_closing_of_isHead {kind : TokenKind} (h : kind.isHead) :
    ¬(kind.isClosingBracket ∨ kind = .inlineHtml) := by
  cases kind <;> simp_all [isHead, isClosingBracket]

end TokenKind

namespace Code

theorem kind?_past {c : Code} {p : Nat} (h : c.size ≤ p) : c.kind? p = none := by
  cases hkind : c.kind? p with
  | none => rfl
  | some kind => exact absurd (lt_size_of_kind? hkind) (Nat.not_lt_of_le h)

theorem Ordered.add_two_le_groupEnd {c : Code} (ho : c.Ordered) {p : Nat}
    (hend : c.groupEnd p < c.size) : p + 2 ≤ c.groupEnd p := by
  rw [groupEnd] at hend ⊢
  cases hclose : c.matching.closer? p with
  | none =>
    rw [hclose] at hend
    exact absurd hend (Nat.lt_irrefl _)
  | some close => exact Nat.succ_le_succ (ho.group p close hclose).1

theorem Ordered.lt_groupEnd_iff {c : Code} (ho : c.Ordered) {p q : Nat} (hq : q < c.size) :
    q < c.groupEnd p ↔ ∀ r, r < q → c.matching.closer? p ≠ some r := by
  rw [groupEnd]
  cases hclose : c.matching.closer? p with
  | none => simpa using hq
  | some close =>
    have := ho.group p close hclose
    simp only [ne_eq, Option.some.injEq]
    constructor
    · intro hle r hr hclose
      omega
    · intro hopen
      by_contra hlt
      exact hopen close (by omega) rfl

end Code

/-- A place in code: a position, and an index to count tokens from. -/
structure Code.Place where
  code : Code
  first : Nat
  token : Nat

/-- The next `n` tokens are the same at two places. -/
structure Abreast (a b : Code.Place) (n : Nat) : Prop where
  le_left : a.first + n ≤ a.code.size
  le_right : b.first + n ≤ b.code.size
  kind : ∀ i, i < n → b.code.kind? (b.first + i) = a.code.kind? (a.first + i)
  text : ∀ i, i < n → b.code.text (b.first + i) = a.code.text (a.first + i)
  index : ∀ i, i < n → ∃ m, a.code.tokenIndex (a.first + i) = a.token + m ∧
    b.code.tokenIndex (b.first + i) = b.token + m

namespace Abreast

variable {a b : Code.Place} {n i : Nat} (h : Abreast a b n)
include h

theorem lt_size (hi : i < n) : a.first + i < a.code.size := by
  have := h.le_left
  omega

theorem exists_kind (hi : i < n) : ∃ kind, a.code.kind? (a.first + i) = some kind := by
  obtain ⟨item, hitem⟩ := Code.exists_item (h.lt_size hi)
  exact ⟨item.2.kind, by rw [Code.kind?, hitem]; rfl⟩

theorem isAt_lt {kind : TokenKind} (hi : i < n) :
    b.code.isAt kind (b.first + i) = a.code.isAt kind (a.first + i) := by
  rw [Code.isAt, Code.isAt, h.kind i hi]

theorem isAtAny_lt {kinds : List TokenKind} (hi : i < n) :
    b.code.isAtAny kinds (b.first + i) = a.code.isAtAny kinds (a.first + i) := by
  rw [Code.isAtAny, Code.isAtAny, h.kind i hi]

theorem atEnd_lt (hi : i < n) : b.code.atEnd (b.first + i) = false := by
  have := h.le_right
  rw [Code.atEnd, decide_eq_false_iff_not]
  omega

end Abreast

/-- The same word comes next at two places, and it begins what stands directly in a scope. -/
def SameHead (a b : Code.Place) (n : Nat) : Prop :=
  ∃ kind, kind.isHead ∧ a.code.kind? (a.first + n) = some kind ∧ b.code.kind? (b.first + n) = some kind

/-- The next `n` tokens, their brackets and the comments before them are the same at two places. -/
structure Parallel (a b : Code.Place) (n : Nat) : Prop extends Abreast a b n where
  ordered : a.code.Ordered ∧ b.code.Ordered
  doc : ∀ i, i < n → ∃ m? : Option Nat,
    a.code.leadingDoc? (a.code.tokenIndex (a.first + i)) = m?.map (a.token + ·) ∧
      b.code.leadingDoc? (b.code.tokenIndex (b.first + i)) = m?.map (b.token + ·)
  group : ∀ i j, i < n → j < n → (a.code.matching.closer? (a.first + i) = some (a.first + j) ↔
    b.code.matching.closer? (b.first + i) = some (b.first + j))
  closes : ∀ p q, a.code.matching.closer? p = some q → ∃ opening closing,
    a.code.kind? p = some opening ∧ a.code.kind? q = some closing ∧
      BracketMatching.closes opening closing

/-- A stretch of code at two places. At the second one it ends the code, or it ends a statement that nothing
goes on with, or something else begins at both. -/
structure Alongside (a b : Code.Place) (n : Nat) : Prop extends Parallel a b n where
  ends : b.code.size = b.first + n ∨
    ((∀ i, i + 1 = n → ∃ kind, a.code.kind? (a.first + i) = some kind ∧ kind.isStop) ∧
      a.code.kind? (a.first + n) = some .semicolon ∧
      ∀ kind, b.code.kind? (b.first + n) = some kind → kind.isContinuation = false) ∨ SameHead a b n

theorem Parallel.mono {a b : Code.Place} {m n : Nat} (h : Parallel a b n) (hm : m ≤ n) : Parallel a b m where
  le_left := Nat.le_trans (Nat.add_le_add_left hm _) h.le_left
  le_right := Nat.le_trans (Nat.add_le_add_left hm _) h.le_right
  kind i hi := h.kind i (Nat.lt_of_lt_of_le hi hm)
  text i hi := h.text i (Nat.lt_of_lt_of_le hi hm)
  index i hi := h.index i (Nat.lt_of_lt_of_le hi hm)
  ordered := h.ordered
  doc i hi := h.doc i (Nat.lt_of_lt_of_le hi hm)
  group i j hi hj := h.group i j (Nat.lt_of_lt_of_le hi hm) (Nat.lt_of_lt_of_le hj hm)
  closes := h.closes

namespace Alongside

variable {a b : Code.Place} {n i : Nat}

/-- The parser may look at a position: it is in the stretch, or nothing comes after the stretch, or the same
word does. -/
def Open (_ : Alongside a b n) (i : Nat) : Prop :=
  i < n ∨ b.code.size = b.first + n ∨ i ≤ n ∧ SameHead a b n

variable (h : Alongside a b n)
include h

theorem open_succ {kind : TokenKind} (hi : i < n) (hkind : a.code.kind? (a.first + i) = some kind)
    (hstop : kind.isStop = false) : h.Open (i + 1) := by
  rcases h.ends with hend | ⟨hlast, -, -⟩ | hhead
  · exact .inr (.inl hend)
  · refine .inl (Nat.lt_of_le_of_ne hi fun heq => ?_)
    obtain ⟨kind', hkind', hstop'⟩ := hlast i heq
    rw [hkind, Option.some.injEq] at hkind'
    rw [← hkind', hstop] at hstop'
    cases hstop'
  · exact .inr (.inr ⟨hi, hhead⟩)

theorem kind?_end (ho : h.Open i) (hi : n ≤ i) : b.code.kind? (b.first + i) = none ∨
    i = n ∧ ∃ kind, kind.isHead ∧ a.code.kind? (a.first + i) = some kind ∧ b.code.kind? (b.first + i) = some kind := by
  rcases ho with hlt | hsize | ⟨hle, hhead⟩
  · exact absurd hlt (Nat.not_lt_of_le hi)
  · exact .inl (Code.kind?_past (by omega))
  · obtain rfl : i = n := Nat.le_antisymm hle hi
    exact .inr ⟨rfl, hhead⟩

theorem isAt_end {kind : TokenKind} (ho : h.Open i) (hi : n ≤ i) (hkind : kind.isHead = false) :
    b.code.isAt kind (b.first + i) = false := by
  rw [Code.isAt]
  rcases h.kind?_end ho hi with hnone | ⟨-, head, hhead, -, hsome⟩
  · rw [hnone]
    rfl
  · rw [hsome, Bool.eq_false_iff]
    intro heq
    rw [← Option.some.inj (beq_iff_eq.mp heq), hhead] at hkind
    cases hkind

theorem isAtAny_end {kinds : List TokenKind} (ho : h.Open i) (hi : n ≤ i)
    (hkinds : ∀ kind ∈ kinds, kind.isHead = false) : b.code.isAtAny kinds (b.first + i) = false := by
  rw [Bool.eq_false_iff]
  intro hat
  obtain ⟨kind, hmem, hkind⟩ := Code.exists_kind_of_isAtAny hat
  have hnot := h.isAt_end ho hi (hkinds kind hmem)
  rw [Code.isAt_iff.mpr hkind] at hnot
  cases hnot

theorem of_isAt {kind : TokenKind} (ho : h.Open i) (hat : b.code.isAt kind (b.first + i))
    (hkind : kind.isHead = false) : i < n ∧ a.code.isAt kind (a.first + i) := by
  rcases Nat.lt_or_ge i n with hi | hi
  · exact ⟨hi, h.isAt_lt hi ▸ hat⟩
  · rw [h.isAt_end ho hi hkind] at hat
    cases hat

theorem open_of_isAt {kind : TokenKind} (hi : i < n) (hat : a.code.isAt kind (a.first + i))
    (hstop : kind.isStop = false) : h.Open (i + 1) :=
  h.open_succ hi (Code.isAt_iff.mp hat) hstop

theorem kind?_open (ho : h.Open i) :
    b.code.kind? (b.first + i) = a.code.kind? (a.first + i) ∨ n ≤ i ∧ b.code.kind? (b.first + i) = none := by
  rcases Nat.lt_or_ge i n with hi | hi
  · exact .inl (h.kind i hi)
  · rcases h.kind?_end ho hi with hnone | ⟨-, _, -, hsome, hsome'⟩
    · exact .inr ⟨hi, hnone⟩
    · exact .inl (hsome'.trans hsome.symm)

theorem isAt_eq {kind : TokenKind} (ho : h.Open i)
    (hlt : a.code.isAt kind (a.first + i) → i < n) :
    b.code.isAt kind (b.first + i) = a.code.isAt kind (a.first + i) := by
  rcases h.kind?_open ho with hsame | ⟨hi, hnone⟩
  · rw [Code.isAt, Code.isAt, hsame]
  · rw [Code.isAt, hnone]
    exact (Bool.eq_false_iff.mpr fun hat => absurd (hlt hat) (Nat.not_lt_of_le hi)).symm

theorem isAtAny_eq {kinds : List TokenKind} (ho : h.Open i)
    (hlt : a.code.isAtAny kinds (a.first + i) → i < n) :
    b.code.isAtAny kinds (b.first + i) = a.code.isAtAny kinds (a.first + i) := by
  rcases h.kind?_open ho with hsame | ⟨hi, hnone⟩
  · rw [Code.isAtAny, Code.isAtAny, hsame]
  · rw [Code.isAtAny, hnone]
    exact (Bool.eq_false_iff.mpr fun hat => absurd (hlt hat) (Nat.not_lt_of_le hi)).symm

theorem size_of_atEnd (hi : i ≤ n) (hend : a.code.atEnd (a.first + i)) :
    i = n ∧ b.code.size = b.first + n := by
  have hleft := h.le_left
  have hsize : a.code.size ≤ a.first + i := by simpa [Code.atEnd] using hend
  refine ⟨by omega, h.ends.resolve_right fun hend => ?_⟩
  obtain ⟨kind, hkind⟩ : ∃ kind, a.code.kind? (a.first + n) = some kind := by
    rcases hend with ⟨-, hsemicolon, -⟩ | ⟨kind, -, hkind, -⟩
    · exact ⟨_, hsemicolon⟩
    · exact ⟨_, hkind⟩
  have := Code.lt_size_of_kind? hkind
  omega

theorem isAt_continuation {kind : TokenKind} (hkind : kind.isContinuation) (hi : i ≤ n)
    (hlt : a.code.isAt kind (a.first + i) → i < n) :
    b.code.isAt kind (b.first + i) = a.code.isAt kind (a.first + i) := by
  rcases h.ends with hsize | ⟨-, -, hnext⟩ | hhead
  · exact h.isAt_eq (.inr (.inl hsize)) hlt
  · rcases Nat.lt_or_ge i n with hin | hin
    · exact h.isAt_lt hin
    · obtain rfl : i = n := Nat.le_antisymm hi hin
      have ha : a.code.isAt kind (a.first + i) = false :=
        Bool.eq_false_iff.mpr fun hat => Nat.lt_irrefl _ (hlt hat)
      rw [ha, Bool.eq_false_iff]
      intro hat
      rw [hnext kind (Code.isAt_iff.mp hat)] at hkind
      cases hkind
  · exact h.isAt_eq (.inr (.inr ⟨hi, hhead⟩)) hlt

theorem skip_eq (kind : TokenKind) (ho : h.Open i) (hi : i ≤ n)
    (hlt : a.code.isAt kind (a.first + i) → i < n) :
    ∃ q, i ≤ q ∧ q ≤ n ∧ a.code.skip kind (a.first + i) = a.first + q ∧
      b.code.skip kind (b.first + i) = b.first + q ∧ (kind.isStop = false → h.Open q) := by
  rw [Code.skip, Code.skip, h.isAt_eq ho hlt]
  by_cases hat : a.code.isAt kind (a.first + i)
  · rw [if_pos hat, if_pos hat]
    exact ⟨i + 1, Nat.le_succ i, hlt hat, rfl, rfl, h.open_of_isAt (hlt hat) hat⟩
  · rw [if_neg hat, if_neg hat]
    exact ⟨i, Nat.le_refl i, hi, rfl, rfl, fun _ => ho⟩

/-- A group that ends in the stretch ends there at both places. -/
theorem groupEnd_eq (hi : i ≤ n) (hle : a.code.groupEnd (a.first + i) ≤ a.first + n) :
    ∃ q, q ≤ n ∧ (i < n → i < q) ∧ i ≤ q ∧ a.code.groupEnd (a.first + i) = a.first + q ∧
      b.code.groupEnd (b.first + i) = b.first + q := by
  have hleft := h.le_left
  rw [Code.groupEnd] at hle
  rw [Code.groupEnd, Code.groupEnd]
  cases hclose : a.code.matching.closer? (a.first + i) with
  | some close =>
    rw [hclose] at hle
    obtain ⟨hlt, hsize⟩ := h.ordered.1.group _ _ hclose
    dsimp only at hle ⊢
    obtain ⟨j, rfl⟩ : ∃ j, close = a.first + j := ⟨close - a.first, by omega⟩
    rw [(h.group i j (by omega) (by omega)).mp hclose]
    exact ⟨j + 1, by omega, by omega, by omega, rfl, rfl⟩
  | none =>
    rw [hclose] at hle
    dsimp only at hle ⊢
    -- The first code ends with the stretch, so the second one does.
    have hsize : a.code.size = a.first + n := by omega
    have hend : b.code.size = b.first + n :=
      (h.size_of_atEnd (Nat.le_refl n) (decide_eq_true (Nat.le_of_eq hsize))).2
    cases hclose' : b.code.matching.closer? (b.first + i) with
    | none => exact ⟨n, Nat.le_refl n, id, hi, hsize, hend⟩
    | some close =>
      obtain ⟨hlt, hsize'⟩ := h.ordered.2.group _ _ hclose'
      obtain ⟨j, rfl⟩ : ∃ j, close = b.first + j := ⟨close - b.first, by omega⟩
      rw [(h.group i j (by omega) (by omega)).mpr hclose'] at hclose
      cases hclose

/-- After a group without braces the parser may go on. -/
theorem open_groupEnd {q : Nat} {kind : TokenKind}
    (hkind : a.code.kind? (a.first + i) = some kind) (hbrace : kind ≠ .leftBrace)
    (hq : q ≤ n) (hend : a.code.groupEnd (a.first + i) = a.first + q) : h.Open q := by
  rcases h.ends with hsize | ⟨hlast, hsemicolon, -⟩ | hhead
  · exact .inr (.inl hsize)
  swap
  · exact .inr (.inr ⟨hq, hhead⟩)
  refine .inl (Nat.lt_of_le_of_ne hq ?_)
  rintro rfl
  rw [Code.groupEnd] at hend
  cases hclose : a.code.matching.closer? (a.first + i) with
  | none =>
    rw [hclose] at hend
    have := Code.lt_size_of_kind? hsemicolon
    dsimp only at hend
    omega
  | some close =>
    rw [hclose] at hend
    obtain ⟨hlt, -⟩ := h.ordered.1.group _ _ hclose
    obtain ⟨opening, closing, hopening, hclosing, hcloses⟩ := h.closes _ _ hclose
    rw [hkind, Option.some.injEq] at hopening
    subst hopening
    dsimp only at hend
    obtain ⟨j, rfl⟩ : ∃ j, q = j + 1 := ⟨q - 1, by omega⟩
    obtain ⟨last, hlastkind, hstop⟩ := hlast j rfl
    have hclose_eq : close = a.first + j := by omega
    rw [hclose_eq, hlastkind, Option.some.injEq] at hclosing
    subst hclosing
    have hcloser : kind.closer? = some last := by simpa [BracketMatching.closes] using hcloses
    cases kind <;> cases hcloser <;> first | exact hbrace rfl | cases hstop

theorem lt_groupEnd_iff {j : Nat} (hij : i ≤ j) (hj : j < n) :
    a.first + j < a.code.groupEnd (a.first + i) ↔ b.first + j < b.code.groupEnd (b.first + i) := by
  have hleft := h.le_left
  have hright := h.le_right
  rw [h.ordered.1.lt_groupEnd_iff (by omega), h.ordered.2.lt_groupEnd_iff (by omega)]
  constructor
  · intro hopen r hr hclose
    have := (h.ordered.2.group _ _ hclose).1
    obtain ⟨k, rfl⟩ : ∃ k, r = b.first + k := ⟨r - b.first, by omega⟩
    exact hopen (a.first + k) (by omega) ((h.group i k (by omega) (by omega)).mpr hclose)
  · intro hopen r hr hclose
    have := (h.ordered.1.group _ _ hclose).1
    obtain ⟨k, rfl⟩ : ∃ k, r = a.first + k := ⟨r - a.first, by omega⟩
    exact hopen (b.first + k) (by omega) ((h.group i k (by omega) (by omega)).mp hclose)

end Alongside
end NamespaceMigration
