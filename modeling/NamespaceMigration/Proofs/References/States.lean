import NamespaceMigration.Proofs.References.Signatures
import NamespaceMigration.Proofs.References.Scanning

/-! What the scan remembers at a position. Balanced brackets leave the open ones as they were, so what a
signature opens is still open in all of its types. -/
namespace NamespaceMigration

open Piece (IsBalanced)
open BracketMatching (Balanced Completes completes_nil_iff completes_opening completes_closing)

namespace Window

variable {w : Window} {p : Nat} {piece : Piece} {ps qs : List Piece}

def pieces (w : Window) : List Piece := w.toList.map fun item => (item.2.kind, item.2.text)

/-- The pieces from a position on. -/
def Reads (w : Window) (p : Nat) (ps : List Piece) : Prop := ∀ i piece, ps[i]? = some piece →
  w.kind? (p + i) = some piece.1 ∧ w.text (p + i) = piece.2

theorem reads_of_pieces {before after : List Piece} (h : w.pieces = before ++ ps ++ after) :
    w.Reads before.length ps := by
  intro i piece hpiece
  have hlt : i < ps.length := (List.getElem?_eq_some_iff.mp hpiece).1
  have hat : w.pieces[before.length + i]? = some piece := by
    rw [h, List.append_assoc, List.getElem?_append_right (Nat.le_add_right _ _), Nat.add_sub_cancel_left,
      List.getElem?_append_left hlt, hpiece]
  rw [pieces, List.getElem?_map, Array.getElem?_toList] at hat
  obtain ⟨item, hitem, rfl⟩ := Option.map_eq_some_iff.mp hat
  exact ⟨by rw [kind?, hitem]; rfl, by rw [text, hitem]; rfl⟩

theorem reads_append : w.Reads p (ps ++ qs) ↔ w.Reads p ps ∧ w.Reads (p + ps.length) qs := by
  constructor
  · intro h
    refine ⟨fun i piece hpiece => h i piece ?_, fun i piece hpiece => ?_⟩
    · rw [List.getElem?_append_left (List.getElem?_eq_some_iff.mp hpiece).1, hpiece]
    · rw [Nat.add_assoc]
      refine h _ piece ?_
      rw [List.getElem?_append_right (Nat.le_add_right _ _), Nat.add_sub_cancel_left, hpiece]
  · rintro ⟨h, h'⟩ i piece hpiece
    rcases Nat.lt_or_ge i ps.length with hlt | hle
    · exact h i piece (List.getElem?_append_left hlt ▸ hpiece)
    · rw [List.getElem?_append_right hle] at hpiece
      have := h' _ piece hpiece
      rwa [Nat.add_assoc, Nat.add_sub_cancel' hle] at this

theorem reads_cons : w.Reads p (piece :: ps) ↔
    (w.kind? p = some piece.1 ∧ w.text p = piece.2) ∧ w.Reads (p + 1) ps := by
  rw [← List.singleton_append, reads_append, List.length_singleton]
  refine and_congr_left fun _ => ⟨fun h => h 0 piece rfl, fun h i q hq => ?_⟩
  obtain ⟨rfl, rfl⟩ : i = 0 ∧ piece = q := by
    cases i with
    | zero => exact ⟨rfl, Option.some.inj hq⟩
    | succ i => cases hq
  exact h

theorem Reads.kind? (h : w.Reads p (piece :: ps)) : w.kind? p = some piece.1 := (reads_cons.mp h).1.1

theorem Reads.back? (h : w.Reads p (ps ++ [piece])) : w.back? (p + ps.length + 1) 1 = some piece.1 :=
  (reads_append.mp h).2.kind?

variable (w) (inImport : Nat → Bool)

/-- What the scan remembers before a position. -/
def stateAt : Nat → ScanState
  | 0 => .initial
  | p + 1 =>
    match w[p]? with
    | none => stateAt p
    | some (index, token) =>
      if token.kind.isName then stateAt p else (stateAt p).next w (inImport index) p token.kind

variable {w} {kind : TokenKind}

theorem stateAt_succ_of_isName (hkind : w.kind? p = some kind) (hname : kind.isName) :
    w.stateAt inImport (p + 1) = w.stateAt inImport p := by
  obtain ⟨⟨index, token⟩, hitem, rfl⟩ := Option.map_eq_some_iff.mp hkind
  rw [stateAt, hitem]
  exact if_pos hname

theorem stateAt_succ (hkind : w.kind? p = some kind) (hname : kind.isName = false) :
    ∃ imported, w.stateAt inImport (p + 1) = (w.stateAt inImport p).next w imported p kind := by
  obtain ⟨⟨index, token⟩, hitem, rfl⟩ := Option.map_eq_some_iff.mp hkind
  refine ⟨inImport index, ?_⟩
  rw [stateAt, hitem]
  exact if_neg (by rw [hname]; exact Bool.false_ne_true)

end Window

/-- A name that the scan classifies is one of the references that it finds. -/
theorem SourceFile.mem_referencesAt {w : Window} {inImport : Nat → Bool} {p index : Nat} {token : Token}
    {kind : SymbolKind} (hitem : w[p]? = some (index, token)) (hname : token.kind.isName)
    (himport : inImport index = false) (hfound : w.classify? (w.stateAt inImport p) p = some kind) :
    ⟨index, kind, token.text⟩ ∈ referencesAt w inImport .initial (List.range w.size) := by
  have hp : p < w.size := (Array.getElem?_eq_some_iff.mp hitem).1
  -- The scan at `q` has what is remembered there, and `p` is still to come.
  have hscan (n q : Nat) (hq : q + n = w.size) (hle : q ≤ p) : ⟨index, kind, token.text⟩ ∈
      referencesAt w inImport (w.stateAt inImport q) (List.range' q n) := by
    induction n generalizing q with
    | zero => omega
    | succ n ih =>
      rw [List.range'_succ, referencesAt]
      rcases Nat.eq_or_lt_of_le hle with rfl | hlt
      · rw [hitem]
        dsimp only
        rw [if_pos hname, himport, if_neg Bool.false_ne_true, hfound]
        exact List.mem_cons_self
      · obtain ⟨⟨index', token'⟩, hitem'⟩ : ∃ item, w[q]? = some item :=
          ⟨_, Array.getElem?_eq_getElem (Nat.lt_trans hlt hp)⟩
        have hrest := ih (q + 1) (by omega) hlt
        have hnext : w.stateAt inImport (q + 1) = if token'.kind.isName then w.stateAt inImport q
            else (w.stateAt inImport q).next w (inImport index') q token'.kind := by
          rw [Window.stateAt, hitem']
        rw [hnext] at hrest
        rw [hitem']
        dsimp only
        split_ifs at hrest with hname'
        · rw [if_pos hname']
          split
          · exact List.mem_cons_of_mem _ hrest
          · exact hrest
        · rw [if_neg hname']
          exact hrest
  rw [List.range_eq_range']
  exact hscan w.size 0 (Nat.zero_add _) (Nat.zero_le p)

namespace ScanState

variable (s : ScanState) (w : Window) (imported : Bool) (p : Nat)

theorem next_opening {kind : TokenKind} (h : kind.isOpeningBracket) :
    ∃ role, (s.next w imported p kind).stack = role :: s.stack := by
  cases kind <;> first | exact ⟨_, rfl⟩ | cases h

theorem next_closing {kind : TokenKind} (h : kind.isClosingBracket) :
    (s.next w imported p kind).stack = s.stack.tail := by
  cases kind <;> first | rfl | cases h

theorem next_plain {kind : TokenKind} (h : kind.isBracket = false) :
    (s.next w imported p kind).stack = s.stack := by
  cases kind <;> first | rfl | (cases h; done) | (simp only [next]; split <;> rfl)

theorem next_resultType {kind : TokenKind} (h : kind ≠ .colon) :
    (s.next w imported p kind).resultType = (s.resultType && continuesResultType kind) := by
  cases kind <;> first | rfl | exact absurd rfl h | (simp only [next]; split <;> rfl)

end ScanState

namespace Window

variable {w : Window} (inImport : Nat → Bool) {p : Nat} {piece : Piece} {ps : List Piece}

theorem stack_plain {kind : TokenKind} (hkind : w.kind? p = some kind) (hplain : kind.isBracket = false) :
    (w.stateAt inImport (p + 1)).stack = (w.stateAt inImport p).stack := by
  by_cases hname : kind.isName
  · rw [stateAt_succ_of_isName inImport hkind hname]
  · obtain ⟨imported, hnext⟩ := stateAt_succ inImport hkind (by simpa using hname)
    rw [hnext, ScanState.next_plain _ _ _ _ hplain]

theorem isName_of_bracket {kind : TokenKind} (h : kind.isBracket) : kind.isName = false := by
  rw [Bool.eq_false_iff]
  intro hname
  rw [TokenKind.isBracket_of_isName hname] at h
  cases h

theorem stack_opening {kind : TokenKind} (hkind : w.kind? p = some kind) (hopening : kind.isOpeningBracket) :
    ∃ role, (w.stateAt inImport (p + 1)).stack = role :: (w.stateAt inImport p).stack := by
  obtain ⟨imported, hnext⟩ := stateAt_succ inImport hkind
    (isName_of_bracket (TokenKind.isBracket_of_opening hopening))
  rw [hnext]
  exact ScanState.next_opening _ _ _ _ hopening

theorem stack_closing {kind : TokenKind} (hkind : w.kind? p = some kind) (hclosing : kind.isClosingBracket) :
    (w.stateAt inImport (p + 1)).stack = (w.stateAt inImport p).stack.tail := by
  obtain ⟨imported, hnext⟩ := stateAt_succ inImport hkind
    (isName_of_bracket (TokenKind.isBracket_of_closing hclosing))
  rw [hnext, ScanState.next_closing _ _ _ _ hclosing]

/-- Pieces that close some open brackets, and are balanced otherwise, open and close others inside and leave
the ones outside open. -/
theorem stack_inside {P : BracketRole → Prop} (inner : List BracketRole) {outer : List BracketRole} {opened : List TokenKind}
    (hlength : inner.length = opened.length) (hreads : w.Reads p ps)
    (hstack : (w.stateAt inImport p).stack = inner ++ outer) (hinner : ∀ role ∈ inner, P role)
    (hopens : ∀ i piece, ps[i]? = some piece → piece.1.isOpeningBracket → ∃ role, P role ∧
      (w.stateAt inImport (p + i + 1)).stack = role :: (w.stateAt inImport (p + i)).stack)
    (h : Completes opened ((ps.map (·.1)).filter TokenKind.isBracket)) {j : Nat} (hj : j ≤ ps.length) :
    ∃ inside, (∀ role ∈ inside, P role) ∧ (j = ps.length → inside = []) ∧
      (w.stateAt inImport (p + j)).stack = inside ++ outer := by
  induction ps generalizing p inner opened j with
  | nil =>
    obtain rfl := Nat.le_zero.mp hj
    obtain rfl := (completes_nil_iff _).mp h
    exact ⟨inner, hinner, fun _ => List.length_eq_zero_iff.mp hlength, hstack⟩
  | cons piece ps ih =>
    cases j with
    | zero => exact ⟨inner, hinner, fun h => absurd h.symm (Nat.succ_ne_zero _), hstack⟩
    | succ j =>
      obtain ⟨⟨hkind, -⟩, hrest⟩ := reads_cons.mp hreads
      have hlater : ∀ i piece, ps[i]? = some piece → piece.1.isOpeningBracket → ∃ role, P role ∧
          (w.stateAt inImport (p + 1 + i + 1)).stack = role :: (w.stateAt inImport (p + 1 + i)).stack := by
        intro i piece hpiece hopening
        have := hopens (i + 1) piece hpiece hopening
        rwa [Nat.add_comm i 1, ← Nat.add_assoc] at this
      -- What holds of the rest from the next position on holds of the whole.
      have hnext (inner : List BracketRole) {opened : List TokenKind} (hlength : inner.length = opened.length)
          (hstack : (w.stateAt inImport (p + 1)).stack = inner ++ outer) (hinner : ∀ role ∈ inner, P role)
          (h : Completes opened ((ps.map (·.1)).filter TokenKind.isBracket)) :
          ∃ inside, (∀ role ∈ inside, P role) ∧ (j + 1 = (piece :: ps).length → inside = []) ∧
            (w.stateAt inImport (p + (j + 1))).stack = inside ++ outer := by
        obtain ⟨inside, hinside, hend, heq⟩ := ih inner hlength hrest hstack hinner hlater h (Nat.le_of_succ_le_succ hj)
        rw [Nat.add_comm j 1, ← Nat.add_assoc]
        exact ⟨inside, hinside, fun hlast => hend (by rw [List.length_cons] at hlast; omega), heq⟩
      rw [List.map_cons] at h
      by_cases hopening : piece.1.isOpeningBracket
      · rw [List.filter_cons_of_pos (TokenKind.isBracket_of_opening hopening)] at h
        obtain ⟨role, hrole, hopened⟩ := hopens 0 piece rfl hopening
        exact hnext (role :: inner) (by rw [List.length_cons, hlength, List.length_cons])
          (hopened.trans (congrArg (role :: ·) hstack)) (List.forall_mem_cons.mpr ⟨hrole, hinner⟩)
          ((completes_opening hopening _ _).mpr h)
      by_cases hclosing : piece.1.isClosingBracket
      · rw [List.filter_cons_of_pos (TokenKind.isBracket_of_closing hclosing), completes_closing hclosing] at h
        obtain ⟨opening, opened, rfl, -, hcompletes⟩ := h
        obtain ⟨role, inner, rfl⟩ := List.exists_cons_of_length_eq_add_one hlength
        have hclosed := stack_closing inImport hkind hclosing
        rw [hstack] at hclosed
        exact hnext inner (Nat.succ.inj hlength) hclosed (List.forall_mem_cons.mp hinner).2 hcompletes
      · have hplain : piece.1.isBracket = false := by
          rw [TokenKind.isBracket, Bool.eq_false_iff.mpr hopening, Bool.eq_false_iff.mpr hclosing]
          rfl
        rw [List.filter_cons_of_neg (by rw [hplain]; exact Bool.false_ne_true)] at h
        exact hnext inner hlength ((stack_plain inImport hkind hplain).trans hstack) hinner h

theorem stack_balanced (hreads : w.Reads p ps) (h : IsBalanced ps) :
    (w.stateAt inImport (p + ps.length)).stack = (w.stateAt inImport p).stack := by
  have hopens : ∀ i piece, ps[i]? = some piece → piece.1.isOpeningBracket → ∃ role, True ∧
      (w.stateAt inImport (p + i + 1)).stack = role :: (w.stateAt inImport (p + i)).stack := by
    intro i piece hpiece hopening
    obtain ⟨role, hopened⟩ := stack_opening inImport (hreads i piece hpiece).1 hopening
    exact ⟨role, trivial, hopened⟩
  obtain ⟨inside, -, hend, hstack⟩ := stack_inside inImport [] rfl hreads rfl (List.forall_mem_nil _) hopens
    (show Completes [] _ from h) (Nat.le_refl _)
  rw [hstack, hend rfl, List.nil_append]

theorem resultType_succ {kind : TokenKind} (hkind : w.kind? p = some kind) (hcolon : kind ≠ .colon) :
    (w.stateAt inImport (p + 1)).resultType = ((w.stateAt inImport p).resultType &&
      (kind.isName || ScanState.continuesResultType kind)) := by
  by_cases hname : kind.isName
  · rw [stateAt_succ_of_isName inImport hkind hname, hname, Bool.true_or, Bool.and_true]
  · have hname : kind.isName = false := by simpa using hname
    obtain ⟨imported, hnext⟩ := stateAt_succ inImport hkind hname
    rw [hnext, ScanState.next_resultType _ _ _ _ hcolon, hname, Bool.false_or]

theorem resultType_ended {kind : TokenKind} (hkind : w.kind? p = some kind) (hcolon : kind ≠ .colon)
    (hends : (kind.isName || ScanState.continuesResultType kind) = false) :
    (w.stateAt inImport (p + 1)).resultType = false := by
  rw [resultType_succ inImport hkind hcolon, hends, Bool.and_false]

theorem resultType_run (hreads : w.Reads p ps)
    (hall : ∀ q ∈ ps, q.1 ≠ .colon ∧ (q.1.isName || ScanState.continuesResultType q.1)) :
    (w.stateAt inImport (p + ps.length)).resultType = (w.stateAt inImport p).resultType := by
  induction ps generalizing p with
  | nil => rfl
  | cons piece ps ih =>
    obtain ⟨⟨hkind, -⟩, hrest⟩ := reads_cons.mp hreads
    rw [List.forall_mem_cons] at hall
    rw [List.length_cons, Nat.add_comm ps.length, ← Nat.add_assoc, ih hrest hall.2,
      resultType_succ inImport hkind hall.1.1, hall.1.2, Bool.and_true]

theorem resultType_colon (hclosing : w.kind? p = some .rightParen) (hcolon : w.kind? (p + 1) = some .colon)
    (hstack : (w.stateAt inImport p).stack.head? = some .parameters) :
    (w.stateAt inImport (p + 2)).resultType := by
  obtain ⟨imported, hnext⟩ := stateAt_succ inImport hclosing rfl
  obtain ⟨imported', hnext'⟩ := stateAt_succ inImport hcolon rfl
  have hpending : (w.stateAt inImport (p + 1)).resultTypeNext := by
    rw [hnext]
    simp [ScanState.next, hstack, isAt, hcolon]
  rw [hnext']
  simp [ScanState.next, hpending]

theorem stack_parameters (hopening : w.kind? p = some .leftParen) (hopens : w.opensParameters p)
    (hresult : (w.stateAt inImport p).resultType = false) :
    (w.stateAt inImport (p + 1)).stack = .parameters :: (w.stateAt inImport p).stack := by
  obtain ⟨imported, hnext⟩ := stateAt_succ inImport hopening rfl
  rw [hnext]
  simp [ScanState.next, parenRole, hresult, hopens]

end Window
end NamespaceMigration
