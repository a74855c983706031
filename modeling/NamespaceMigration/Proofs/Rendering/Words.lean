import NamespaceMigration.Proofs.Lexing.Lookahead
import NamespaceMigration.Proofs.Lexing.Joining
import NamespaceMigration.Proofs.Naming.LetterCase

/-! Words, signs and literals that are written one after the other are scanned one after the other. -/
namespace NamespaceMigration
namespace Lexer

theorem not_isSpace_of_isNameStart {c : Char} (h : isNameStart c) : isSpace c = false := by
  rcases hc : isSpace c with _ | _
  · rfl
  · simp only [isSpace, Bool.or_eq_true, beq_iff_eq] at hc
    rcases hc with ((rfl | rfl) | rfl) | rfl <;> cases h

theorem scanCode_name (last : Option TokenKind) {u r : Text} (hu : IsName u) (hr : nameLength r = 0) :
    scanCode last (u ++ r) = (nameKind last u, u.length) := by
  obtain ⟨c, u, rfl⟩ := List.exists_cons_of_ne_nil hu.ne_nil
  have hc : isNameStart c := by simpa using hu.1
  have hlen : nameLength (c :: (u ++ r)) = (c :: u).length := by
    rw [← List.cons_append, nameLength_append hu.2, hr, Nat.add_zero]
  rw [List.cons_append, scanCode, not_isSpace_of_isNameStart hc, if_neg (by simp), if_pos hc, hlen]
  dsimp only
  rw [← List.cons_append, List.take_left]

/-- A value that a directive may have: digits, or a string. -/
def isLiteral : Text → Bool
  | [] => false
  | c :: u =>
    (c :: u).all Char.isDigit ||
      ((c == '\x27' || c == '\x22') && quotedLength? c u == some u.length)

def literalKind (v : Text) : TokenKind := if v.head?.any Char.isDigit then .number else .string

/-- No blank and no start of a name is a digit. -/
theorem not_of_isDigit {c : Char} (h : c.isDigit) : isSpace c = false ∧ isNameStart c = false := by
  have hrange : 48 ≤ c.toNat ∧ c.toNat ≤ 57 := by
    rw [Char.isDigit, Bool.and_eq_true, decide_eq_true_iff, decide_eq_true_iff] at h
    exact h
  have hne (d : Char) (hd : d.isDigit = false) : c ≠ d := by
    rintro rfl
    rw [hd] at h
    cases h
  constructor
  · simp [isSpace, hne]
  · have halpha : c.isAlpha = false := by
      rw [← Bool.not_eq_true, isAlpha_iff]
      omega
    rw [isNameStart, halpha, beq_false_of_ne (hne '_' (by decide)), Bool.or_self, Bool.false_or,
      decide_eq_false_iff_not]
    omega

theorem numberLength_digits {c : Char} {u r : Text} (h : (c :: u).all Char.isDigit)
    (hr : r.head? = some ',' ∨ r.head? = some ')') :
    numberLength (c :: (u ++ r)) = (c :: u).length := by
  have hbased : basedLength? (u ++ r) = none := by
    cases u with
    | nil =>
      cases r with
      | nil => rfl
      | cons d r =>
        rcases hr with hr | hr
        all_goals
          obtain rfl : d = _ := Option.some.inj hr
          rfl
    | cons d u =>
      have hd : d.isDigit := (List.all_eq_true.mp h) d (by simp)
      have hx : d ≠ 'x' ∧ d ≠ 'X' ∧ d ≠ 'b' ∧ d ≠ 'B' := by
        refine ⟨?_, ?_, ?_, ?_⟩
        all_goals
          rintro rfl
          cases hd
      simp [basedLength?, hx]
  have hdecimal : decimalLength (c :: (u ++ r)) = (c :: u).length := by
    have hdigits : (c :: u).all isDigitOrBar := by
      simp only [List.all_eq_true, isDigitOrBar, Bool.or_eq_true] at h ⊢
      exact fun d hd => .inl (h d hd)
    have hrest : r.head?.any isDigitOrBar = false ∧ fractionLength r = 0 := by
      cases r with
      | nil => exact ⟨rfl, rfl⟩
      | cons d r =>
        rcases hr with hr | hr
        all_goals
          obtain rfl : d = _ := Option.some.inj hr
          exact ⟨rfl, rfl⟩
    rw [← List.cons_append, decimalLength_eq, runLength_append hdigits hrest.1, List.drop_left, hrest.2,
      Nat.add_zero]
  rw [numberLength_cons, hbased, Option.getD_none, hdecimal, ite_self]

/-- A literal is scanned whole before a comma and before the end of an argument list. -/
theorem scanCode_literal (last : Option TokenKind) {v r : Text} (hv : isLiteral v)
    (hr : r.head? = some ',' ∨ r.head? = some ')') :
    scanCode last (v ++ r) = (literalKind v, v.length) := by
  cases v with
  | nil => cases hv
  | cons c u =>
    rw [isLiteral, Bool.or_eq_true] at hv
    rw [List.cons_append, scanCode]
    by_cases hdigit : c.isDigit
    · have hall : (c :: u).all Char.isDigit := by
        refine hv.resolve_right fun hquoted => ?_
        simp only [Bool.and_eq_true, Bool.or_eq_true, beq_iff_eq] at hquoted
        rcases hquoted.1 with rfl | rfl <;> cases hdigit
      obtain ⟨hspace, hname⟩ := not_of_isDigit hdigit
      rw [hspace, hname, if_neg (by simp), if_neg (by simp), if_pos hdigit,
        numberLength_digits hall hr, literalKind, List.head?_cons, Option.any_some, if_pos hdigit]
    · have hquoted := hv.resolve_left (by simp [hdigit])
      simp only [Bool.and_eq_true, Bool.or_eq_true, beq_iff_eq] at hquoted
      obtain ⟨hquote, hclosed⟩ := hquoted
      have hclosed' : quotedLength? c (u ++ r) = some u.length := by
        have hempty : quotedLength? c (u ++ []) = some u.length := by rw [List.append_nil, hclosed]
        exact quotedLength?_append u hempty (Nat.le_refl _) r
      have hlead : isSpace c = false ∧ isNameStart c = false := by
        rcases hquote with rfl | rfl <;> exact ⟨rfl, rfl⟩
      have hany : c = '\x27' ∨ c = '\x22' ∨ c = '\x60' := hquote.imp id .inl
      rw [hlead.1, hlead.2, if_neg (by simp), if_neg (by simp), if_neg hdigit, if_pos hany, hclosed',
        literalKind, List.head?_cons, Option.any_some, if_neg hdigit, List.length_cons,
        Nat.add_comm u.length]

theorem scanCode_equals (last : Option TokenKind) {r : Text}
    (hr : r.head?.any (fun c => c == '=' || c == '>') = false) :
    scanCode last ('=' :: r) = (.equals, 1) := by
  cases r with
  | nil => rfl
  | cons c r =>
    obtain ⟨h1, h2⟩ : c ≠ '=' ∧ c ≠ '>' := by simpa using hr
    rw [scanCode]
    simp [symbols, Text.startsWith, List.isPrefixOf, beq_false_of_ne (Ne.symm h1),
      beq_false_of_ne (Ne.symm h2)]
    rfl

/-- A word of its own. -/
structure IsWordOf (u : Text) : Prop where
  name : IsName u
  single : '\\' ∉ u
  plain : Word.keywordKind? u = none

theorem IsWordOf.nameKind {u : Text} (h : IsWordOf u) (last : Option TokenKind) :
    nameKind last u = .ident := by
  rw [Lexer.nameKind, if_neg h.single, h.plain]
  split <;> rfl

def State.inside (last : Option TokenKind) : State := ⟨.code, last, false⟩

variable {last : Option TokenKind} {kind : TokenKind} {u : Text} {ps : List Piece}

theorem lexes_name {s : State} (hs : s.mode = .code) (hu : IsName u) (hkind : nameKind s.last u = kind)
    (hps : nameLength (Piece.print ps) = 0) (h : Lexes (s.next kind) ps) : Lexes s ((kind, u) :: ps) := by
  refine .cons hu.ne_nil ?_ h
  rw [State.scan_of_code hs, ← hkind]
  exact scanCode_name s.last hu hps

theorem lexes_space {s : State} (hs : s.mode = .code) (hps : (Piece.print ps).head?.any isSpace = false)
    (h : Lexes (s.next .whitespace) ps) : Lexes s ((.whitespace, [' ']) :: ps) := by
  refine .cons (by simp) ?_ h
  rw [State.scan_of_code hs, List.singleton_append, scanCode, if_pos (by decide), runLength_eq_zero_iff.mpr hps]
  rfl

theorem lexes_word (hu : IsName u) (hkind : nameKind last u = kind)
    (hnext : (State.inside last).next kind = .inside (some kind))
    (hps : nameLength (Piece.print ps) = 0) (h : Lexes (.inside (some kind)) ps) :
    Lexes (.inside last) ((kind, u) :: ps) :=
  lexes_name rfl hu hkind hps (hnext ▸ h)

theorem lexes_blank (hps : (Piece.print ps).head?.any isSpace = false) (h : Lexes (.inside last) ps) :
    Lexes (.inside last) ((.whitespace, [' ']) :: ps) :=
  lexes_space rfl hps h

theorem lexes_sign {c : Char} (hscan : scanCode last (c :: Piece.print ps) = (kind, 1))
    (hnext : (State.inside last).next kind = .inside (some kind))
    (h : Lexes (.inside (some kind)) ps) : Lexes (.inside last) ((kind, [c]) :: ps) :=
  .cons (by simp) hscan (hnext ▸ h)

theorem closed_of_lexes (h : Lexes .between (ps ++ [(.semicolon, [';'])]))
    (hvalid : ∀ p ∈ ps, p.1 ≠ .error ∧ p.1 ≠ .kwHaltCompiler) :
    Closed (ps ++ [(.semicolon, [';'])]) :=
  h.closed ⟨rfl, rfl, rfl⟩ rfl (fun p hp => (hvalid p hp).1) fun p hp => (hvalid p hp).2

end Lexer
end NamespaceMigration
