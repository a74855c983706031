import Mathlib.Data.List.Basic
import NamespaceMigration.Name.Qualified

/-! Small letters of texts that differ in the case of ASCII letters only, and of texts that end in a
number. -/
namespace NamespaceMigration

theorem inRanges_eq_false {ranges : List (Nat × Nat)} (h : ∀ r ∈ ranges, 0x80 ≤ r.1) {n : Nat}
    (hn : n < 0x80) : inRanges ranges n = false := by
  simp only [inRanges, List.any_eq_false, Bool.and_eq_true, decide_eq_true_eq, not_and]
  intro r hr hle
  have := h r hr
  omega

theorem caseIgnorableRanges_above : ∀ r ∈ caseIgnorableRanges, 0x80 ≤ r.1 := by decide +kernel

theorem isAlpha_iff {c : Char} :
    c.isAlpha ↔ (65 ≤ c.toNat ∧ c.toNat ≤ 90) ∨ (97 ≤ c.toNat ∧ c.toNat ≤ 122) := by
  change (decide (65 ≤ c.toNat ∧ c.toNat ≤ 90) ||
    (decide (97 ≤ c.toNat) && decide (c.toNat ≤ 122))) = true ↔ _
  simp only [Bool.or_eq_true, Bool.and_eq_true, decide_eq_true_eq]

theorem toNat_toLower (c : Char) :
    c.toLower.toNat = if 65 ≤ c.toNat ∧ c.toNat ≤ 90 then c.toNat + 32 else c.toNat := by
  unfold Char.toLower
  split <;> rename_i h
  · have h1 : 65 ≤ c.toNat := h.1
    have h2 : c.toNat ≤ 90 := h.2
    rw [if_pos ⟨h1, h2⟩]
    change (c.val + 32).toNat = _
    rw [UInt32.toNat_add]
    change (c.toNat + 32) % _ = _
    omega
  · rw [if_neg]
    rintro ⟨h1, h2⟩
    exact h ⟨h1, h2⟩

theorem toNat_toUpper (c : Char) :
    c.toUpper.toNat = if 97 ≤ c.toNat ∧ c.toNat ≤ 122 then c.toNat - 32 else c.toNat := by
  unfold Char.toUpper
  split <;> rename_i h
  · have h1 : 97 ≤ c.toNat := h.1
    have h2 : c.toNat ≤ 122 := h.2
    rw [if_pos ⟨h1, h2⟩]
    change (c.val + (-32 : UInt32)).toNat = _
    rw [UInt32.toNat_add]
    change (c.toNat + 4294967264) % 4294967296 = _
    omega
  · rw [if_neg]
    rintro ⟨h1, h2⟩
    exact h ⟨h1, h2⟩

theorem isCaseIgnorable_of_isAlpha {c : Char} (h : c.isAlpha) : isCaseIgnorable c = false := by
  rw [isCaseIgnorable, inRanges_eq_false caseIgnorableRanges_above (by have := isAlpha_iff.mp h; omega),
    Bool.or_false]
  by_contra hc
  simp only [List.contains_eq_mem, List.mem_cons, List.not_mem_nil, or_false, Bool.not_eq_false,
    decide_eq_true_eq] at hc
  rcases hc with rfl | rfl | rfl | rfl | rfl <;> exact absurd h (by decide)

theorem isCased_of_isAlpha {c : Char} (h : c.isAlpha) : isCased c = true := by
  rw [isCased, h, Bool.true_or]

theorem eq_or_isAlpha_of_toLower_eq {c d : Char} (h : c.toLower = d.toLower) :
    c = d ∨ (c.isAlpha ∧ d.isAlpha) := by
  have hn := congrArg Char.toNat h
  rw [toNat_toLower, toNat_toLower] at hn
  rw [isAlpha_iff, isAlpha_iff, ← Char.toNat_inj]
  split_ifs at hn <;> omega

theorem lowerChar_eq_of_toLower_eq {c d : Char} (h : c.toLower = d.toLower) :
    lowerChar c = lowerChar d := by
  rcases eq_or_isAlpha_of_toLower_eq h with rfl | ⟨hc, hd⟩
  · rfl
  · have hlt {e : Char} (he : e.isAlpha) : e.toNat < 0x80 := by
      have := isAlpha_iff.mp he
      omega
    rw [lowerChar, if_pos (hlt hc), lowerChar, if_pos (hlt hd), h]

namespace Text

theorem toLowerAscii_append (s t : Text) :
    toLowerAscii (s ++ t) = toLowerAscii s ++ toLowerAscii t := List.map_append

theorem reachesCased_eq {s t : Text} (h : toLowerAscii s = toLowerAscii t) :
    reachesCased s = reachesCased t := by
  induction s generalizing t with
  | nil =>
    obtain rfl : t = [] := by simpa [toLowerAscii] using h.symm
    rfl
  | cons c s ih =>
    cases t with
    | nil => simp [toLowerAscii] at h
    | cons d t =>
      obtain ⟨hcd, hst⟩ : c.toLower = d.toLower ∧ toLowerAscii s = toLowerAscii t := by
        simpa [toLowerAscii] using h
      rcases eq_or_isAlpha_of_toLower_eq hcd with rfl | ⟨hc, hd⟩
      · cases hi : isCaseIgnorable c with
        | true =>
          have := ih hst
          rw [reachesCased, reachesCased] at this
          rw [reachesCased, reachesCased, List.dropWhile_cons_of_pos hi,
            List.dropWhile_cons_of_pos hi, this]
        | false =>
          rw [reachesCased, reachesCased, List.dropWhile_cons_of_neg (by simp [hi]),
            List.dropWhile_cons_of_neg (by simp [hi])]
          rfl
      · have hci := isCaseIgnorable_of_isAlpha hc
        have hdi := isCaseIgnorable_of_isAlpha hd
        rw [reachesCased, reachesCased, List.dropWhile_cons_of_neg (by simp [hci]),
          List.dropWhile_cons_of_neg (by simp [hdi])]
        simp [isCased_of_isAlpha hc, isCased_of_isAlpha hd]

theorem toLowerFrom_eq {before before' s t : Text} (hb : toLowerAscii before = toLowerAscii before')
    (h : toLowerAscii s = toLowerAscii t) : toLowerFrom before s = toLowerFrom before' t := by
  induction s generalizing t before before' with
  | nil =>
    obtain rfl : t = [] := by simpa [toLowerAscii] using h.symm
    rfl
  | cons c s ih =>
    cases t with
    | nil => simp [toLowerAscii] at h
    | cons d t =>
      obtain ⟨hcd, hst⟩ : c.toLower = d.toLower ∧ toLowerAscii s = toLowerAscii t := by
        simpa [toLowerAscii] using h
      have hsigma : c = 'Σ' ↔ d = 'Σ' := by
        rcases eq_or_isAlpha_of_toLower_eq hcd with rfl | ⟨hc, hd⟩
        · rfl
        · have hne {e : Char} (he : e.isAlpha) : e ≠ 'Σ' := by
            rintro rfl
            exact absurd he (by decide)
          exact ⟨fun h => absurd h (hne hc), fun h => absurd h (hne hd)⟩
      have hb' : toLowerAscii (c :: before) = toLowerAscii (d :: before') := by
        simpa [toLowerAscii, hcd] using hb
      rw [toLowerFrom, toLowerFrom, ih hb' hst, reachesCased_eq hb, reachesCased_eq hst,
        lowerChar_eq_of_toLower_eq hcd]
      simp only [hsigma]

theorem toLower_eq_of_eqIgnoreCase {s t : Text} (h : eqIgnoreCase s t) : toLower s = toLower t :=
  toLowerFrom_eq rfl (by simpa [eqIgnoreCase] using h)

theorem length_sigma (b : Bool) : (if b then ['ς'] else ['σ']).length = 1 := by cases b <;> rfl

theorem length_toLowerFrom (before before' t : Text) :
    (toLowerFrom before t).length = (toLowerFrom before' t).length := by
  induction t generalizing before before' with
  | nil => rfl
  | cons c t ih =>
    rw [toLowerFrom, toLowerFrom, List.length_append, List.length_append, ih _ (c :: before')]
    by_cases hc : c = 'Σ'
    · rw [if_pos hc, if_pos hc, length_sigma, length_sigma]
    · rw [if_neg hc, if_neg hc]

theorem length_toLowerFrom_append (before s t : Text) :
    (toLowerFrom before (s ++ t)).length =
      (toLowerFrom before s).length + (toLowerFrom before t).length := by
  induction s generalizing before with
  | nil => simp [toLowerFrom]
  | cons c s ih =>
    rw [List.cons_append, toLowerFrom, toLowerFrom, List.length_append, List.length_append, ih,
      length_toLowerFrom (c :: before) before t]
    by_cases hc : c = 'Σ'
    · rw [if_pos hc, if_pos hc, length_sigma, length_sigma]
      omega
    · rw [if_neg hc, if_neg hc]
      omega

theorem digit_caseless {c : Char} (h : c.isDigit) : isCaseIgnorable c = false ∧ isCased c = false := by
  have hall : ∀ n : Fin 10, isCaseIgnorable (Char.ofNat (48 + n)) = false ∧
      isCased (Char.ofNat (48 + n)) = false := by decide +kernel
  obtain ⟨h1, h2⟩ : 48 ≤ c.toNat ∧ c.toNat ≤ 57 := Char.isDigit_iff_toNat.mp h
  have := hall ⟨c.toNat - 48, by omega⟩
  rwa [show 48 + (c.toNat - 48) = c.toNat by omega, Char.ofNat_toNat] at this

theorem reachesCased_append_digits (t : Text) {d : Text} (hd : d ≠ []) (hall : d.all Char.isDigit) :
    reachesCased (t ++ d) = reachesCased t := by
  obtain ⟨c, d, rfl⟩ := List.exists_cons_of_ne_nil hd
  obtain ⟨hci, hcc⟩ := digit_caseless (List.all_eq_true.mp hall c (by simp))
  induction t with
  | nil =>
    rw [List.nil_append, reachesCased, List.dropWhile_cons_of_neg (by simp [hci])]
    simpa [reachesCased] using hcc
  | cons e t ih =>
    cases hi : isCaseIgnorable e with
    | true =>
      rw [reachesCased, reachesCased] at ih
      rw [List.cons_append, reachesCased, reachesCased, List.dropWhile_cons_of_pos hi,
        List.dropWhile_cons_of_pos hi, ih]
    | false =>
      rw [List.cons_append, reachesCased, reachesCased, List.dropWhile_cons_of_neg (by simp [hi]),
        List.dropWhile_cons_of_neg (by simp [hi])]
      rfl

theorem toLowerFrom_digits (before : Text) {d : Text} (hall : d.all Char.isDigit) :
    toLowerFrom before d = d := by
  induction d generalizing before with
  | nil => rfl
  | cons c d ih =>
    rw [List.all_cons, Bool.and_eq_true] at hall
    have hsigma : c ≠ 'Σ' := by
      rintro rfl
      exact absurd hall.1 (by decide)
    have hlower : lowerChar c = [c] := by
      obtain ⟨h1, h2⟩ : 48 ≤ c.toNat ∧ c.toNat ≤ 57 := Char.isDigit_iff_toNat.mp hall.1
      have hself : c.toLower = c := by
        rw [← Char.toNat_inj, toNat_toLower, if_neg (by omega)]
      rw [lowerChar, if_pos (by omega), hself]
    rw [toLowerFrom, if_neg hsigma, hlower, ih _ hall.2]
    rfl

theorem toLowerFrom_append_digits (before t : Text) {d : Text} (hall : d.all Char.isDigit) :
    toLowerFrom before (t ++ d) = toLowerFrom before t ++ d := by
  by_cases hd : d = []
  · rw [hd, List.append_nil, List.append_nil]
  · induction t generalizing before with
    | nil => rw [List.nil_append, toLowerFrom_digits before hall, toLowerFrom, List.nil_append]
    | cons c t ih =>
      rw [List.cons_append, toLowerFrom, toLowerFrom, ih, reachesCased_append_digits t hd hall,
        List.append_assoc]

theorem toLower_append_digits (t : Text) {d : Text} (hall : d.all Char.isDigit) :
    toLower (t ++ d) = toLower t ++ d := toLowerFrom_append_digits [] t hall

theorem ofNat_all_isDigit (n : Nat) : (ofNat n).all Char.isDigit := by
  rw [List.all_eq_true]
  intro c hc
  exact Nat.isDigit_of_mem_toDigits (by decide) (by decide) hc

end Text
end NamespaceMigration
