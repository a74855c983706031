import NamespaceMigration.Proofs.Naming.Capitals
import NamespaceMigration.Proofs.Naming.Segments
import NamespaceMigration.Token.Word

/-! Signs in names. Small and capital forms keep the backslashes and underscores of a name, and both
stand between two words for every rule about letters. -/
namespace NamespaceMigration

/-- A character of ASCII that is no letter. -/
structure IsSign (c : Char) : Prop where
  alpha : c.isAlpha = false
  ascii : c.toNat < 0x80

/-- A sign that separates words for the rules about letters. -/
structure IsBreak (c : Char) : Prop extends IsSign c where
  ignorable : isCaseIgnorable c = false
  cased : isCased c = false

theorem isBreak_of_not_contains {c : Char} (h : IsSign c)
    (hsigns : ['\x27', '.', ':', '^', '\x60'].contains c = false) (hcased : isCased c = false) :
    IsBreak c := by
  refine ⟨h, ?_, hcased⟩
  rw [isCaseIgnorable, hsigns, inRanges_eq_false caseIgnorableRanges_above h.ascii]
  rfl

theorem isSign_backslash : IsSign '\\' := ⟨by decide, by decide⟩

theorem isSign_underscore : IsSign '_' := ⟨by decide, by decide⟩

theorem isBreak_backslash : IsBreak '\\' :=
  isBreak_of_not_contains isSign_backslash (by decide) (by decide)

theorem isBreak_underscore : IsBreak '_' :=
  isBreak_of_not_contains isSign_underscore (by decide) (by decide)

namespace IsSign

variable {s : Char}

theorem lowerChar (h : IsSign s) : lowerChar s = [s] := by
  rw [NamespaceMigration.lowerChar, if_pos h.ascii, toLower_of_not_isAlpha h.alpha]

theorem upperChar (h : IsSign s) : upperChar s = [s] := by
  rw [NamespaceMigration.upperChar, if_pos h.ascii, toUpper_of_not_isAlpha h.alpha]

theorem not_mem_of_ne (h : IsSign s) {c : Char} (hc : c ≠ s) {t : Text}
    (ht : ∀ d ∈ t, d = c ∨ d.isAlpha ∨ 0x80 ≤ d.toNat) : s ∉ t := by
  intro hmem
  rcases ht s hmem with rfl | halpha | habove
  · exact hc rfl
  · rw [h.alpha] at halpha
    cases halpha
  · have := h.ascii
    omega

theorem count_lowerChar (h : IsSign s) (c : Char) :
    (NamespaceMigration.lowerChar c).count s = [c].count s := by
  by_cases hc : c = s
  · rw [hc, h.lowerChar]
  · have hnot := h.not_mem_of_ne hc fun d hd => mem_lowerChar hd
    rw [List.count_eq_zero.mpr hnot, List.count_singleton, if_neg (by simpa using hc)]

theorem count_upperChar (h : IsSign s) (c : Char) :
    (NamespaceMigration.upperChar c).count s = [c].count s := by
  by_cases hc : c = s
  · rw [hc, h.upperChar]
  · have hnot := h.not_mem_of_ne hc fun d hd => mem_upperChar hd
    rw [List.count_eq_zero.mpr hnot, List.count_singleton, if_neg (by simpa using hc)]

theorem count_toLower (h : IsSign s) (t : Text) : (Text.toLower t).count s = t.count s := by
  have hfrom (before : Text) : (Text.toLowerFrom before t).count s = t.count s := by
    induction t generalizing before with
    | nil => rfl
    | cons c t ih =>
      have hsigma : c = 'Σ' → [c].count s = 0 := by
        rintro rfl
        refine List.count_eq_zero.mpr fun hmem => ?_
        rw [List.mem_singleton] at hmem
        exact absurd h.ascii (by rw [hmem]; decide)
      have hforms (b : Bool) : (if b then ['ς'] else ['σ']).count s = 0 := by
        refine List.count_eq_zero.mpr fun hmem => ?_
        have hascii := h.ascii
        cases b <;> rw [List.mem_singleton.mp hmem] at hascii <;> exact absurd hascii (by decide)
      have hcons : (c :: t).count s = [c].count s + t.count s := by
        rw [← List.singleton_append, List.count_append]
      rw [Text.toLowerFrom, List.count_append, ih, hcons]
      by_cases hc : c = 'Σ'
      · rw [if_pos hc, hforms, hsigma hc]
      · rw [if_neg hc, h.count_lowerChar]
  exact hfrom []

theorem count_capitalize (h : IsSign s) (t : Text) : (Text.capitalize t).count s = t.count s := by
  cases t with
  | nil => rfl
  | cons c t =>
    rw [Text.capitalize, List.count_append, h.count_upperChar, ← List.count_append,
      List.singleton_append]

end IsSign

namespace Text

theorem length_capitalize_le (t : Text) : t.length ≤ (capitalize t).length := by
  cases t with
  | nil => exact Nat.le_refl 0
  | cons c t =>
    have hpos := List.length_pos_iff.mpr (upperChar_ne_nil c)
    rw [capitalize, List.length_append, List.length_cons]
    omega

theorem getLast?_capitalize {s : Char} (h : IsSign s) {t : Text} (hlast : t.getLast? = some s) :
    (capitalize t).getLast? = some s := by
  cases t with
  | nil => cases hlast
  | cons c t =>
    by_cases ht : t = []
    · subst ht
      obtain rfl : c = s := by simpa using hlast
      rw [capitalize, h.upperChar]
      rfl
    · rw [capitalize, List.getLast?_append_of_ne_nil _ ht]
      rwa [← List.singleton_append, List.getLast?_append_of_ne_nil _ ht] at hlast

section Break

variable {s : Char} (h : IsBreak s)
include h

theorem reachesCased_break (t u : Text) : reachesCased (t ++ s :: u) = reachesCased t := by
  rw [reachesCased, reachesCased, List.dropWhile_append]
  cases ht : t.dropWhile isCaseIgnorable with
  | nil =>
    rw [List.isEmpty_nil, if_pos rfl, List.dropWhile_cons_of_neg (by simp [h.ignorable])]
    exact h.cased
  | cons c t => rfl

theorem toLowerFrom_break (before after t : Text) :
    toLowerFrom (before ++ s :: after) t = toLowerFrom before t := by
  induction t generalizing before with
  | nil => rfl
  | cons c t ih =>
    rw [toLowerFrom, toLowerFrom, reachesCased_break h, ← List.cons_append, ih]

theorem toLower_break (t u : Text) : toLower (t ++ s :: u) = toLower t ++ s :: toLower u := by
  have hsigma : s ≠ 'Σ' := by
    rintro rfl
    exact absurd h.ascii (by decide)
  have hfrom (before : Text) :
      toLowerFrom before (t ++ s :: u) = toLowerFrom before t ++ s :: toLower u := by
    induction t generalizing before with
    | nil =>
      rw [List.nil_append, toLowerFrom, toLowerFrom, if_neg hsigma, h.lowerChar]
      exact congrArg (s :: ·) (toLowerFrom_break h [] before u)
    | cons c t ih =>
      rw [List.cons_append, toLowerFrom, toLowerFrom, ih, reachesCased_break h, List.append_assoc]
  exact hfrom []

end Break

theorem length_toLower_append (s t : Text) :
    (toLower (s ++ t)).length = (toLower s).length + (toLower t).length :=
  length_toLowerFrom_append [] s t

end Text

namespace Word

theorem reservedWords_small : reservedWords.all fun word => Text.toLower word == word := by
  decide +kernel

theorem toLower_of_isReserved {t : Text} (h : isReserved t) : Text.toLower t = Text.toLowerAscii t := by
  have hsmall := List.all_eq_true.mp reservedWords_small _ (List.contains_iff_mem.mp h)
  rw [beq_iff_eq] at hsmall
  refine (Text.toLower_eq_of_eqIgnoreCase ?_).trans hsmall
  rw [Text.eqIgnoreCase, beq_iff_eq, Text.toLowerAscii, Text.toLowerAscii, List.map_map]
  refine List.map_congr_left fun c _ => ?_
  rw [Function.comp_apply, ← Char.toNat_inj, toNat_toLower c.toLower, toNat_toLower c]
  split_ifs <;> omega

theorem length_toLower_of_isReserved {t : Text} (h : isReserved t) :
    (Text.toLower t).length = t.length := by
  rw [toLower_of_isReserved h, Text.toLowerAscii, List.length_map]

theorem reservedWords_end : reservedWords.all fun word => word.getLast? != some '_' := by
  decide +kernel

theorem getLast?_of_isReserved {t : Text} (h : isReserved t) : t.getLast? ≠ some '_' := by
  intro hlast
  have hend := List.all_eq_true.mp reservedWords_end _ (List.contains_iff_mem.mp h)
  rw [Text.toLowerAscii, List.getLast?_map, hlast] at hend
  cases hend

end Word

open Identifier (isIdentifier)
open Lexer (isNameStart isNameChar)

theorem isNameStart_eq_true {c : Char} (h : c = '_' ∨ c.isAlpha ∨ 0x80 ≤ c.toNat) : isNameStart c := by
  rw [isNameStart, Bool.or_eq_true, Bool.or_eq_true, beq_iff_eq, decide_eq_true_eq]
  rcases h with h | h | h
  · exact Or.inl (Or.inr h)
  · exact Or.inl (Or.inl h)
  · exact Or.inr h

theorem isSign_of_not_isNameStart {c : Char} (h : isNameStart c = false) : IsSign c := by
  rw [isNameStart, Bool.or_eq_false_iff, Bool.or_eq_false_iff, decide_eq_false_iff_not] at h
  exact ⟨h.1.1, by omega⟩

theorem isNameStart_upperChar {c d : Char} (hc : isNameStart c) (hd : d ∈ upperChar c) :
    isNameStart d := by
  rcases mem_upperChar hd with rfl | hd
  · exact hc
  · exact isNameStart_eq_true (Or.inr hd)

theorem isNameChar_upperChar {c d : Char} (hc : isNameChar c) (hd : d ∈ upperChar c) :
    isNameChar d := by
  rcases mem_upperChar hd with rfl | hd
  · exact hc
  · exact Lexer.isNameChar_of_isNameStart (isNameStart_eq_true (Or.inr hd))

theorem isIdentifier_cons_iff {c : Char} {t : Text} :
    isIdentifier (c :: t) ↔ isNameStart c ∧ ∀ d ∈ t, isNameChar d := by
  rw [isIdentifier, Bool.and_eq_true, List.all_eq_true]

theorem isNameChar_of_isIdentifier {t : Text} (h : isIdentifier t) : ∀ c ∈ t, isNameChar c := by
  obtain ⟨c, u, rfl⟩ := List.exists_cons_of_ne_nil (isIdentifier_plain h).1
  rw [isIdentifier_cons_iff] at h
  exact List.forall_mem_cons.mpr ⟨Lexer.isNameChar_of_isNameStart h.1, h.2⟩

theorem isIdentifier_append_iff {s t : Text} (hs : s ≠ []) (ht : ∀ c ∈ t, isNameChar c) :
    isIdentifier (s ++ t) ↔ isIdentifier s := by
  obtain ⟨c, s, rfl⟩ := List.exists_cons_of_ne_nil hs
  rw [List.cons_append, isIdentifier_cons_iff, isIdentifier_cons_iff, List.forall_mem_append]
  exact and_congr_right fun _ => and_iff_left ht

theorem isNameChar_capitalize {t : Text} (h : ∀ c ∈ t, isNameChar c) :
    ∀ c ∈ Text.capitalize t, isNameChar c := by
  cases t with
  | nil => exact h
  | cons c t =>
    rw [List.forall_mem_cons] at h
    exact List.forall_mem_append.mpr ⟨fun d hd => isNameChar_upperChar h.1 hd, h.2⟩

theorem isIdentifier_capitalize_iff {t : Text} (h : ∀ c ∈ t, isNameChar c) :
    isIdentifier (Text.capitalize t) ↔ isIdentifier t := by
  cases t with
  | nil => rfl
  | cons c t =>
    rw [List.forall_mem_cons] at h
    cases hstart : isNameStart c with
    | true =>
      obtain ⟨d, ds, hd⟩ := List.exists_cons_of_ne_nil (upperChar_ne_nil c)
      have hcapital : isIdentifier (upperChar c) := by
        rw [hd, isIdentifier_cons_iff]
        refine ⟨isNameStart_upperChar hstart ?_, fun e he => isNameChar_upperChar h.1 ?_⟩
        · rw [hd]
          exact List.mem_cons_self
        · rw [hd]
          exact List.mem_cons_of_mem _ he
      rw [Text.capitalize, isIdentifier_append_iff (upperChar_ne_nil c) h.2, isIdentifier_cons_iff]
      exact iff_of_true hcapital ⟨hstart, h.2⟩
    | false =>
      rw [Text.capitalize, (isSign_of_not_isNameStart hstart).upperChar]
      rfl

end NamespaceMigration
