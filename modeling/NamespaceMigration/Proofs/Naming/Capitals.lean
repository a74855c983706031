import Mathlib.Data.List.Basic
import NamespaceMigration.Proofs.Naming.LetterCase

/-! Capital and small forms of single characters. Whatever a character becomes is itself, a letter or
above ASCII, so the signs of names and paths come from nowhere else; and a capital stays as it is. -/
namespace NamespaceMigration

namespace CaseRun

/-- The images of a run are letters of ASCII, or characters above it. -/
def lands (r : CaseRun) : Bool :=
  let last := r.target + (r.last - r.first)
  (Nat.ble 0x80 r.target && (Nat.blt last 0xD800 || (Nat.ble 0xE000 r.target && Nat.blt last 0x110000))) ||
    (Nat.beq r.first r.last && (Char.ofNat r.target).isAlpha)

/-- No image of the first run is mapped by the second one. -/
def avoids (r q : CaseRun) : Bool :=
  Nat.blt (r.target + (r.last - r.first)) q.first || Nat.blt q.last r.target ||
    (Nat.beq q.step 2 && Nat.beq ((r.target + q.first) % 2) 1 &&
      (Nat.beq r.step 2 || Nat.beq r.first r.last))

variable {r q : CaseRun} {n m : Nat}

theorem image?_eq_some (h : r.image? n = some m) :
    ∃ k, k ≤ r.last - r.first ∧ k % r.step = 0 ∧ m = r.target + k := by
  rw [image?] at h
  split at h
  · rename_i hn
    cases h
    exact ⟨n - r.first, by omega, hn.2.2, rfl⟩
  · cases h

theorem image?_lands (hr : r.lands) (h : r.image? n = some m) :
    m.isValidChar ∧ ((Char.ofNat m).isAlpha ∨ 0x80 ≤ m) := by
  obtain ⟨k, hk, -, rfl⟩ := image?_eq_some h
  simp only [lands, Bool.or_eq_true, Bool.and_eq_true, Nat.ble_eq, Nat.blt_eq, Nat.beq_eq] at hr
  rcases hr with ⟨habove, hlast⟩ | ⟨hsingle, halpha⟩
  · refine ⟨?_, Or.inr (by omega)⟩
    rcases hlast with hlast | ⟨hfirst, hlast⟩
    · exact Or.inl (by omega)
    · exact Or.inr ⟨by omega, by omega⟩
  · obtain rfl : k = 0 := by omega
    rw [Nat.add_zero]
    refine ⟨?_, Or.inl halpha⟩
    by_contra hinvalid
    rw [Char.ofNat, dif_neg hinvalid] at halpha
    cases halpha

theorem image?_avoids (hr : r.avoids q) (h : r.image? n = some m) : q.image? m = none := by
  obtain ⟨k, hk, hstep, rfl⟩ := image?_eq_some h
  simp only [avoids, Bool.or_eq_true, Bool.and_eq_true, Nat.blt_eq, Nat.beq_eq] at hr
  rw [image?, if_neg]
  rintro ⟨hfirst, hlast, hmod⟩
  rcases hr with (hbelow | habove) | ⟨⟨hq, hodd⟩, htwo | hsingle⟩
  · omega
  · omega
  · rw [hq] at hmod
    rw [htwo] at hstep
    omega
  · rw [hq] at hmod
    omega

end CaseRun

theorem lowerRuns_land : lowerRuns.all CaseRun.lands := by decide +kernel

/-- The images of a run of the table of capitals are capitals: neither a run nor a sequence of the
table maps them further, and those in ASCII are capitals there. -/
def CaseRun.isFinal (r : CaseRun) : Bool :=
  upperRuns.all r.avoids &&
    upperSequences.all (fun p =>
      Nat.blt (r.target + (r.last - r.first)) p.1 || Nat.blt p.1 r.target) &&
    (Nat.ble 0x80 r.target || upperChar (Char.ofNat r.target) == [Char.ofNat r.target])

theorem upperRuns_land : upperRuns.all fun r => r.lands && r.isFinal := by decide +kernel

theorem lands_of_mem_upperRuns {r : CaseRun} (h : r ∈ upperRuns) : r.lands :=
  (Bool.and_eq_true _ _ ▸ List.all_eq_true.mp upperRuns_land r h).1

theorem isFinal_of_mem_upperRuns {r : CaseRun} (h : r ∈ upperRuns) : r.isFinal :=
  (Bool.and_eq_true _ _ ▸ List.all_eq_true.mp upperRuns_land r h).2

theorem upperSequences_land : upperSequences.all fun p =>
    (p.2.head?.any fun n => upperChar (Char.ofNat n) == [Char.ofNat n]) &&
      p.2.all fun n => (Char.ofNat n).isAlpha || Nat.ble 0x80 (Char.ofNat n).toNat := by
  decide +kernel

theorem toNat_ofNat {n : Nat} (h : n.isValidChar) : (Char.ofNat n).toNat = n := by
  rw [Char.ofNat, dif_pos h]
  rfl

theorem toLower_eq_or_isAlpha (c : Char) : c.toLower = c ∨ c.toLower.isAlpha := by
  rw [isAlpha_iff, ← Char.toNat_inj, toNat_toLower]
  split_ifs <;> omega

theorem toUpper_eq_or_isAlpha (c : Char) : c.toUpper = c ∨ c.toUpper.isAlpha := by
  rw [isAlpha_iff, ← Char.toNat_inj, toNat_toUpper]
  split_ifs <;> omega

theorem toLower_of_not_isAlpha {c : Char} (h : c.isAlpha = false) : c.toLower = c := by
  rw [← Bool.not_eq_true, isAlpha_iff] at h
  rw [← Char.toNat_inj, toNat_toLower, if_neg (by omega)]

theorem toUpper_of_not_isAlpha {c : Char} (h : c.isAlpha = false) : c.toUpper = c := by
  rw [← Bool.not_eq_true, isAlpha_iff] at h
  rw [← Char.toNat_inj, toNat_toUpper, if_neg (by omega)]

theorem upperChar_toUpper {c : Char} (h : c.toNat < 0x80) : upperChar c.toUpper = [c.toUpper] := by
  have hfixed : c.toUpper.toUpper = c.toUpper := by
    rw [← Char.toNat_inj, toNat_toUpper c.toUpper, toNat_toUpper c]
    split_ifs <;> omega
  rw [upperChar, if_pos (by rw [toNat_toUpper]; split_ifs <;> omega), hfixed]

theorem mem_lowerChar {c d : Char} (h : d ∈ lowerChar c) :
    d = c ∨ d.isAlpha ∨ 0x80 ≤ d.toNat := by
  rw [lowerChar] at h
  split at h
  · rw [List.mem_singleton] at h
    subst h
    exact (toLower_eq_or_isAlpha c).imp_right Or.inl
  · split at h
    · rcases List.mem_cons.mp h with rfl | h
      · exact Or.inr (Or.inl rfl)
      · rw [List.mem_singleton] at h
        subst h
        exact Or.inr (Or.inr (by decide))
    · rw [List.mem_singleton] at h
      cases himage : lowerRuns.findSome? (·.image? c.toNat) with
      | none =>
        rw [himage] at h
        exact Or.inl h
      | some m =>
        rw [himage] at h
        change d = Char.ofNat m at h
        obtain ⟨r, hr, hm⟩ := List.exists_of_findSome?_eq_some himage
        obtain ⟨hvalid, hland⟩ := CaseRun.image?_lands (List.all_eq_true.mp lowerRuns_land r hr) hm
        rw [h, toNat_ofNat hvalid]
        exact Or.inr hland

theorem upperChar_image {c : Char} {m : Nat} (hc : ¬c.toNat < 0x80)
    (hsequence : upperSequences.lookup c.toNat = none)
    (h : upperRuns.findSome? (·.image? c.toNat) = some m) : upperChar c = [Char.ofNat m] := by
  rw [upperChar, if_neg hc, hsequence, h]
  rfl

theorem upperChar_cases (c : Char) : (c.toNat < 0x80 ∧ upperChar c = [c.toUpper]) ∨
    (∃ p ∈ upperSequences, upperChar c = p.2.map Char.ofNat) ∨
    (∃ n m, ∃ r ∈ upperRuns, r.image? n = some m ∧ upperChar c = [Char.ofNat m]) ∨
    upperChar c = [c] := by
  by_cases hc : c.toNat < 0x80
  · exact Or.inl ⟨hc, by rw [upperChar, if_pos hc]⟩
  · cases hsequence : upperSequences.lookup c.toNat with
    | some capitals =>
      refine Or.inr (Or.inl ?_)
      obtain ⟨l₁, l₂, hl, -⟩ := List.lookup_eq_some_iff.mp hsequence
      refine ⟨(c.toNat, capitals), ?_, by rw [upperChar, if_neg hc, hsequence]⟩
      rw [hl]
      exact List.mem_append_right _ List.mem_cons_self
    | none =>
      cases himage : upperRuns.findSome? (·.image? c.toNat) with
      | some m =>
        obtain ⟨r, hr, hm⟩ := List.exists_of_findSome?_eq_some himage
        exact Or.inr (Or.inr (Or.inl ⟨c.toNat, m, r, hr, hm, upperChar_image hc hsequence himage⟩))
      | none =>
        refine Or.inr (Or.inr (Or.inr ?_))
        rw [upperChar, if_neg hc, hsequence, himage]
        rfl

theorem mem_upperChar {c d : Char} (h : d ∈ upperChar c) :
    d = c ∨ d.isAlpha ∨ 0x80 ≤ d.toNat := by
  rcases upperChar_cases c with ⟨-, hc⟩ | ⟨p, hp, hc⟩ | ⟨n, m, r, hr, hm, hc⟩ | hc
  · rw [hc, List.mem_singleton] at h
    subst h
    exact (toUpper_eq_or_isAlpha c).imp_right Or.inl
  · rw [hc] at h
    obtain ⟨n, hn, rfl⟩ := List.mem_map.mp h
    have hland := List.all_eq_true.mp upperSequences_land p hp
    rw [Bool.and_eq_true, List.all_eq_true] at hland
    have hland := hland.2 n hn
    rw [Bool.or_eq_true, Nat.ble_eq] at hland
    exact Or.inr hland
  · rw [hc, List.mem_singleton] at h
    obtain ⟨hvalid, hland⟩ := CaseRun.image?_lands (lands_of_mem_upperRuns hr) hm
    rw [h, toNat_ofNat hvalid]
    exact Or.inr hland
  · rw [hc, List.mem_singleton] at h
    exact Or.inl h

theorem upperChar_ne_nil (c : Char) : upperChar c ≠ [] := by
  rcases upperChar_cases c with ⟨-, hc⟩ | ⟨p, hp, hc⟩ | ⟨_, _, _, -, -, hc⟩ | hc
  · rw [hc]
    exact List.cons_ne_nil _ _
  · have hland := List.all_eq_true.mp upperSequences_land p hp
    rw [hc, ne_eq, List.map_eq_nil_iff]
    intro hnil
    rw [hnil] at hland
    cases hland
  · rw [hc]
    exact List.cons_ne_nil _ _
  · rw [hc]
    exact List.cons_ne_nil _ _

/-- What a run of the table maps to is not mapped again. -/
theorem upperChar_of_image {r : CaseRun} (hr : r ∈ upperRuns) {n m : Nat} (h : r.image? n = some m) :
    upperChar (Char.ofNat m) = [Char.ofNat m] := by
  obtain ⟨hvalid, -⟩ := CaseRun.image?_lands (lands_of_mem_upperRuns hr) h
  obtain ⟨k, hk, -, hm⟩ := CaseRun.image?_eq_some h
  have hfinal := isFinal_of_mem_upperRuns hr
  rw [CaseRun.isFinal, Bool.and_eq_true, Bool.and_eq_true, List.all_eq_true, List.all_eq_true] at hfinal
  obtain ⟨⟨hruns, hsequences⟩, hascii⟩ := hfinal
  by_cases htarget : 0x80 ≤ r.target
  · have hsequence : upperSequences.lookup m = none := by
      refine List.lookup_eq_none_iff.mpr fun p hp => ?_
      have hp := hsequences p hp
      rw [Bool.or_eq_true, Nat.blt_eq, Nat.blt_eq] at hp
      rw [bne_iff_ne]
      omega
    have himage : upperRuns.findSome? (·.image? m) = none :=
      List.findSome?_eq_none_iff.mpr fun q hq => CaseRun.image?_avoids (hruns q hq) h
    have hnat : (Char.ofNat m).toNat = m := by rw [toNat_ofNat hvalid]
    rw [upperChar, hnat, if_neg (by omega), hsequence, himage]
    rfl
  · have hland := lands_of_mem_upperRuns hr
    simp only [CaseRun.lands, Bool.or_eq_true, Bool.and_eq_true, Nat.ble_eq, Nat.beq_eq] at hland
    rw [Bool.or_eq_true, Nat.ble_eq, beq_iff_eq] at hascii
    obtain ⟨hsingle, -⟩ := hland.resolve_left fun hand => htarget hand.1
    obtain rfl : m = r.target := by omega
    exact hascii.resolve_left htarget

/-- A capital stays as it is. -/
theorem upperChar_head {c d : Char} {t : List Char} (h : upperChar c = d :: t) :
    upperChar d = [d] := by
  rcases upperChar_cases c with ⟨hlt, hc⟩ | ⟨p, hp, hc⟩ | ⟨n, m, r, hr, hm, hc⟩ | hc
  · rw [hc] at h
    cases h
    exact upperChar_toUpper hlt
  · have hland := List.all_eq_true.mp upperSequences_land p hp
    rw [hc] at h
    obtain ⟨n, ns, hp2, rfl, -⟩ := List.map_eq_cons_iff.mp h
    rw [Bool.and_eq_true, hp2] at hland
    simpa using hland.1
  · rw [hc] at h
    cases h
    exact upperChar_of_image hr hm
  · rw [hc] at h
    cases h
    exact hc

namespace Text

theorem capitalize_ne_nil {t : Text} (h : t ≠ []) : capitalize t ≠ [] := by
  obtain ⟨c, u, rfl⟩ := List.exists_cons_of_ne_nil h
  exact List.append_ne_nil_of_left_ne_nil (upperChar_ne_nil c) u

theorem capitalize_capitalize (t : Text) : capitalize (capitalize t) = capitalize t := by
  cases t with
  | nil => rfl
  | cons c t =>
    obtain ⟨d, ds, hd⟩ := List.exists_cons_of_ne_nil (upperChar_ne_nil c)
    have hcapital : capitalize (c :: t) = d :: (ds ++ t) := by
      rw [capitalize, hd]
      rfl
    rw [hcapital, capitalize, upperChar_head hd]
    rfl

theorem not_mem_capitalize {c : Char} (halpha : c.isAlpha = false) (hascii : c.toNat < 0x80) {t : Text}
    (h : c ∉ t) : c ∉ capitalize t := by
  cases t with
  | nil => exact h
  | cons d t =>
    rw [List.mem_cons, not_or] at h
    rw [capitalize, List.mem_append, not_or]
    refine ⟨fun hc => ?_, h.2⟩
    rcases mem_upperChar hc with rfl | hletter | habove
    · exact h.1 rfl
    · rw [halpha] at hletter
      cases hletter
    · omega

end Text
end NamespaceMigration
