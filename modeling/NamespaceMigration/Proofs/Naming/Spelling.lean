import NamespaceMigration.Proofs.Naming.Segments
import NamespaceMigration.Proofs.Naming.Signs

/-! Texts that differ in the case of letters only. They fall apart at the same signs, and their parts
differ in the case of letters only. -/
namespace NamespaceMigration

theorem lowerChar_ne_nil (c : Char) : lowerChar c ≠ [] := by
  rw [lowerChar]
  split_ifs <;> exact List.cons_ne_nil _ _

/-- A form of texts that is taken on both sides of a sign alone. -/
structure IsFold (s : Char) (f : Text → Text) : Prop where
  split : ∀ t u, f (t ++ s :: u) = f t ++ s :: f u
  mem : ∀ t, s ∈ f t ↔ s ∈ t
  nil : ∀ t, f t = [] ↔ t = []

theorem IsBreak.isFold {s : Char} (h : IsBreak s) : IsFold s Text.toLower where
  split := Text.toLower_break h
  mem t := by rw [← List.count_pos_iff, h.count_toLower, List.count_pos_iff]
  nil t := by
    cases t with
    | nil => exact Iff.rfl
    | cons c t =>
      refine iff_of_false (fun heq => ?_) (List.cons_ne_nil c t)
      rw [Text.toLower, Text.toLowerFrom, List.append_eq_nil_iff] at heq
      by_cases hc : c = 'Σ'
      · rw [if_pos hc] at heq
        split at heq <;> cases heq.1
      · rw [if_neg hc] at heq
        exact lowerChar_ne_nil c heq.1

theorem IsSign.isFold {s : Char} (h : IsSign s) : IsFold s Text.toLowerAscii where
  split t u := by
    rw [Text.toLowerAscii_append, Text.toLowerAscii.eq_1 (s :: u), List.map_cons,
      toLower_of_not_isAlpha h.alpha]
    rfl
  mem t := by
    rw [Text.toLowerAscii, List.mem_map]
    constructor
    · rintro ⟨c, hc, heq⟩
      rw [← toLower_of_not_isAlpha h.alpha] at heq
      rcases eq_or_isAlpha_of_toLower_eq heq with rfl | ⟨-, halpha⟩
      · exact hc
      · rw [h.alpha] at halpha
        cases halpha
    · exact fun hmem => ⟨s, hmem, toLower_of_not_isAlpha h.alpha⟩
  nil t := List.map_eq_nil_iff

namespace IsFold

variable {s : Char} {f : Text → Text} (h : IsFold s f)
include h

theorem join {ts : List Text} (hts : ts ≠ []) : f (Text.join [s] ts) = Text.join [s] (ts.map f) := by
  induction ts with
  | nil => exact absurd rfl hts
  | cons t ts ih =>
    by_cases hnil : ts = []
    · subst hnil
      rw [List.map_singleton, Text.join_singleton, Text.join_singleton]
    · have hmap : ts.map f ≠ [] := List.map_eq_nil_iff.not.mpr hnil
      rw [List.map_cons, Text.join_cons _ _ hnil, Text.join_cons _ _ hmap, h.split, ih hnil]

theorem not_mem_map {ts : List Text} (hts : ∀ t ∈ ts, s ∉ t) : ∀ t ∈ ts.map f, s ∉ t :=
  List.forall_mem_map.mpr fun t ht => (h.mem t).not.mpr (hts t ht)

theorem splitOn (t : Text) : (f t).splitOn s = (t.splitOn s).map f := by
  have hne : t.splitOn s ≠ [] := List.splitOn_ne_nil _ _
  have hparts := h.not_mem_map (splitOn_not_mem s t)
  rw [← Text.splitOn_join hparts (List.map_eq_nil_iff.not.mpr hne), ← h.join hne, Text.join_splitOn]

theorem join_eq_iff {ts us : List Text} (ht : ∀ t ∈ ts, s ∉ t) (htn : ts ≠ [])
    (hu : ∀ u ∈ us, s ∉ u) (hun : us ≠ []) :
    f (Text.join [s] ts) = f (Text.join [s] us) ↔ ts.map f = us.map f := by
  rw [h.join htn, h.join hun]
  exact ⟨Text.join_injective (h.not_mem_map ht) (List.map_eq_nil_iff.not.mpr htn)
    (h.not_mem_map hu) (List.map_eq_nil_iff.not.mpr hun), congrArg _⟩

theorem exists_split {head tail u : Text} (htail : s ∉ tail) (heq : f (head ++ s :: tail) = f u) :
    ∃ head' tail', u = head' ++ s :: tail' ∧ s ∉ tail' ∧ f head = f head' ∧ f tail = f tail' := by
  have hmem : ¬s ∉ u := by
    rw [not_not, ← h.mem, ← heq, h.split]
    exact List.mem_append_right _ List.mem_cons_self
  obtain ⟨⟨head', tail'⟩, hsplit⟩ :=
    Option.ne_none_iff_exists'.mp (Text.splitAtLast?_eq_none_iff.not.mpr hmem)
  obtain ⟨rfl, htail'⟩ := Text.splitAtLast?_eq_some_iff.mp hsplit
  rw [h.split, h.split] at heq
  have hcut := congrArg (Text.splitAtLast? s) heq
  rw [Text.splitAtLast?_eq_some_iff.mpr ⟨rfl, (h.mem tail).not.mpr htail⟩,
    Text.splitAtLast?_eq_some_iff.mpr ⟨rfl, (h.mem tail').not.mpr htail'⟩] at hcut
  obtain ⟨hhead, hlast⟩ := Prod.mk.inj (Option.some.inj hcut)
  exact ⟨head', tail', rfl, htail', hhead, hlast⟩

theorem filter_ne_nil {ts us : List Text} (heq : ts.map f = us.map f) :
    (ts.filter (!·.isEmpty)).map f = (us.filter (!·.isEmpty)).map f := by
  have hfilter (ts : List Text) :
      (ts.filter (!·.isEmpty)).map f = (ts.map f).filter (!·.isEmpty) := by
    rw [List.filter_map]
    congr 1
    refine List.filter_congr fun t _ => ?_
    rw [Function.comp_apply, Bool.eq_iff_iff, Bool.not_eq_true', Bool.not_eq_true',
      List.isEmpty_eq_false_iff, List.isEmpty_eq_false_iff]
    exact (h.nil t).not.symm
  rw [hfilter, hfilter, heq]

end IsFold

namespace Word

/-- An underscore after reserved words keeps the small forms of two texts the same exactly if both of
them are reserved, or none. -/
theorem toLower_withSuffix_iff {s t : Text} (h : Text.toLower s = Text.toLower t) :
    Text.toLower (Identifier.withSuffix s ['_']) = Text.toLower (Identifier.withSuffix t ['_']) ↔
      isReserved s = isReserved t := by
  have hmore (u : Text) : Text.toLower (u ++ ['_']) = Text.toLower u ++ ['_'] :=
    Text.toLower_break isBreak_underscore u []
  have hne (u : Text) : u ++ ['_'] ≠ u := fun heq => by simpa using congrArg List.length heq
  rw [Identifier.withSuffix, Identifier.withSuffix]
  cases isReserved s <;> cases isReserved t <;> simp [hmore, h, hne, (hne _).symm]

theorem isReserved_of_eqIgnoreCase {s t : Text} (h : Text.toLowerAscii s = Text.toLowerAscii t) :
    isReserved s = isReserved t := by
  rw [isReserved, isReserved, h]

end Word

namespace Text

theorem toLowerAscii_capitalize {s t : Text} (h : toLowerAscii s = toLowerAscii t) :
    toLowerAscii (capitalize s) = toLowerAscii (capitalize t) := by
  cases s with
  | nil => rw [List.map_eq_nil_iff.mp h.symm]
  | cons c s =>
    cases t with
    | nil => cases h
    | cons d t =>
      obtain ⟨hhead, htail⟩ := List.cons.inj h
      rw [capitalize, capitalize, toLowerAscii_append, toLowerAscii_append]
      refine congrArg₂ (· ++ ·) ?_ htail
      rcases eq_or_isAlpha_of_toLower_eq hhead with rfl | ⟨hc, hd⟩
      · rfl
      · rw [isAlpha_iff] at hc hd
        have hupper : c.toUpper = d.toUpper := by
          have hn := congrArg Char.toNat hhead
          rw [toNat_toLower, toNat_toLower] at hn
          rw [← Char.toNat_inj, toNat_toUpper, toNat_toUpper]
          split_ifs at hn ⊢ <;> omega
        rw [upperChar, upperChar, if_pos (by omega), if_pos (by omega), hupper]

end Text

theorem mem_aliasKey_iff {kind : SymbolKind} {short : Text} : '\\' ∈ aliasKey kind short ↔ '\\' ∈ short := by
  rw [aliasKey]
  split
  · exact Iff.rfl
  · exact isBreak_backslash.isFold.mem short

end NamespaceMigration
