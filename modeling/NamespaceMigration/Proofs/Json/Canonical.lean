import Mathlib.Data.List.Basic
import NamespaceMigration.Json.Basic

/-! The canonical form of values. The keys of its objects ascend, and a value whose keys ascend
everywhere is canonical itself. -/
namespace NamespaceMigration

/-- Texts are in the order of their characters. -/
theorem Text.le_iff {s t : Text} : Text.le s t = true ↔ ¬t < s := by
  induction s generalizing t with
  | nil => simp [Text.le]
  | cons a s ih =>
    cases t with
    | nil => simp [Text.le]
    | cons b t =>
      rw [Text.le, List.cons_lt_cons_iff]
      by_cases h : a = b
      · subst h
        rw [if_pos rfl, ih]
        simp
      · have hchars : a < b ↔ ¬b < a := ⟨Char.lt_asymm, fun hge => Char.not_le.mp fun hle =>
          h (Char.le_antisymm (Char.not_lt.mp hge) hle)⟩
        rw [if_neg h, decide_eq_true_eq, hchars]
        simp [Ne.symm h]

theorem Text.le_trans {s t u : Text} (hst : Text.le s t) (htu : Text.le t u) : Text.le s u := by
  rw [Text.le_iff] at *
  exact List.not_lt.mpr (List.le_trans (List.not_lt.mp hst) (List.not_lt.mp htu))

theorem Text.le_total (s t : Text) : (Text.le s t || Text.le t s) = true := by
  rw [Bool.or_eq_true, Text.le_iff, Text.le_iff, List.not_lt, List.not_lt]
  exact List.le_total s t

theorem Text.le_antisymm {s t : Text} (hst : Text.le s t) (hts : Text.le t s) : s = t := by
  rw [Text.le_iff, List.not_lt] at *
  exact List.le_antisymm hst hts

namespace JsonValue

/-- The keys ascend, so none comes twice. -/
def Ascending (members : List (Text × JsonValue)) : Prop := members.Pairwise (·.1 < ·.1)

section Insert

variable {key : Text} {value : JsonValue} {members : List (Text × JsonValue)}

theorem mem_insert {member : Text × JsonValue} (h : member ∈ insert key value members) :
    member = (key, value) ∨ member ∈ members := by
  induction members with
  | nil => simpa [insert] using h
  | cons first members ih =>
    rw [insert] at h
    split_ifs at h
    · rcases List.mem_cons.mp h with h | h
      · exact Or.inl h
      · exact Or.inr (List.mem_cons_of_mem _ h)
    · exact (List.mem_cons.mp h)
    · rcases List.mem_cons.mp h with rfl | h
      · exact Or.inr List.mem_cons_self
      · exact (ih h).imp_right (List.mem_cons_of_mem _)

theorem ascending_insert (h : Ascending members) : Ascending (insert key value members) := by
  induction members with
  | nil => exact List.pairwise_singleton _ _
  | cons first members ih =>
    obtain ⟨hfirst, hrest⟩ := List.pairwise_cons.mp h
    rw [insert]
    split_ifs with heq hle
    · subst heq
      exact List.pairwise_cons.mpr ⟨hfirst, hrest⟩
    · have hlt : key < first.1 := Decidable.byContradiction fun hge =>
        heq (List.le_antisymm (List.not_lt.mp (Text.le_iff.mp hle)) (List.not_lt.mp hge))
      refine List.pairwise_cons.mpr ⟨fun member hmember => ?_, h⟩
      rcases List.mem_cons.mp hmember with rfl | hmember
      · exact hlt
      · exact List.lt_trans hlt (hfirst member hmember)
    · have hlt : first.1 < key := Decidable.byContradiction fun hge =>
        hle (Text.le_iff.mpr hge)
      refine List.pairwise_cons.mpr ⟨fun member hmember => ?_, ih hrest⟩
      rcases mem_insert hmember with rfl | hmember
      · exact hlt
      · exact hfirst member hmember

theorem insert_of_lt (h : ∀ member ∈ members, member.1 < key) :
    insert key value members = members ++ [(key, value)] := by
  induction members with
  | nil => rfl
  | cons first members ih =>
    obtain ⟨hfirst, hrest⟩ := List.forall_mem_cons.mp h
    have hne : key ≠ first.1 := fun heq => List.lt_irrefl key (by rwa [← heq] at hfirst)
    have hle : Text.le key first.1 = false := by
      rw [← Bool.not_eq_true, Text.le_iff]
      exact not_not_intro hfirst
    rw [insert, if_neg hne, if_neg (by simp [hle]), ih hrest]
    rfl

theorem lookup_cons_of_ne {k : Text} (h : k ≠ key) :
    ((key, value) :: members).lookup k = members.lookup k := by
  have hne : (k == key) = false := by simpa using h
  rw [List.lookup_cons, hne]

theorem lookup_insert (k : Text) :
    (insert key value members).lookup k = if k = key then some value else members.lookup k := by
  induction members with
  | nil =>
    rw [insert]
    split_ifs with hk
    · subst hk
      exact List.lookup_cons_self
    · exact lookup_cons_of_ne hk
  | cons first members ih =>
    obtain ⟨key', value'⟩ := first
    rw [insert]
    split_ifs with heq hk hle hk hk
    · subst hk
      exact List.lookup_cons_self
    · dsimp only at heq
      rw [lookup_cons_of_ne hk, lookup_cons_of_ne (heq ▸ hk)]
    · subst hk
      exact List.lookup_cons_self
    · exact lookup_cons_of_ne hk
    · subst hk
      rw [lookup_cons_of_ne heq, ih, if_pos rfl]
    · rw [if_neg hk] at ih
      rw [List.lookup_cons, List.lookup_cons, ih]

end Insert

section Members

variable {members sorted : List (Text × JsonValue)}

theorem ascending_canonicalMembers (h : Ascending sorted) :
    Ascending (canonicalMembers members sorted) := by
  induction members generalizing sorted with
  | nil => simpa [canonicalMembers] using h
  | cons member members ih =>
    rw [canonicalMembers]
    exact ih (ascending_insert h)

theorem mem_canonicalMembers {member : Text × JsonValue}
    (h : member ∈ canonicalMembers members sorted) :
    member ∈ sorted ∨ ∃ m ∈ members, member = (m.1, m.2.canonical) := by
  induction members generalizing sorted with
  | nil => exact Or.inl (by simpa [canonicalMembers] using h)
  | cons first members ih =>
    rw [canonicalMembers] at h
    rcases ih h with h | ⟨m, hm, heq⟩
    · rcases mem_insert h with rfl | h
      · exact Or.inr ⟨first, List.mem_cons_self, rfl⟩
      · exact Or.inl h
    · exact Or.inr ⟨m, List.mem_cons_of_mem _ hm, heq⟩

theorem canonicalMembers_of_ascending (h : Ascending (sorted ++ members))
    (hvalues : ∀ member ∈ members, member.2.canonical = member.2) :
    canonicalMembers members sorted = sorted ++ members := by
  induction members generalizing sorted with
  | nil => simp [canonicalMembers]
  | cons member members ih =>
    obtain ⟨hvalue, hrest⟩ := List.forall_mem_cons.mp hvalues
    have hbefore : ∀ m ∈ sorted, m.1 < member.1 := fun m hm =>
      (List.pairwise_append.mp h).2.2 m hm member List.mem_cons_self
    rw [canonicalMembers, hvalue, insert_of_lt hbefore, ih (by simpa using h) hrest,
      List.append_assoc]
    rfl

/-- Every key keeps its value, in canonical form. -/
theorem lookup_canonicalMembers (h : (members.map (·.1)).Nodup) (k : Text) :
    (canonicalMembers members sorted).lookup k =
      ((members.lookup k).map canonical).or (sorted.lookup k) := by
  induction members generalizing sorted with
  | nil => simp [canonicalMembers]
  | cons member members ih =>
    obtain ⟨key, value⟩ := member
    obtain ⟨hnew, hrest⟩ := List.nodup_cons.mp h
    rw [canonicalMembers, ih hrest, lookup_insert]
    by_cases hk : k = key
    · subst hk
      have hnone : members.lookup k = none := by
        rw [List.lookup_eq_none_iff]
        intro m hm
        have hne : m.1 ≠ k := fun heq => hnew (List.mem_map.mpr ⟨m, hm, heq⟩)
        simpa using hne.symm
      rw [hnone, if_pos rfl, List.lookup_cons_self]
      rfl
    · rw [if_neg hk, lookup_cons_of_ne hk]

end Members

theorem canonicalItems_eq_map (items : List JsonValue) :
    canonicalItems items = items.map canonical := by
  induction items with
  | nil => simp [canonicalItems]
  | cons item items ih => rw [canonicalItems, ih, List.map_cons]

end JsonValue
end NamespaceMigration
