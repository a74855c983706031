import NamespaceMigration.Proofs.Planning.Spaces

/-! New names of types, segment by segment. What underscores cut off the short name comes after the new
namespace, with capitals and with an underscore after what is reserved; what is left is the new short
name, with a capital and, if it is reserved, behind the last segment. -/
namespace NamespaceMigration

open Identifier (withLead sanitizeNamespace)

namespace Text

theorem mem_join_of_mem {c d : Char} {ts : List Text} {t : Text} (ht : t ∈ ts) (hd : d ∈ t) :
    d ∈ join [c] ts := by
  induction ts with
  | nil => cases ht
  | cons u us ih =>
    by_cases hus : us = []
    · subst hus
      rw [List.mem_singleton] at ht
      rwa [join_singleton, ← ht]
    · rw [join_cons c u hus, List.mem_append, List.mem_cons]
      rcases List.mem_cons.mp ht with rfl | ht
      · exact Or.inl hd
      · exact Or.inr (Or.inr (ih ht))

theorem mem_of_mem_splitOn {c d : Char} {t u : Text} (hu : u ∈ t.splitOn c) (hd : d ∈ u) : d ∈ t := by
  have hmem := mem_join_of_mem (c := c) hu hd
  rwa [join_splitOn] at hmem

end Text

namespace PlanConfig

theorem splitShort?_eq_some {t : Text} {pieces : List Text} {last : Text}
    (h : splitShort? t = some (pieces, last)) : ∃ head, t = head ++ '_' :: last ∧ last ≠ [] ∧
      '_' ∉ last ∧ pieces = (head.splitOn '_').filter (!·.isEmpty) := by
  rw [splitShort?] at h
  split at h
  · rename_i head tail hsplit
    obtain ⟨ht, htail⟩ := Text.splitAtLast?_eq_some_iff.mp hsplit
    split at h
    · cases h
    · rename_i hne
      cases h
      exact ⟨head, ht, by simpa using hne, htail, rfl⟩
  · cases h

theorem splitShort?_eq_none_iff {t : Text} :
    splitShort? t = none ↔ '_' ∉ t ∨ t.getLast? = some '_' := by
  rw [splitShort?]
  cases hsplit : Text.splitAtLast? '_' t with
  | none =>
    rw [Text.splitAtLast?_eq_none_iff] at hsplit
    exact iff_of_true rfl (Or.inl hsplit)
  | some halves =>
    obtain ⟨head, tail⟩ := halves
    obtain ⟨rfl, htail⟩ := Text.splitAtLast?_eq_some_iff.mp hsplit
    by_cases hnil : tail = []
    · subst hnil
      exact iff_of_true rfl (Or.inr List.getLast?_concat)
    · have hlast : (head ++ '_' :: tail).getLast? ≠ some '_' := by
        rw [List.append_cons, List.getLast?_append_of_ne_nil _ hnil]
        exact fun hmem => htail (List.mem_of_getLast? hmem)
      have hmem : '_' ∈ head ++ '_' :: tail := List.mem_append_right _ List.mem_cons_self
      dsimp only
      rw [if_neg (by simpa using hnil)]
      exact iff_of_false (Option.some_ne_none _) (not_or.mpr ⟨not_not.mpr hmem, hlast⟩)

/-- The pieces that underscores cut off a short name, and what is left of it. -/
def shortParts (c : PlanConfig) (space? : Option Text) (short : Text) : List Text × Text :=
  (if c.splitsUnderscores space? then splitShort? short else none).getD ([], short)

section ShortParts

variable {c : PlanConfig} {space? : Option Text} {short : Text}

theorem shortParts_of_none (h : c.splitsUnderscores space? → splitShort? short = none) :
    c.shortParts space? short = ([], short) := by
  rw [shortParts]
  split
  · rename_i hsplits
    rw [h hsplits]
    rfl
  · rfl

theorem shortParts_cases (c : PlanConfig) (space? : Option Text) (short : Text) :
    c.shortParts space? short = ([], short) ∨ ∃ pieces last,
      c.shortParts space? short = (pieces, last) ∧ splitShort? short = some (pieces, last) := by
  rw [shortParts]
  split
  · cases splitShort? short with
    | none => exact Or.inl rfl
    | some cut => exact Or.inr ⟨cut.1, cut.2, rfl, rfl⟩
  · exact Or.inl rfl

theorem mem_pieces {piece : Text} (hpiece : piece ∈ (c.shortParts space? short).1) :
    piece ≠ [] ∧ piece ⊆ short := by
  rcases shortParts_cases c space? short with hwhole | ⟨pieces, last, heq, hcut⟩
  · rw [hwhole] at hpiece
    cases hpiece
  · obtain ⟨head, hshort, -, -, hpieces⟩ := splitShort?_eq_some hcut
    rw [heq] at hpiece
    rw [hpieces, List.mem_filter, Bool.not_eq_true', List.isEmpty_eq_false_iff] at hpiece
    refine ⟨hpiece.2, fun d hd => ?_⟩
    rw [hshort]
    exact List.mem_append_left _ (Text.mem_of_mem_splitOn hpiece.1 hd)

theorem last_subset (hshort : short ≠ []) :
    (c.shortParts space? short).2 ≠ [] ∧ (c.shortParts space? short).2 ⊆ short := by
  rcases shortParts_cases c space? short with hwhole | ⟨pieces, last, heq, hcut⟩
  · rw [hwhole]
    exact ⟨hshort, List.Subset.refl _⟩
  · obtain ⟨head, hhead, hne, -, -⟩ := splitShort?_eq_some hcut
    rw [heq]
    refine ⟨hne, fun d hd => ?_⟩
    rw [hhead]
    exact List.mem_append_right _ (List.mem_cons_of_mem _ hd)

theorem splitShort?_last (h : c.splitsUnderscores space?) :
    splitShort? (c.shortParts space? short).2 = none := by
  cases hcut : splitShort? short with
  | none => rwa [shortParts_of_none fun _ => hcut]
  | some cut =>
    have hparts : c.shortParts space? short = cut := by
      rw [shortParts, if_pos h, hcut]
      rfl
    obtain ⟨-, -, -, hmem, -⟩ := splitShort?_eq_some hcut
    rw [hparts, splitShort?_eq_none_iff]
    exact Or.inl hmem

end ShortParts

section Types

variable (c : PlanConfig) (parts : List Text) (short : Text)

/-- The segments of the new namespace of a type. -/
def typeParts : List Text :=
  c.newParts parts ++ (c.shortParts (spaceOf parts) short).1.map fun piece =>
    safeSegment (Text.capitalize piece)

/-- The last of these segments, which reserved short names are put behind. -/
def typeLead : Text := (c.typeParts parts short).getLastD []

/-- The new short name, if it is not reserved. -/
def typeLast : Text := Text.capitalize (c.shortParts (spaceOf parts) short).2

def typeShort : Text := withLead (c.typeLast parts short) (c.typeLead parts short)

end Types

variable {c : PlanConfig} {parts : List Text} {short : Text}

theorem plain_capitalize {s : Text} (h : s ≠ [] ∧ s ⊆ short) (hshort : '\\' ∉ short) :
    Text.capitalize s ≠ [] ∧ '\\' ∉ Text.capitalize s :=
  ⟨Text.capitalize_ne_nil h.1, Text.not_mem_capitalize isSign_backslash.alpha isSign_backslash.ascii
    fun hmem => hshort (h.2 hmem)⟩

theorem withLead_plain {word lead : Text} (hword : word ≠ [] ∧ '\\' ∉ word)
    (hlead : lead ≠ [] ∧ '\\' ∉ lead) : withLead word lead ≠ [] ∧ '\\' ∉ withLead word lead := by
  rw [withLead]
  split
  · refine ⟨List.append_ne_nil_of_left_ne_nil hlead.1 _, fun hmem => ?_⟩
    rcases List.mem_append.mp hmem with hmem | hmem
    · exact hlead.2 hmem
    · exact hword.2 hmem
  · exact hword

theorem typeLast_plain (hshort : short ≠ [] ∧ '\\' ∉ short) :
    c.typeLast parts short ≠ [] ∧ '\\' ∉ c.typeLast parts short :=
  plain_capitalize (last_subset hshort.1) hshort.2

theorem capitalize_typeLast : Text.capitalize (c.typeLast parts short) = c.typeLast parts short :=
  Text.capitalize_capitalize _

theorem splitShort?_typeLast (h : c.splitsUnderscores (spaceOf parts)) :
    splitShort? (c.typeLast parts short) = none := by
  have hlast : splitShort? (c.shortParts (spaceOf parts) short).2 = none := splitShort?_last h
  rw [splitShort?_eq_none_iff] at hlast ⊢
  rcases hlast with hmem | hend
  · exact Or.inl (Text.not_mem_capitalize isSign_underscore.alpha isSign_underscore.ascii hmem)
  · exact Or.inr (Text.getLast?_capitalize isSign_underscore hend)

theorem typeParts_ne_nil : c.typeParts parts short ≠ [] :=
  List.append_ne_nil_of_left_ne_nil (newParts_ne_nil parts) _

theorem typeParts_eq_concat :
    c.typeParts parts short = (c.typeParts parts short).dropLast ++ [c.typeLead parts short] := by
  rw [typeLead, List.getLastD_eq_getLast?, List.getLast?_eq_some_getLast typeParts_ne_nil]
  exact (List.dropLast_append_getLast typeParts_ne_nil).symm

theorem typeLead_mem : c.typeLead parts short ∈ c.typeParts parts short := by
  rw [typeParts_eq_concat]
  exact List.mem_append_right _ List.mem_cons_self

section Plain

variable (h : c.validate = .ok ()) (hparts : ∀ s ∈ parts, s ≠ [] ∧ '\\' ∉ s)
include h hparts

theorem newSpace?_getD :
    (c.newSpace? (spaceOf parts)).getD c.lead = Text.join ['\\'] (c.newParts parts) := by
  by_cases hnil : parts = []
  · subst hnil
    have hrest : c.restParts [] = [] := by
      refine List.eq_nil_iff_forall_not_mem.mpr fun s hs => ?_
      cases mem_restParts hs
    rw [newParts, hrest, List.map_nil, List.append_nil, join_leadParts]
    rfl
  · rw [spaceOf_of_ne_nil hnil, newSpace?_join h ⟨hnil, hparts⟩]
    rfl

variable (hshort : short ≠ [] ∧ '\\' ∉ short)
include hshort

theorem areSegments_typeParts : AreSegments (c.typeParts parts short) := by
  refine (areSegments_newParts h hparts).append fun s hs => ?_
  obtain ⟨piece, hpiece, rfl⟩ := List.mem_map.mp hs
  exact safeSegment_plain (plain_capitalize (mem_pieces hpiece) hshort.2)

theorem typeLead_plain : c.typeLead parts short ≠ [] ∧ '\\' ∉ c.typeLead parts short :=
  (areSegments_typeParts h hparts hshort).plain _ typeLead_mem

theorem typeShort_plain : c.typeShort parts short ≠ [] ∧ '\\' ∉ c.typeShort parts short :=
  withLead_plain (typeLast_plain hshort) (typeLead_plain h hparts hshort)

/-- The pieces of the short name come after the segments of the new namespace. -/
theorem typeSpace :
    (if (c.shortParts (spaceOf parts) short).1.isEmpty then Text.join ['\\'] (c.newParts parts)
    else (QualifiedName.join (some (Text.join ['\\'] (c.newParts parts))) (sanitizeNamespace
      (Text.join ['\\'] ((c.shortParts (spaceOf parts) short).1.map Text.capitalize)))).text) =
    Text.join ['\\'] (c.typeParts parts short) := by
  have hpieces : ∀ piece ∈ (c.shortParts (spaceOf parts) short).1,
      Text.capitalize piece ≠ [] ∧ '\\' ∉ Text.capitalize piece :=
    fun piece hpiece => plain_capitalize (mem_pieces hpiece) hshort.2
  rw [typeParts]
  generalize (c.shortParts (spaceOf parts) short).1 = pieces at hpieces
  by_cases hnil : pieces = []
  · subst hnil
    simp only [List.map_nil, List.append_nil, List.isEmpty_nil, if_true]
  · have hne : pieces.map Text.capitalize ≠ [] := List.map_eq_nil_iff.not.mpr hnil
    have hinner : AreSegments (pieces.map Text.capitalize) :=
      ⟨hne, List.forall_mem_map.mpr hpieces⟩
    have hsafe : AreSegments ((pieces.map Text.capitalize).map safeSegment) :=
      ⟨List.map_eq_nil_iff.not.mpr hne,
        List.forall_mem_map.mpr fun s hs => safeSegment_plain (hinner.plain s hs)⟩
    rw [if_neg (by simpa using hnil), sanitizeNamespace_join hinner,
      QualifiedName.join_segments (areSegments_newParts h hparts) hsafe, List.map_map]
    rfl

theorem newTypeName_nameIn :
    c.newTypeName (nameIn parts short) = nameIn (c.typeParts parts short) (c.typeShort parts short) := by
  have hall := areSegments_typeParts h hparts hshort
  have hlead := typeLead_plain h hparts hshort
  have hspace := typeSpace h hparts hshort
  have hlast : lastSegment (Text.join ['\\'] (c.typeParts parts short)) = c.typeLead parts short := by
    rw [typeParts_eq_concat]
    exact lastSegment_segments hlead.2
  have hjoin := join_nameIn hall.plain (typeShort_plain h hparts hshort)
  rw [spaceOf_of_ne_nil hall.ne_nil] at hjoin
  rw [newTypeName]
  dsimp only
  rw [space?_nameIn hshort.2, short_nameIn hshort.2, newSpace?_getD h hparts]
  rw [shortParts] at hspace
  rw [hspace, hlast, if_neg (by simpa using hlead.1)]
  exact hjoin

end Plain

end PlanConfig

/-- A lead of one segment, and underscores that separate namespaces. -/
def underscored : PlanConfig := { PlanConfig.ofLead "Acme" with underscore := true }

theorem underscored_validate : underscored.validate = .ok () := by rfl

end NamespaceMigration
