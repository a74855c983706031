import NamespaceMigration.Proofs.Naming.Signs
import NamespaceMigration.Proofs.Planning.Declared

/-! New namespaces, segment by segment: the segments of the lead, then what is not the lead of the old
namespace, with an underscore after what is reserved. -/
namespace NamespaceMigration

open Identifier (isIdentifier isSegment withSuffix sanitizeNamespace)

namespace Word

theorem isReserved_underscore (t : Text) : isReserved (t ++ ['_']) = false := by
  rw [Bool.eq_false_iff]
  intro hreserved
  exact getLast?_of_isReserved hreserved List.getLast?_concat

end Word

/-- A segment as it is written in a new namespace. -/
def safeSegment (s : Text) : Text := withSuffix s ['_']

theorem isReserved_safeSegment (s : Text) : Word.isReserved (safeSegment s) = false := by
  rw [safeSegment, withSuffix]
  split
  · exact Word.isReserved_underscore s
  · rename_i h
    simpa using h

theorem safeSegment_of_not_reserved {s : Text} (h : Word.isReserved s = false) : safeSegment s = s := by
  rw [safeSegment, withSuffix, if_neg (by simpa using h)]

theorem safeSegment_safeSegment (s : Text) : safeSegment (safeSegment s) = safeSegment s :=
  safeSegment_of_not_reserved (isReserved_safeSegment s)

theorem mem_safeSegment {s : Text} {c : Char} (h : c ∈ safeSegment s) : c ∈ s ∨ c = '_' := by
  rw [safeSegment, withSuffix] at h
  split at h
  · rw [List.mem_append, List.mem_singleton] at h
    exact h
  · exact Or.inl h

theorem safeSegment_plain {s : Text} (h : s ≠ [] ∧ '\\' ∉ s) :
    safeSegment s ≠ [] ∧ '\\' ∉ safeSegment s := by
  refine ⟨?_, fun hmem => ?_⟩
  · rw [safeSegment, withSuffix]
    split
    · exact List.append_ne_nil_of_left_ne_nil h.1 _
    · exact h.1
  · rcases mem_safeSegment hmem with hmem | hsign
    · exact h.2 hmem
    · cases hsign

theorem isSegment_safeSegment {s : Text} : isSegment (safeSegment s) = isIdentifier (safeSegment s) := by
  rw [isSegment, isReserved_safeSegment, Bool.not_false, Bool.and_true]

theorem sanitizeNamespace_join {ss : List Text} (h : AreSegments ss) :
    sanitizeNamespace (Text.join ['\\'] ss) = Text.join ['\\'] (ss.map safeSegment) := by
  rw [sanitizeNamespace, h.splitOn]
  rfl

namespace PlanConfig

variable {c : PlanConfig}

def leadParts (c : PlanConfig) : List Text := c.lead.splitOn '\\'

theorem isSegment_leadParts (h : c.validate = .ok ()) : ∀ s ∈ c.leadParts, isSegment s := by
  rw [validate] at h
  by_cases hlead : Identifier.isNamespace c.lead
  · rw [Identifier.isNamespace, Bool.and_eq_true, List.all_eq_true] at hlead
    exact hlead.2
  · rw [if_pos (by simpa using hlead)] at h
    cases h

theorem leadParts_ne_nil (c : PlanConfig) : c.leadParts ≠ [] := List.splitOn_ne_nil _ _

theorem join_leadParts (c : PlanConfig) : Text.join ['\\'] c.leadParts = c.lead :=
  Text.join_splitOn '\\' c.lead

theorem areSegments_leadParts (h : c.validate = .ok ()) : AreSegments c.leadParts :=
  .of_forall c.leadParts_ne_nil fun s hs => (Bool.and_eq_true_iff.mp (isSegment_leadParts h s hs)).1

theorem safeSegment_leadParts (h : c.validate = .ok ()) :
    c.leadParts.map safeSegment = c.leadParts := by
  refine (List.map_congr_left fun s hs => ?_).trans (List.map_id _)
  refine safeSegment_of_not_reserved ?_
  have hsegment := isSegment_leadParts h s hs
  rw [isSegment, Bool.and_eq_true, Bool.not_eq_true'] at hsegment
  exact hsegment.2

/-- The segments of a namespace that come after the lead in the new one. -/
def restParts (c : PlanConfig) (parts : List Text) : List Text :=
  if !c.append && c.leadParts.isPrefixOf parts then parts.drop c.leadParts.length else parts

/-- The segments of the new namespace for an old one. -/
def newParts (c : PlanConfig) (parts : List Text) : List Text :=
  c.leadParts ++ (c.restParts parts).map safeSegment

theorem mem_restParts {parts : List Text} {s : Text} (h : s ∈ c.restParts parts) : s ∈ parts := by
  rw [restParts] at h
  split at h
  · exact List.mem_of_mem_drop h
  · exact h

theorem newParts_ne_nil (parts : List Text) : c.newParts parts ≠ [] :=
  List.append_ne_nil_of_left_ne_nil c.leadParts_ne_nil _

theorem areSegments_newParts (h : c.validate = .ok ()) {parts : List Text}
    (hparts : ∀ s ∈ parts, s ≠ [] ∧ '\\' ∉ s) : AreSegments (c.newParts parts) := by
  refine (areSegments_leadParts h).append fun s hs => ?_
  obtain ⟨old, hold, rfl⟩ := List.mem_map.mp hs
  exact safeSegment_plain (hparts old (mem_restParts hold))

theorem newParts_of_settled (happend : c.append = false) {rest : List Text}
    (hrest : rest.map safeSegment = rest) : c.newParts (c.leadParts ++ rest) = c.leadParts ++ rest := by
  have hlead : c.leadParts.isPrefixOf (c.leadParts ++ rest) :=
    List.isPrefixOf_iff_prefix.mpr (List.prefix_append _ _)
  have hdropped : c.restParts (c.leadParts ++ rest) = rest := by
    rw [restParts, happend, hlead]
    exact List.drop_left
  rw [newParts, hdropped, hrest]

/-- The lead goes away as a whole number of segments. -/
theorem withoutLead_join (h : c.validate = .ok ()) {parts : List Text} (hparts : AreSegments parts) :
    (c.withoutLead (Text.join ['\\'] parts)).getD [] =
      Text.join ['\\'] (if c.leadParts.isPrefixOf parts then parts.drop c.leadParts.length else parts) := by
  have hlead := areSegments_leadParts h
  have hleadText := join_leadParts c
  have hne : c.lead.isEmpty = false := by
    rw [← hleadText, List.isEmpty_eq_false_iff]
    exact hlead.isSpace.ne_nil
  rw [withoutLead, hne, if_neg Bool.false_ne_true]
  by_cases hprefix : c.leadParts.isPrefixOf parts
  · obtain ⟨rest, rfl⟩ := List.isPrefixOf_iff_prefix.mp hprefix
    rw [if_pos hprefix, List.drop_left]
    by_cases hrest : rest = []
    · subst hrest
      have hdrop : Text.dropLead? c.lead (Text.join ['\\'] (c.leadParts ++ [])) = some [] := by
        rw [Text.dropLead?_eq_some_iff, List.append_nil, List.append_nil, hleadText]
      rw [hdrop]
      rfl
    · have hdrop : Text.dropLead? c.lead (Text.join ['\\'] (c.leadParts ++ rest)) =
          some ('\\' :: Text.join ['\\'] rest) := by
        rw [Text.dropLead?_eq_some_iff, Text.join_append _ hlead.ne_nil hrest, hleadText]
      rw [hdrop]
      rfl
  · rw [if_neg hprefix]
    have hwhole : (some (Text.join ['\\'] parts)).getD [] = Text.join ['\\'] parts := rfl
    cases hdrop : Text.dropLead? c.lead (Text.join ['\\'] parts) with
    | none => exact hwhole
    | some rest =>
      rw [Text.dropLead?_eq_some_iff] at hdrop
      -- The lead is at the start of the text, but not as whole segments.
      have hnot (rest : List Text) (heq : parts = c.leadParts ++ rest) : False :=
        hprefix (List.isPrefixOf_iff_prefix.mpr ⟨rest, heq.symm⟩)
      cases rest with
      | nil =>
        rw [List.append_nil, ← hleadText] at hdrop
        have heq := Text.join_injective (fun s hs => (hparts.plain s hs).2) hparts.ne_nil
          (fun s hs => (hlead.plain s hs).2) hlead.ne_nil hdrop
        exact (hnot [] (heq.trans (List.append_nil _).symm)).elim
      | cons d rest =>
        by_cases hd : d = '\\'
        · subst hd
          have hrest : rest.splitOn '\\' ≠ [] := List.splitOn_ne_nil _ _
          have hplain : ∀ s ∈ c.leadParts ++ rest.splitOn '\\', '\\' ∉ s :=
            List.forall_mem_append.mpr ⟨fun s hs => (hlead.plain s hs).2, splitOn_not_mem '\\' rest⟩
          rw [← hleadText, ← Text.join_splitOn '\\' rest, ← Text.join_append _ hlead.ne_nil hrest] at hdrop
          have heq := Text.join_injective (fun s hs => (hparts.plain s hs).2) hparts.ne_nil hplain
            (List.append_ne_nil_of_left_ne_nil hlead.ne_nil _) hdrop
          exact (hnot _ heq).elim
        · split
          · rename_i hsome
            cases hsome
          · rename_i hsome
            cases hsome
            exact absurd rfl hd
          · exact hwhole

theorem newSpace?_join (h : c.validate = .ok ()) {parts : List Text} (hparts : AreSegments parts) :
    c.newSpace? (some (Text.join ['\\'] parts)) = some (Text.join ['\\'] (c.newParts parts)) := by
  have hlead := areSegments_leadParts h
  have hrest : (if c.append then some (Text.join ['\\'] parts)
      else c.withoutLead (Text.join ['\\'] parts)).getD [] = Text.join ['\\'] (c.restParts parts) := by
    rw [restParts]
    cases c.append with
    | true => rfl
    | false => exact withoutLead_join h hparts
  have hjoined : (if (Text.join ['\\'] (c.restParts parts)).isEmpty then QualifiedName.ofText c.lead
      else QualifiedName.join (some c.lead) (Text.join ['\\'] (c.restParts parts))) =
        ⟨Text.join ['\\'] (c.leadParts ++ c.restParts parts)⟩ := by
    by_cases hnil : c.restParts parts = []
    · rw [hnil, List.append_nil, ← QualifiedName.ofText_join hlead, join_leadParts]
      rfl
    · have hsegments : AreSegments (c.restParts parts) :=
        ⟨hnil, fun s hs => hparts.plain s (mem_restParts hs)⟩
      rw [if_neg (by simpa using hsegments.isSpace.ne_nil), ← QualifiedName.join_segments hlead hsegments,
        join_leadParts]
  have hall : AreSegments (c.leadParts ++ c.restParts parts) :=
    hlead.append fun s hs => hparts.plain s (mem_restParts hs)
  rw [newSpace?, Option.bind_eq_bind, Option.bind_some]
  dsimp only
  rw [hrest, hjoined, if_neg (by simpa using hall.isSpace.ne_nil), sanitizeNamespace_join hall, newParts,
    List.map_append, safeSegment_leadParts h]

end PlanConfig
end NamespaceMigration
