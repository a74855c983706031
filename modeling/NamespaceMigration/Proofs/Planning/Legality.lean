import NamespaceMigration.Proofs.Naming.Signs
import NamespaceMigration.Proofs.Planning.Decisions
import NamespaceMigration.Proofs.Planning.Types

/-! Which new names of types are legal. Capitals and underscores keep identifiers identifiers; a digit
behind an underscore makes none, and what stands behind the lead may be reserved again. -/
namespace NamespaceMigration

open Identifier (isIdentifier isSegment withLead)
open Lexer (isNameChar)

theorem isIdentifier_safeSegment_iff {s : Text} (h : s ≠ []) :
    isIdentifier (safeSegment s) ↔ isIdentifier s := by
  rw [safeSegment, Identifier.withSuffix]
  split
  · exact isIdentifier_append_iff h (List.forall_mem_singleton.mpr rfl)
  · rfl

theorem isSegment_safeSegment_iff {s : Text} (h : s ≠ []) :
    isSegment (safeSegment s) ↔ isIdentifier s := by
  rw [isSegment_safeSegment, isIdentifier_safeSegment_iff h]

namespace PlanConfig

variable {c : PlanConfig} {parts : List Text} {short : Text}

theorem isSegment_typeParts_iff (h : c.validate = .ok ()) (hname : IsDeclared parts short) :
    (∀ s ∈ c.typeParts parts short, isSegment s) ↔
      ∀ piece ∈ (c.shortParts (spaceOf parts) short).1, isIdentifier piece := by
  have hnew : ∀ s ∈ c.newParts parts, isSegment s := by
    refine List.forall_mem_append.mpr ⟨isSegment_leadParts h, List.forall_mem_map.mpr fun s hs => ?_⟩
    have hid := hname.parts s (mem_restParts hs)
    exact (isSegment_safeSegment_iff (isIdentifier_plain hid).1).mpr hid
  rw [typeParts, List.forall_mem_append, and_iff_right hnew, List.forall_mem_map]
  refine forall₂_congr fun piece hpiece => ?_
  obtain ⟨hne, hsubset⟩ := mem_pieces hpiece
  have hchars : ∀ c ∈ piece, isNameChar c :=
    fun c hc => isNameChar_of_isIdentifier hname.short c (hsubset hc)
  rw [isSegment_safeSegment_iff (Text.capitalize_ne_nil hne), isIdentifier_capitalize_iff hchars]

/-- In a legal namespace a reserved last part has to be free behind the lead, and any other one has to
be an identifier. -/
theorem isSegment_typeShort_iff (hname : IsDeclared parts short)
    (hlead : isIdentifier (c.typeLead parts short)) :
    isSegment (c.typeShort parts short) ↔
      if Word.isReserved (c.typeLast parts short) then
        Word.isReserved (c.typeLead parts short ++ c.typeLast parts short) = false
      else isIdentifier (c.shortParts (spaceOf parts) short).2 = true := by
  have hshort := isIdentifier_plain hname.short
  have hchars : ∀ d ∈ (c.shortParts (spaceOf parts) short).2, isNameChar d :=
    fun d hd => isNameChar_of_isIdentifier hname.short d ((last_subset hshort.1).2 hd)
  rw [typeShort, withLead]
  split
  · have hid := (isIdentifier_append_iff (isIdentifier_plain hlead).1
      (isNameChar_capitalize hchars)).mpr hlead
    rw [isSegment, Bool.and_eq_true, Bool.not_eq_true', typeLast, and_iff_right hid]
  · rename_i hfree
    rw [isSegment, Bool.and_eq_true, Bool.not_eq_true', and_iff_left (by simpa using hfree), typeLast,
      isIdentifier_capitalize_iff hchars]

theorem planned_new {kind : DeclarationKind} (h : c.validate = .ok ()) (hname : IsDeclared parts short)
    (hkind : kind.isType) : (c.planned kind (nameIn parts short) false).new =
      if c.ignores (spaceOf parts) then nameIn parts short
      else nameIn (c.typeParts parts short) (c.typeShort parts short) := by
  have hshort := isIdentifier_plain hname.short
  have hnew : c.newName kind (nameIn parts short) false =
      nameIn (c.typeParts parts short) (c.typeShort parts short) :=
    (if_pos ⟨hkind, rfl⟩).trans
      (newTypeName_nameIn h (fun s hs => isIdentifier_plain (hname.parts s hs)) hshort)
  rw [planned, space?_nameIn hshort.2, hnew]

/-- The new name of a type is legal exactly if what underscores cut off its short name are identifiers,
and what is left is an identifier or, as a reserved word, is not reserved behind the lead. -/
theorem new_legal_iff (h : c.validate = .ok ()) {path t : Text} {d : Decision}
    (hd : d ∈ (FilePlan.ofText c path t).decisions) (hexclusive : d.exclusive)
    (hkept : d.ignored = false) :
    ∃ component, d.components = [component] ∧
      let parts := spaceParts d.oldSpace?
      let short := component.old.short
      ((∀ s ∈ component.new.segments, isSegment s) ↔
        (∀ piece ∈ (c.shortParts d.oldSpace? short).1, isIdentifier piece) ∧
        if Word.isReserved (c.typeLast parts short) then
          Word.isReserved (c.typeLead parts short ++ c.typeLast parts short) = false
        else isIdentifier (c.shortParts d.oldSpace? short).2 = true) := by
  obtain ⟨short, hname, htype, hignored, hcomponents, -⟩ := FilePlan.exclusive_spec hd hexclusive
  have hparts : ∀ s ∈ spaceParts d.oldSpace?, s ≠ [] ∧ '\\' ∉ s :=
    fun s hs => isIdentifier_plain (hname.parts s hs)
  have hshort := isIdentifier_plain hname.short
  have hold : (c.planned d.kind (nameIn (spaceParts d.oldSpace?) short) false).old.short = short :=
    short_nameIn hshort.2
  have hnew : (c.planned d.kind (nameIn (spaceParts d.oldSpace?) short) false).new =
      nameIn (c.typeParts (spaceParts d.oldSpace?) short)
        (c.typeShort (spaceParts d.oldSpace?) short) := by
    rw [planned_new h hname htype, spaceOf_spaceParts, ← hignored, hkept]
    rfl
  have hsegments := (areSegments_typeParts h hparts hshort).append
    (List.forall_mem_singleton.mpr (typeShort_plain h hparts hshort))
  have hspaceLegal := isSegment_typeParts_iff h hname
  rw [spaceOf_spaceParts] at hspaceLegal
  refine ⟨_, hcomponents, ?_⟩
  dsimp only
  rw [hnew, hold, nameIn, QualifiedName.segments_join hsegments, List.forall_mem_append,
    List.forall_mem_singleton, hspaceLegal]
  refine and_congr_right fun hpieces => ?_
  have hlead := hspaceLegal.mpr hpieces _ typeLead_mem
  rw [isSegment, Bool.and_eq_true] at hlead
  have hshortLegal := isSegment_typeShort_iff hname hlead.1
  rwa [spaceOf_spaceParts] at hshortLegal

end PlanConfig

/-- A class whose last part is reserved, and reserved again behind its namespace. -/
def endIf : Text := "<?php class End_If {}"

theorem endIf_decisions : (FilePlan.ofText underscored "a.php" endIf).decisions.length = 1 := by
  decide +kernel

def endIfDecision : Decision :=
  (FilePlan.ofText underscored "a.php" endIf).decisions.get ⟨0, by rw [endIf_decisions]; decide⟩

theorem endIf_illegal : endIfDecision.components =
      [⟨.classLike .classDecl, ⟨"End_If"⟩, ⟨"Acme\\End\\EndIf"⟩⟩] ∧
    ¬∀ s ∈ (⟨"Acme\\End\\EndIf"⟩ : QualifiedName).segments, isSegment s := by
  obtain ⟨hcomponents, hspace, hexclusive, hkept⟩ : endIfDecision.components =
      [⟨.classLike .classDecl, ⟨"End_If"⟩, ⟨"Acme\\End\\EndIf"⟩⟩] ∧ endIfDecision.oldSpace? = none ∧
        endIfDecision.exclusive ∧ endIfDecision.ignored = false := by decide +kernel
  obtain ⟨component, hcomponent, hiff⟩ := PlanConfig.new_legal_iff underscored_validate
    (show endIfDecision ∈ _ from List.get_mem _ _) hexclusive hkept
  obtain rfl := List.singleton_inj.mp (hcomponent.symm.trans hcomponents)
  rw [hspace] at hiff
  exact ⟨hcomponents, hiff.not.mpr (by decide +kernel)⟩

end NamespaceMigration
