import NamespaceMigration.Proofs.Planning.Components
import NamespaceMigration.Proofs.Planning.Replanning

/-! Two spellings of one name. They are planned as one name exactly if both of them start with the lead
as it is spelled, or none, and reserved words and capitals keep their small forms the same. -/
namespace NamespaceMigration

open Identifier (withLead)

namespace PlanConfig

variable {c : PlanConfig}

theorem splitShort?_fold {f : Text → Text} (hf : IsFold '_' f) {a b : Text} (h : f a = f b) :
    (splitShort? a).map (Prod.map (List.map f) f) = (splitShort? b).map (Prod.map (List.map f) f) := by
  cases ha : Text.splitAtLast? '_' a with
  | none =>
    have hb : Text.splitAtLast? '_' b = none := by
      rw [Text.splitAtLast?_eq_none_iff, ← hf.mem, h, hf.mem] at ha
      exact Text.splitAtLast?_eq_none_iff.mpr ha
    rw [splitShort?, splitShort?, ha, hb]
  | some cut =>
    obtain ⟨head, tail⟩ := cut
    obtain ⟨rfl, htail⟩ := Text.splitAtLast?_eq_some_iff.mp ha
    obtain ⟨head', tail', rfl, htail', hhead, hlast⟩ := hf.exists_split htail h
    have hempty : tail.isEmpty = tail'.isEmpty := by
      rw [Bool.eq_iff_iff, List.isEmpty_iff, List.isEmpty_iff, ← hf.nil, hlast, hf.nil]
    have hpieces : (head.splitOn '_').map f = (head'.splitOn '_').map f := by
      rw [← hf.splitOn, ← hf.splitOn, hhead]
    rw [splitShort?, splitShort?, ha, Text.splitAtLast?_eq_some_iff.mpr ⟨rfl, htail'⟩]
    dsimp only
    rw [hempty]
    split
    · rfl
    · rw [Option.map_some, Option.map_some, Prod.map_apply, Prod.map_apply, hlast,
        hf.filter_ne_nil hpieces]

theorem shortParts_fold {f : Text → Text} (hf : IsFold '_' f) {a? b? : Option Text}
    (hspace : a?.isNone = b?.isNone) {a b : Text} (h : f a = f b) :
    (c.shortParts a? a).1.map f = (c.shortParts b? b).1.map f ∧
      f (c.shortParts a? a).2 = f (c.shortParts b? b).2 := by
  have hparts : Prod.map (List.map f) f (c.shortParts a? a) =
      Prod.map (List.map f) f (c.shortParts b? b) := by
    rw [shortParts, shortParts, splitsUnderscores, splitsUnderscores, hspace,
      ← Option.getD_map (Prod.map (List.map f) f), ← Option.getD_map (Prod.map (List.map f) f)]
    split
    · rw [splitShort?_fold hf h, Prod.map_apply, Prod.map_apply, h]
    · rw [Option.map_none, Option.getD_none, Option.getD_none, Prod.map_apply, Prod.map_apply, h]
  exact Prod.mk.inj hparts

/-- The lead goes away from a namespace before it is put in front again. -/
def dropsLead (c : PlanConfig) (parts : List Text) : Bool := !c.append && c.leadParts.isPrefixOf parts

theorem restParts_eq (parts : List Text) :
    c.restParts parts = parts.drop (if c.dropsLead parts then c.leadParts.length else 0) := by
  rw [restParts, dropsLead]
  split <;> rfl

theorem length_leadParts_le {parts : List Text} (h : c.dropsLead parts) :
    c.leadParts.length ≤ parts.length := by
  rw [dropsLead, Bool.and_eq_true] at h
  exact (List.isPrefixOf_iff_prefix.mp h.2).length_le

theorem safeSegment_fold_iff {xs ys : List Text} (h : xs.map Text.toLower = ys.map Text.toLower) :
    (xs.map safeSegment).map Text.toLower = (ys.map safeSegment).map Text.toLower ↔
      xs.map Word.isReserved = ys.map Word.isReserved := by
  induction xs generalizing ys with
  | nil =>
    rw [List.map_eq_nil_iff.mp h.symm]
    exact iff_of_true rfl rfl
  | cons x xs ih =>
    cases ys with
    | nil => cases h
    | cons y ys =>
      obtain ⟨hhead, htail⟩ := List.cons.inj h
      simp only [List.map_cons, List.cons.injEq]
      exact and_congr (Word.toLower_withSuffix_iff hhead) (ih htail)

section Spellings

variable {parts parts' : List Text} (h : parts.map Text.toLower = parts'.map Text.toLower)
include h

theorem length_eq_of_fold : parts.length = parts'.length := by
  have hlength := congrArg List.length h
  rwa [List.length_map, List.length_map] at hlength

/-- New namespaces are told apart by the lead, if only one old namespace starts with it, and by words
that are reserved in one spelling only. -/
theorem newParts_fold_iff :
    (c.newParts parts).map Text.toLower = (c.newParts parts').map Text.toLower ↔
      c.dropsLead parts = c.dropsLead parts' ∧
        (c.restParts parts).map Word.isReserved = (c.restParts parts').map Word.isReserved := by
  rw [newParts, newParts, List.map_append, List.map_append, List.append_right_inj]
  by_cases hlead : c.dropsLead parts = c.dropsLead parts'
  · have hrest : (c.restParts parts).map Text.toLower = (c.restParts parts').map Text.toLower := by
      rw [restParts_eq, restParts_eq, hlead, List.map_drop, List.map_drop, h]
    rw [and_iff_right hlead]
    exact safeSegment_fold_iff hrest
  · refine iff_of_false (fun heq => ?_) fun hall => hlead hall.1
    -- Only one of the two loses the segments of the lead.
    have hsame := length_eq_of_fold h
    have hpos := List.length_pos_iff.mpr c.leadParts_ne_nil
    have hle : c.dropsLead parts → c.leadParts.length ≤ parts.length := length_leadParts_le
    have hle' : c.dropsLead parts' → c.leadParts.length ≤ parts'.length := length_leadParts_le
    have hlength := congrArg List.length heq
    simp only [List.length_map, restParts_eq, List.length_drop] at hlength
    revert hlead hle hle' hlength
    cases c.dropsLead parts <;> cases c.dropsLead parts' <;> simp <;> omega

theorem sharedParts_fold_iff :
    (c.sharedParts parts).map Text.toLower = (c.sharedParts parts').map Text.toLower ↔
      c.dropsLead parts = c.dropsLead parts' ∧
        (c.restParts parts).map Word.isReserved = (c.restParts parts').map Word.isReserved := by
  by_cases hnil : parts = []
  · subst hnil
    rw [List.map_eq_nil_iff.mp h.symm]
    exact iff_of_true rfl ⟨rfl, rfl⟩
  · have hne : parts' ≠ [] := fun hnil' => hnil (List.map_eq_nil_iff.mp (by rw [h, hnil']; rfl))
    rw [sharedParts_of_ne_nil hnil, sharedParts_of_ne_nil hne]
    exact newParts_fold_iff h

theorem spaceOf_isNone_of_fold : (spaceOf parts).isNone = (spaceOf parts').isNone := by
  rw [spaceOf, spaceOf, ← List.isEmpty_map, h, List.isEmpty_map]
  split <;> rfl

theorem typeParts_fold_iff {a b : Text} (hshort : Text.toLower a = Text.toLower b) :
    (c.typeParts parts a).map Text.toLower = (c.typeParts parts' b).map Text.toLower ↔
      (c.newParts parts).map Text.toLower = (c.newParts parts').map Text.toLower ∧
        ((c.shortParts (spaceOf parts) a).1.map fun piece => Text.toLower (safeSegment piece.capitalize)) =
          (c.shortParts (spaceOf parts') b).1.map fun piece => Text.toLower (safeSegment piece.capitalize) := by
  have hpieces := (shortParts_fold (c := c) isBreak_underscore.isFold (spaceOf_isNone_of_fold h) hshort).1
  rw [typeParts, typeParts, List.map_append, List.map_append, List.map_map, List.map_map]
  constructor
  · intro heq
    refine List.append_inj' heq ?_
    rw [List.length_map, List.length_map]
    exact length_eq_of_fold hpieces
  · rintro ⟨hnew, hcut⟩
    rw [hnew]
    exact congrArg _ hcut

end Spellings

/-- Two spellings of one name are planned alike: the lead goes away from both of them or from none, the
same words are reserved, and, in the name of a type with a file of its own, what gets a capital and what
is put behind the last segment has the same small forms. -/
structure PlansAlike (c : PlanConfig) (own : Prop) (parts : List Text) (short : Text)
    (parts' : List Text) (short' : Text) : Prop where
  lead : c.dropsLead parts = c.dropsLead parts'
  reserved : (c.restParts parts).map Word.isReserved = (c.restParts parts').map Word.isReserved
  pieces : own →
    ((c.shortParts (spaceOf parts) short).1.map fun piece => Text.toLower (safeSegment piece.capitalize)) =
      (c.shortParts (spaceOf parts') short').1.map fun piece => Text.toLower (safeSegment piece.capitalize)
  short : own → Text.toLower (c.typeShort parts short) = Text.toLower (c.typeShort parts' short')

/-- The new name of a declared symbol, segment by segment. -/
structure Plans (c : PlanConfig) (own : Prop) (k : Component) (parts : List Text) (short : Text) : Prop where
  parts_plain : ∀ s ∈ parts, s ≠ [] ∧ '\\' ∉ s
  short_plain : '\\' ∉ short
  old : k.old = nameIn parts short
  ownShort : own → short ≠ []
  ownNew : own → k.new = nameIn (c.typeParts parts short) (c.typeShort parts short)
  sharedNew : ¬own → k.new = nameIn (c.sharedParts parts) short

theorem Plans.ofGlobal {own : Prop} {k : Component} (hold : '\\' ∉ k.old.text) (hnew : k.new = k.old)
    (hown : ¬own) : c.Plans own k (spaceParts k.old.space?) k.old.short := by
  have hspace : k.old.space? = none := QualifiedName.space?_eq_none_iff.mpr hold
  have htext : k.old = nameIn [] k.old.short := by
    rw [nameIn, List.nil_append, Text.join_singleton, ← QualifiedName.text_of_space?_none hspace]
  rw [hspace]
  exact ⟨List.forall_mem_nil _, k.old.short_not_mem, htext, fun h => absurd h hown,
    fun h => absurd h hown, fun _ => hnew.trans htext⟩

theorem sharedParts_plain (h : c.validate = .ok ()) {parts : List Text}
    (hparts : ∀ s ∈ parts, s ≠ [] ∧ '\\' ∉ s) : ∀ s ∈ c.sharedParts parts, s ≠ [] ∧ '\\' ∉ s := by
  by_cases hnil : parts = []
  · rw [hnil]
    exact List.forall_mem_nil _
  · rw [sharedParts_of_ne_nil hnil]
    exact (areSegments_newParts h hparts).plain

section Two

variable {own : Prop} {k k' : Component} {parts parts' : List Text} {short short' : Text}
  {kind : SymbolKind}

/-- Two spellings of one name are planned as one name exactly if they are planned alike. -/
theorem Plans.new_key_eq_iff (hvalid : c.validate = .ok ()) (hown : own → kind = .type)
    (h : c.Plans own k parts short) (h' : c.Plans own k' parts' short')
    (hkey : k.old.key kind = k'.old.key kind) :
    k.new.key kind = k'.new.key kind ↔ c.PlansAlike own parts short parts' short' := by
  rw [h.old, h'.old, key_nameIn_eq_iff h.parts_plain h.short_plain h'.parts_plain h'.short_plain] at hkey
  obtain ⟨hparts, hshort⟩ := hkey
  by_cases ho : own
  · have hkind := hown ho
    subst hkind
    have hs := And.intro (h.ownShort ho) h.short_plain
    have hs' := And.intro (h'.ownShort ho) h'.short_plain
    rw [h.ownNew ho, h'.ownNew ho,
      key_nameIn_eq_iff (areSegments_typeParts hvalid h.parts_plain hs).plain
        (typeShort_plain hvalid h.parts_plain hs).2
        (areSegments_typeParts hvalid h'.parts_plain hs').plain
        (typeShort_plain hvalid h'.parts_plain hs').2,
      typeParts_fold_iff hparts hshort, newParts_fold_iff hparts]
    constructor
    · rintro ⟨⟨⟨hlead, hreserved⟩, hpieces⟩, hlast⟩
      exact ⟨hlead, hreserved, fun _ => hpieces, fun _ => hlast⟩
    · intro halike
      exact ⟨⟨⟨halike.lead, halike.reserved⟩, halike.pieces ho⟩, halike.short ho⟩
  · rw [h.sharedNew ho, h'.sharedNew ho,
      key_nameIn_eq_iff (sharedParts_plain hvalid h.parts_plain) h.short_plain
        (sharedParts_plain hvalid h'.parts_plain) h'.short_plain,
      sharedParts_fold_iff hparts, and_iff_left hshort]
    constructor
    · rintro ⟨hlead, hreserved⟩
      exact ⟨hlead, hreserved, fun h => absurd h ho, fun h => absurd h ho⟩
    · intro halike
      exact ⟨halike.lead, halike.reserved⟩

theorem map_eq_of_fold {α : Type} {f : Text → α}
    (hf : ∀ x y, Text.toLowerAscii x = Text.toLowerAscii y → f x = f y) {xs ys : List Text}
    (h : xs.map Text.toLowerAscii = ys.map Text.toLowerAscii) : xs.map f = ys.map f := by
  induction xs generalizing ys with
  | nil => rw [List.map_eq_nil_iff.mp h.symm]
  | cons x xs ih =>
    cases ys with
    | nil => cases h
    | cons y ys =>
      obtain ⟨hhead, htail⟩ := List.cons.inj h
      rw [List.map_cons, List.map_cons, hf x y hhead, ih htail]

theorem safeSegment_ascii {x y : Text} (h : Text.toLowerAscii x = Text.toLowerAscii y) :
    Text.toLowerAscii (safeSegment x) = Text.toLowerAscii (safeSegment y) := by
  rw [safeSegment, safeSegment, Identifier.withSuffix, Identifier.withSuffix,
    Word.isReserved_of_eqIgnoreCase h]
  split
  · rw [Text.toLowerAscii_append, Text.toLowerAscii_append, h]
  · exact h

section Ascii

variable (hparts : parts.map Text.toLowerAscii = parts'.map Text.toLowerAscii)
  (hlead : c.dropsLead parts = c.dropsLead parts')
include hparts hlead

theorem restParts_ascii :
    (c.restParts parts).map Text.toLowerAscii = (c.restParts parts').map Text.toLowerAscii := by
  rw [restParts_eq, restParts_eq, hlead, List.map_drop, List.map_drop, hparts]

variable (hshort : Text.toLowerAscii short = Text.toLowerAscii short')
include hshort

omit hlead in
theorem shortParts_ascii :
    (c.shortParts (spaceOf parts) short).1.map Text.toLowerAscii =
        (c.shortParts (spaceOf parts') short').1.map Text.toLowerAscii ∧
      Text.toLowerAscii (c.shortParts (spaceOf parts) short).2 =
        Text.toLowerAscii (c.shortParts (spaceOf parts') short').2 := by
  refine shortParts_fold isSign_underscore.isFold ?_ hshort
  have hempty : parts.isEmpty = parts'.isEmpty := by
    rw [← List.isEmpty_map, hparts, List.isEmpty_map]
  rw [spaceOf, spaceOf, hempty]
  split <;> rfl

theorem typeParts_ascii :
    (c.typeParts parts short).map Text.toLowerAscii = (c.typeParts parts' short').map Text.toLowerAscii := by
  have hfold {f : Text → Text} (hf : ∀ x y, Text.toLowerAscii x = Text.toLowerAscii y →
      Text.toLowerAscii (f x) = Text.toLowerAscii (f y)) {xs ys : List Text}
      (h : xs.map Text.toLowerAscii = ys.map Text.toLowerAscii) :
      (xs.map f).map Text.toLowerAscii = (ys.map f).map Text.toLowerAscii := by
    rw [List.map_map, List.map_map]
    exact map_eq_of_fold hf h
  rw [typeParts, typeParts, newParts, newParts]
  simp only [List.map_append]
  rw [hfold (fun _ _ => safeSegment_ascii) (restParts_ascii hparts hlead),
    hfold (fun _ _ hxy => safeSegment_ascii (Text.toLowerAscii_capitalize hxy))
      (shortParts_ascii hparts hshort).1]

theorem typeShort_ascii :
    Text.toLowerAscii (c.typeShort parts short) = Text.toLowerAscii (c.typeShort parts' short') := by
  have hlast : Text.toLowerAscii (c.typeLast parts short) = Text.toLowerAscii (c.typeLast parts' short') :=
    Text.toLowerAscii_capitalize (shortParts_ascii hparts hshort).2
  have hbehind : Text.toLowerAscii (c.typeLead parts short) =
      Text.toLowerAscii (c.typeLead parts' short') := by
    have hends := congrArg List.getLast? (typeParts_ascii hparts hlead hshort)
    rw [List.getLast?_map, List.getLast?_map] at hends
    rw [typeLead, typeLead, List.getLastD_eq_getLast?, List.getLastD_eq_getLast?,
      ← Option.getD_map Text.toLowerAscii, ← Option.getD_map Text.toLowerAscii, hends]
  rw [typeShort, typeShort, withLead, withLead, Word.isReserved_of_eqIgnoreCase hlast]
  split
  · rw [Text.toLowerAscii_append, Text.toLowerAscii_append, hlast, hbehind]
  · exact hlast

end Ascii

theorem plansAlike_iff (hparts : parts.map Text.toLowerAscii = parts'.map Text.toLowerAscii)
    (hshort : Text.toLowerAscii short = Text.toLowerAscii short') :
    c.PlansAlike own parts short parts' short' ↔ c.dropsLead parts = c.dropsLead parts' := by
  refine ⟨PlansAlike.lead, fun hlead => ⟨hlead, ?_, fun _ => ?_, fun _ => ?_⟩⟩
  · exact map_eq_of_fold (fun _ _ => Word.isReserved_of_eqIgnoreCase) (restParts_ascii hparts hlead)
  · refine map_eq_of_fold (fun x y hxy => ?_) (shortParts_ascii hparts hshort).1
    have hsafe := safeSegment_ascii (Text.toLowerAscii_capitalize hxy)
    exact Text.toLower_eq_of_eqIgnoreCase (beq_iff_eq.mpr hsafe)
  · exact Text.toLower_eq_of_eqIgnoreCase (beq_iff_eq.mpr (typeShort_ascii hparts hlead hshort))

end Two

end PlanConfig

theorem parts_of_eqIgnoreCase {parts parts' : List Text} {a b : Text}
    (h : ∀ s ∈ parts, s ≠ [] ∧ '\\' ∉ s) (ha : '\\' ∉ a) (h' : ∀ s ∈ parts', s ≠ [] ∧ '\\' ∉ s)
    (hb : '\\' ∉ b) (hsame : Text.eqIgnoreCase (nameIn parts a).text (nameIn parts' b).text) :
    parts.map Text.toLowerAscii = parts'.map Text.toLowerAscii ∧
      Text.toLowerAscii a = Text.toLowerAscii b := by
  have hplain {ps : List Text} {s : Text} (hps : ∀ t ∈ ps, t ≠ [] ∧ '\\' ∉ t) (hs : '\\' ∉ s) :
      ∀ t ∈ ps ++ [s], '\\' ∉ t :=
    List.forall_mem_append.mpr ⟨fun t ht => (hps t ht).2, List.forall_mem_singleton.mpr hs⟩
  have hne (ps : List Text) (s : Text) : ps ++ [s] ≠ [] :=
    List.append_ne_nil_of_right_ne_nil _ (List.cons_ne_nil _ _)
  have hlists := (isSign_backslash.isFold.join_eq_iff (hplain h ha) (hne _ _) (hplain h' hb)
    (hne _ _)).mp (beq_iff_eq.mp hsame)
  rw [List.map_append, List.map_append] at hlists
  obtain ⟨hparts, hshort⟩ := List.append_inj' hlists rfl
  exact ⟨hparts, List.singleton_inj.mp hshort⟩

namespace FilePlan

variable {c : PlanConfig} {path path' t t' : Text} {d d' : Decision} {k k' : Component}

theorem plans_of_component (h : c.validate = .ok ()) (hd : d ∈ (ofText c path t).decisions)
    (hkept : d.ignored = false) (hk : k ∈ d.components) :
    c.Plans (k.kind.isType ∧ d.isConditional = false) k (spaceParts k.old.space?) k.old.short := by
  obtain ⟨hplanned, hnames⟩ := component_spec hd hk
  cases hnames with
  | @declared short hname hold =>
    have hparts : ∀ s ∈ spaceParts d.oldSpace?, s ≠ [] ∧ '\\' ∉ s :=
      fun s hs => isIdentifier_plain (hname.parts s hs)
    have hshort := isIdentifier_plain hname.short
    have hspace : k.old.space? = d.oldSpace? := by
      rw [hold, space?_nameIn hshort.2, spaceOf_spaceParts]
    have hnew : k.new = c.newName k.kind k.old d.isConditional := by
      rw [hplanned, PlanConfig.planned, hspace, ← ignored_of_mem_decisions hd, hkept]
      rfl
    rw [hspace, show k.old.short = short by rw [hold, short_nameIn hshort.2]]
    refine ⟨hparts, hshort.2, hold, fun _ => hshort.1, fun hown => ?_, fun hshared => ?_⟩
    · rw [hnew, hold, PlanConfig.newName_nameIn_type h hparts hshort hown]
    · rw [hnew, hold, PlanConfig.newName_of_not_type h hparts hshort hshared]
  | runtime hconditional _ hold hnew =>
    refine .ofGlobal hold hnew fun hown => ?_
    rw [hconditional] at hown
    cases hown.2

/-- Two declared symbols of one kind whose old names are one name get new names that are one name exactly
if the two spellings are planned alike. If they differ in ASCII letters only, that is a matter of the lead
alone: both of them start with the lead as it is spelled, or none does. -/
theorem spellings_planned_alike_iff (h : c.validate = .ok ()) (hd : d ∈ (ofText c path t).decisions)
    (hd' : d' ∈ (ofText c path' t').decisions) (hkept : d.ignored = false) (hkept' : d'.ignored = false)
    (hflag : d.isConditional = d'.isConditional) (hk : k ∈ d.components) (hk' : k' ∈ d'.components)
    (hkind : k.symbolKind = k'.symbolKind)
    (hold : k.old.key k.symbolKind = k'.old.key k.symbolKind) :
    (k.new.key k.symbolKind = k'.new.key k.symbolKind ↔
      c.PlansAlike (k.kind.isType ∧ d.isConditional = false) (spaceParts k.old.space?) k.old.short
        (spaceParts k'.old.space?) k'.old.short) ∧
    (Text.eqIgnoreCase k.old.text k'.old.text →
      (k.new.key k.symbolKind = k'.new.key k.symbolKind ↔
        c.dropsLead (spaceParts k.old.space?) = c.dropsLead (spaceParts k'.old.space?))) := by
  have hplans := plans_of_component h hd hkept hk
  have hplans' := plans_of_component h hd' hkept' hk'
  have hown : (k'.kind.isType ∧ d'.isConditional = false) ↔ (k.kind.isType ∧ d.isConditional = false) := by
    rw [hflag, PlanConfig.isType_iff_symbolKind, PlanConfig.isType_iff_symbolKind]
    exact and_congr_left' (by rw [← Component.symbolKind, ← hkind, Component.symbolKind])
  rw [hown] at hplans'
  have hiff := hplans.new_key_eq_iff h (fun hown => PlanConfig.isType_iff_symbolKind.mp hown.1) hplans' hold
  refine ⟨hiff, fun hsame => hiff.trans ?_⟩
  rw [hplans.old, hplans'.old] at hsame
  obtain ⟨hparts, hshort⟩ := parts_of_eqIgnoreCase hplans.parts_plain hplans.short_plain
    hplans'.parts_plain hplans'.short_plain hsame
  exact PlanConfig.plansAlike_iff hparts hshort

/-- A function whose namespace is the lead, and once more with its namespace in capitals. Only the first
spelling stays where it is. -/
def functionTwice : Text :=
  "<?php namespace Acme \x7b function f() \x7b\x7d \x7d namespace ACME \x7b function f() \x7b\x7d \x7d"

theorem functionTwice_apart : ∃ d ∈ (ofText (.ofLead "Acme") "a.php" functionTwice).decisions,
    ∃ d' ∈ (ofText (.ofLead "Acme") "a.php" functionTwice).decisions,
      ∃ k ∈ d.components, ∃ k' ∈ d'.components,
        k.old.key k.symbolKind = k'.old.key k.symbolKind ∧
          k.new.key k.symbolKind ≠ k'.new.key k.symbolKind := by
  let k : Component := ⟨.function, ⟨"Acme\\f"⟩, ⟨"Acme\\f"⟩⟩
  let k' : Component := ⟨.function, ⟨"ACME\\f"⟩, ⟨"Acme\\ACME\\f"⟩⟩
  have hshape : (ofText (.ofLead "Acme") "a.php" functionTwice).decisions.map
      (fun d => (d.ignored, d.isConditional, d.components)) = [(false, false, [k]), (false, false, [k'])] := by
    decide +kernel
  have hfirst := hshape.symm ▸ (List.mem_cons_self : (false, false, [k]) ∈ [(false, false, [k]), (false, false, [k'])])
  have hsecond := hshape.symm ▸
    List.mem_cons_of_mem (false, false, [k]) (List.mem_singleton_self (false, false, [k']))
  obtain ⟨d, hmem, hd⟩ := List.mem_map.mp hfirst
  obtain ⟨d', hmem', hd'⟩ := List.mem_map.mp hsecond
  rw [Prod.mk.injEq, Prod.mk.injEq] at hd hd'
  obtain ⟨hkept, hflag, hcomponents⟩ := hd
  obtain ⟨hkept', hflag', hcomponents'⟩ := hd'
  have hk : k ∈ d.components := by
    rw [hcomponents]
    exact List.mem_singleton_self k
  have hk' : k' ∈ d'.components := by
    rw [hcomponents']
    exact List.mem_singleton_self k'
  have hkind : k.symbolKind = k'.symbolKind := by decide
  have hold : k.old.key k.symbolKind = k'.old.key k.symbolKind := by decide +kernel
  have hiff := spellings_planned_alike_iff (by decide +kernel) hmem hmem' hkept hkept'
    (hflag.trans hflag'.symm) hk hk' hkind hold
  exact ⟨d, hmem, d', hmem', k, hk, k', hk', hold,
    (hiff.2 (by decide +kernel)).not.mpr (by decide +kernel)⟩

end FilePlan
end NamespaceMigration
