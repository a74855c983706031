import NamespaceMigration.Proofs.Naming.Spelling
import NamespaceMigration.Proofs.Planning.Decisions
import NamespaceMigration.Proofs.Planning.Declared
import NamespaceMigration.Proofs.Planning.Types

/-! Planning what has been planned. New namespaces and the names of functions and constants stay; the
new name of a type stays but for reserved words that are put behind the last segment. -/
namespace NamespaceMigration

section Keys

variable {parts parts' : List Text} {a b : Text} {kind : SymbolKind}

theorem aliasKey_type : aliasKey .type a = Text.toLower a := rfl

theorem not_mem_aliasKey (ha : '\\' ∉ a) : '\\' ∉ aliasKey kind a := mem_aliasKey_iff.not.mpr ha

theorem key_nameIn (h : ∀ s ∈ parts, s ≠ [] ∧ '\\' ∉ s) (ha : '\\' ∉ a) :
    (nameIn parts a).key kind = Text.join ['\\'] (parts.map Text.toLower ++ [aliasKey kind a]) := by
  by_cases hnil : parts = []
  · subst hnil
    rw [List.map_nil, List.nil_append, Text.join_singleton, nameIn, List.nil_append, Text.join_singleton,
      QualifiedName.key, lookupKey, aliasKey, dropBackslashes_of_not_mem ha,
      Text.splitAtLast?_eq_none_iff.mpr ha]
  · have hspace := (AreSegments.mk hnil h).isSpace
    have hlower : Text.toLower (Text.join ['\\'] parts) = Text.join ['\\'] (parts.map Text.toLower) :=
      isBreak_backslash.isFold.join hnil
    rw [Text.join_concat _ (List.map_eq_nil_iff.not.mpr hnil), ← hlower, nameIn, Text.join_concat _ hnil,
      QualifiedName.key, QualifiedName.key_of_space kind hspace.head hspace.ne_nil ha, aliasKey]
    split
    · rfl
    · exact Text.toLower_break isBreak_backslash _ _

/-- Two names have one key exactly if their segments have the same small forms and their short names
one key. -/
theorem key_nameIn_eq_iff (h : ∀ s ∈ parts, s ≠ [] ∧ '\\' ∉ s) (ha : '\\' ∉ a)
    (h' : ∀ s ∈ parts', s ≠ [] ∧ '\\' ∉ s) (hb : '\\' ∉ b) :
    (nameIn parts a).key kind = (nameIn parts' b).key kind ↔
      parts.map Text.toLower = parts'.map Text.toLower ∧ aliasKey kind a = aliasKey kind b := by
  have hplain {ps : List Text} {s : Text} (hps : ∀ t ∈ ps, t ≠ [] ∧ '\\' ∉ t) (hs : '\\' ∉ s) :
      ∀ t ∈ ps.map Text.toLower ++ [aliasKey kind s], '\\' ∉ t :=
    List.forall_mem_append.mpr ⟨isBreak_backslash.isFold.not_mem_map fun t ht => (hps t ht).2,
      List.forall_mem_singleton.mpr (not_mem_aliasKey hs)⟩
  rw [key_nameIn h ha, key_nameIn h' hb]
  constructor
  · intro hkey
    have hlists := Text.join_injective (hplain h ha) (List.append_ne_nil_of_right_ne_nil _ (List.cons_ne_nil _ _))
      (hplain h' hb) (List.append_ne_nil_of_right_ne_nil _ (List.cons_ne_nil _ _)) hkey
    obtain ⟨hparts, hshort⟩ := List.append_inj' hlists rfl
    exact ⟨hparts, List.singleton_inj.mp hshort⟩
  · rintro ⟨hparts, hshort⟩
    rw [hparts, hshort]

theorem key_nameIn_same_iff (h : ∀ s ∈ parts, s ≠ [] ∧ '\\' ∉ s) (ha : '\\' ∉ a) (hb : '\\' ∉ b) :
    (nameIn parts a).key kind = (nameIn parts b).key kind ↔ aliasKey kind a = aliasKey kind b := by
  rw [key_nameIn_eq_iff h ha h hb]
  exact and_iff_right rfl

theorem length_eq_of_key_eq (h : ∀ s ∈ parts, s ≠ [] ∧ '\\' ∉ s) (ha : '\\' ∉ a)
    (h' : ∀ s ∈ parts', s ≠ [] ∧ '\\' ∉ s) (hb : '\\' ∉ b)
    (hkey : (nameIn parts a).key kind = (nameIn parts' b).key kind) : parts.length = parts'.length := by
  have hlength := congrArg List.length ((key_nameIn_eq_iff h ha h' hb).mp hkey).1
  rwa [List.length_map, List.length_map] at hlength

end Keys

open Identifier (withLead)

namespace PlanConfig

variable {c : PlanConfig} {parts : List Text} {short : Text}

theorem newParts_newParts_append (happend : c.append = false) {more : List Text}
    (hmore : more.map safeSegment = more) : c.newParts (c.newParts parts ++ more) = c.newParts parts ++ more := by
  have hsettled : ((c.restParts parts).map safeSegment ++ more).map safeSegment =
      (c.restParts parts).map safeSegment ++ more := by
    rw [List.map_append, List.map_map, hmore]
    congr 1
    exact List.map_congr_left fun s _ => safeSegment_safeSegment s
  have hsplit : c.newParts parts ++ more =
      c.leadParts ++ ((c.restParts parts).map safeSegment ++ more) := List.append_assoc _ _ _
  rw [hsplit, newParts_of_settled happend hsettled]

theorem newParts_typeParts (happend : c.append = false) :
    c.newParts (c.typeParts parts short) = c.typeParts parts short := by
  refine newParts_newParts_append happend ?_
  rw [List.map_map]
  exact List.map_congr_left fun piece _ => safeSegment_safeSegment _

/-- The segments of the new namespace of what is no type. Global symbols stay global. -/
def sharedParts (c : PlanConfig) (parts : List Text) : List Text :=
  if parts.isEmpty then [] else c.newParts parts

theorem sharedParts_of_ne_nil (h : parts ≠ []) : c.sharedParts parts = c.newParts parts := by
  rw [sharedParts, if_neg (by simpa using h)]

theorem sharedParts_sharedParts (happend : c.append = false) :
    c.sharedParts (c.sharedParts parts) = c.sharedParts parts := by
  by_cases hnil : parts = []
  · subst hnil
    rfl
  · have hagain : c.newParts (c.newParts parts ++ []) = c.newParts parts ++ [] :=
      newParts_newParts_append happend rfl
    rw [List.append_nil] at hagain
    rw [sharedParts_of_ne_nil hnil, sharedParts_of_ne_nil (newParts_ne_nil parts), hagain]

theorem join_newSpace? (h : c.validate = .ok ()) (hparts : ∀ s ∈ parts, s ≠ [] ∧ '\\' ∉ s)
    (hshort : short ≠ [] ∧ '\\' ∉ short) :
    QualifiedName.join (c.newSpace? (spaceOf parts)) short = nameIn (c.sharedParts parts) short := by
  by_cases hnil : parts = []
  · subst hnil
    exact join_nameIn (List.forall_mem_nil _) hshort
  · have hnew := areSegments_newParts h hparts
    rw [sharedParts_of_ne_nil hnil, spaceOf_of_ne_nil hnil, newSpace?_join h ⟨hnil, hparts⟩,
      ← spaceOf_of_ne_nil hnew.ne_nil]
    exact join_nameIn hnew.plain hshort

theorem splitsUnderscores_mono {old? : Option Text} {space : Text}
    (h : c.splitsUnderscores (some space)) : c.splitsUnderscores old? := by
  rw [splitsUnderscores, Bool.and_eq_true, Option.isNone_some, Bool.false_or] at h
  rw [splitsUnderscores, h.1, h.2, Bool.or_true]
  rfl

theorem not_mem_typeLast (hsplits : c.splitsUnderscores (spaceOf parts))
    (hreserved : Word.isReserved (c.typeLast parts short)) : '_' ∉ c.typeLast parts short := by
  have hcut : splitShort? (c.typeLast parts short) = none := splitShort?_typeLast hsplits
  rw [splitShort?_eq_none_iff] at hcut
  exact hcut.resolve_right (Word.getLast?_of_isReserved hreserved)

/-- A reserved last part that the lead in front of it does not settle: the lead has underscores that
are read again, or what they make together is reserved again or has another small form as a capital. -/
def IsUnsettled (c : PlanConfig) (lead last : Text) : Prop :=
  Word.isReserved last ∧
    if c.splitsUnderscores (some lead) ∧ '_' ∈ lead then lead.any (· != '_') = true
    else Word.isReserved (Text.capitalize (lead ++ last)) ∨
      Text.toLower (Text.capitalize (lead ++ last)) ≠ Text.toLower (lead ++ last)

theorem toLower_lead_ne {lead more last : Text} (hlast : Word.isReserved last)
    (hmore : Word.isReserved (Text.capitalize (more ++ last))) (hne : more ≠ []) :
    Text.toLower (lead ++ Text.capitalize (more ++ last)) ≠ Text.toLower (lead ++ last) := by
  intro h
  have hlength := congrArg List.length h
  have hgrows := Text.length_capitalize_le (more ++ last)
  have hpos := List.length_pos_iff.mpr hne
  rw [Text.length_toLower_append, Text.length_toLower_append, Word.length_toLower_of_isReserved hmore,
    Word.length_toLower_of_isReserved hlast] at hlength
  rw [List.length_append] at hgrows
  omega

theorem toLower_capitalize_ne {s t : Text} (hs : '_' ∉ s) (ht : '_' ∈ t) :
    Text.toLower (Text.capitalize s) ≠ Text.toLower t := by
  intro h
  have hcount := congrArg (List.count '_') h
  rw [isSign_underscore.count_toLower, isSign_underscore.count_toLower,
    isSign_underscore.count_capitalize, List.count_eq_zero.mpr hs] at hcount
  have hpos := List.count_pos_iff.mpr ht
  omega

theorem splitShort?_append {head tail last : Text} (htail : '_' ∉ tail) (hlast : '_' ∉ last)
    (hne : last ≠ []) : splitShort? (head ++ '_' :: tail ++ last) =
      some ((head.splitOn '_').filter (!·.isEmpty), tail ++ last) := by
  have hends : Text.splitAtLast? '_' (head ++ '_' :: tail ++ last) = some (head, tail ++ last) := by
    rw [Text.splitAtLast?_eq_some_iff, List.append_assoc, List.mem_append, not_or]
    exact ⟨rfl, htail, hlast⟩
  rw [splitShort?, hends]
  exact if_neg (by simp [hne])

theorem pieces_eq_nil_iff {head : Text} :
    (head.splitOn '_').filter (!·.isEmpty) = [] ↔ ∀ sign ∈ head, sign = '_' := by
  rw [List.filter_eq_nil_iff]
  constructor
  · intro h sign hsign
    rw [← Text.join_splitOn '_' head] at hsign
    rcases Text.mem_join hsign with hsign | ⟨piece, hpiece, hmem⟩
    · exact hsign
    · have hempty : piece = [] := by simpa using h piece hpiece
      rw [hempty] at hmem
      cases hmem
  · intro h piece hpiece
    have hempty : piece = [] := by
      refine List.eq_nil_iff_forall_not_mem.mpr fun sign hsign => ?_
      have hunderscore := h sign (Text.mem_of_mem_splitOn hpiece hsign)
      exact splitOn_not_mem '_' head piece hpiece (hunderscore ▸ hsign)
    simp [hempty]

theorem typeParts_typeParts (happend : c.append = false) {name last : Text} {pieces : List Text}
    (hcut : c.shortParts (spaceOf (c.typeParts parts short)) name = (pieces, last)) :
    c.typeParts (c.typeParts parts short) name = c.typeParts parts short ++ pieces.map fun piece =>
      safeSegment (Text.capitalize piece) := by
  rw [typeParts.eq_1 c (c.typeParts parts short) name, hcut, newParts_typeParts happend]

section Again

variable (h : c.validate = .ok ()) (happend : c.append = false)
  (hparts : ∀ s ∈ parts, s ≠ [] ∧ '\\' ∉ s) (hshort : short ≠ [] ∧ '\\' ∉ short)
include h happend hparts hshort

theorem newTypeName_uncut {name last : Text} (hname : name ≠ [] ∧ '\\' ∉ name)
    (hcut : c.shortParts (spaceOf (c.typeParts parts short)) name = ([], last)) :
    c.newTypeName (nameIn (c.typeParts parts short) name) = nameIn (c.typeParts parts short)
      (withLead (Text.capitalize last) (c.typeLead parts short)) := by
  have hsame := typeParts_typeParts happend hcut
  rw [List.map_nil, List.append_nil] at hsame
  rw [newTypeName_nameIn h (areSegments_typeParts h hparts hshort).plain hname, typeShort, typeLast,
    typeLead, hsame, hcut]
  rfl

theorem newTypeName_settled (hlast : Word.isReserved (c.typeLast parts short) = false) :
    c.newTypeName (nameIn (c.typeParts parts short) (c.typeShort parts short)) =
      nameIn (c.typeParts parts short) (c.typeShort parts short) := by
  have hfree : ¬Word.isReserved (c.typeLast parts short) := by simp [hlast]
  have hshape : c.typeShort parts short = c.typeLast parts short := by
    rw [typeShort, withLead, if_neg hfree]
  have hcut : c.shortParts (spaceOf (c.typeParts parts short)) (c.typeLast parts short) =
      ([], c.typeLast parts short) := by
    refine shortParts_of_none fun hsplits => splitShort?_typeLast ?_
    rw [spaceOf_of_ne_nil typeParts_ne_nil] at hsplits
    exact splitsUnderscores_mono hsplits
  rw [hshape, newTypeName_uncut h happend hparts hshort (typeLast_plain hshort) hcut,
    capitalize_typeLast, withLead, if_neg hfree]

theorem key_ne_of_pieces {pieces : List Text} {last : Text} (hne : pieces ≠ [])
    (hcut : c.shortParts (spaceOf (c.typeParts parts short)) (c.typeShort parts short) = (pieces, last)) :
    (nameIn (c.typeParts parts short) (c.typeShort parts short)).key .type ≠
      (c.newTypeName (nameIn (c.typeParts parts short) (c.typeShort parts short))).key .type := by
  have hall := areSegments_typeParts h hparts hshort
  have hplain := typeShort_plain h hparts hshort
  intro hkey
  rw [newTypeName_nameIn h hall.plain hplain] at hkey
  have hlength := length_eq_of_key_eq hall.plain hplain.2 (areSegments_typeParts h hall.plain hplain).plain
    (typeShort_plain h hall.plain hplain).2 hkey
  have hpos := List.length_pos_iff.mpr hne
  rw [typeParts_typeParts happend hcut, List.length_append, List.length_map] at hlength
  omega

theorem newTypeName_of_underscores
    (hcut : c.shortParts (spaceOf (c.typeParts parts short)) (c.typeShort parts short) =
      ([], c.typeLast parts short)) :
    c.newTypeName (nameIn (c.typeParts parts short) (c.typeShort parts short)) =
      nameIn (c.typeParts parts short) (c.typeShort parts short) := by
  have hplain := typeShort_plain h hparts hshort
  rw [newTypeName_uncut h happend hparts hshort hplain hcut, capitalize_typeLast]
  rfl

variable (hlast : Word.isReserved (c.typeLast parts short))
include hlast

omit h happend hparts hshort in
theorem typeShort_of_reserved :
    c.typeShort parts short = c.typeLead parts short ++ c.typeLast parts short := by
  rw [typeShort, withLead, if_pos hlast]

/-- Where no underscore is read again, the lead and the reserved word stay together. -/
theorem key_uncut_iff
    (hwhole : ¬(c.splitsUnderscores (some (c.typeLead parts short)) ∧ '_' ∈ c.typeLead parts short)) :
    (nameIn (c.typeParts parts short) (c.typeShort parts short)).key .type =
        (c.newTypeName (nameIn (c.typeParts parts short) (c.typeShort parts short))).key .type ↔
      ¬(Word.isReserved (Text.capitalize (c.typeLead parts short ++ c.typeLast parts short)) ∨
        Text.toLower (Text.capitalize (c.typeLead parts short ++ c.typeLast parts short)) ≠
          Text.toLower (c.typeLead parts short ++ c.typeLast parts short)) := by
  have hall := areSegments_typeParts h hparts hshort
  have hplain := typeShort_plain h hparts hshort
  have hlead := typeLead_plain h hparts hshort
  rw [typeShort_of_reserved hlast] at hplain ⊢
  have hagain := withLead_plain (plain_capitalize ⟨hplain.1, List.Subset.refl _⟩ hplain.2) hlead
  have hcut : c.shortParts (spaceOf (c.typeParts parts short))
      (c.typeLead parts short ++ c.typeLast parts short) =
        ([], c.typeLead parts short ++ c.typeLast parts short) := by
    refine shortParts_of_none fun hsplits => splitShort?_eq_none_iff.mpr (Or.inl fun hmem => ?_)
    rw [spaceOf_of_ne_nil typeParts_ne_nil] at hsplits
    rcases List.mem_append.mp hmem with hmem | hmem
    · exact hwhole ⟨hsplits, hmem⟩
    · exact not_mem_typeLast (splitsUnderscores_mono hsplits) hlast hmem
  rw [newTypeName_uncut h happend hparts hshort hplain hcut,
    key_nameIn_same_iff hall.plain hplain.2 hagain.2, aliasKey_type, aliasKey_type, withLead]
  split
  · rename_i hreserved
    exact iff_of_false (Ne.symm (toLower_lead_ne hlast hreserved hlead.1)) (not_not.mpr (Or.inl hreserved))
  · rename_i hfree
    rw [or_iff_right hfree, not_not, eq_comm]

/-- What stands between the last underscore of the lead and the reserved word is not put back. -/
theorem key_ne_of_tail {tail : Text} (hne : tail ≠ []) (htail : '_' ∉ tail ++ c.typeLast parts short)
    (hmem : '_' ∈ c.typeLead parts short)
    (hcut : c.shortParts (spaceOf (c.typeParts parts short)) (c.typeShort parts short) =
      ([], tail ++ c.typeLast parts short)) :
    (nameIn (c.typeParts parts short) (c.typeShort parts short)).key .type ≠
      (c.newTypeName (nameIn (c.typeParts parts short) (c.typeShort parts short))).key .type := by
  have hall := areSegments_typeParts h hparts hshort
  have hplain := typeShort_plain h hparts hshort
  have hlead := typeLead_plain h hparts hshort
  have hrest : (c.shortParts (spaceOf (c.typeParts parts short)) (c.typeShort parts short)).2 ≠ [] ∧
      (c.shortParts (spaceOf (c.typeParts parts short)) (c.typeShort parts short)).2 ⊆
        c.typeShort parts short := last_subset hplain.1
  rw [hcut] at hrest
  have hagain := withLead_plain (plain_capitalize hrest hplain.2) hlead
  rw [newTypeName_uncut h happend hparts hshort hplain hcut, ne_eq,
    key_nameIn_same_iff hall.plain hplain.2 hagain.2, aliasKey_type, aliasKey_type,
    typeShort_of_reserved hlast, withLead]
  split
  · rename_i hagain
    exact Ne.symm (toLower_lead_ne hlast hagain hne)
  · exact Ne.symm (toLower_capitalize_ne htail (List.mem_append_left _ hmem))

/-- Underscores of the lead are read again, unless it has nothing else. -/
theorem key_cut_iff (hsplits : c.splitsUnderscores (some (c.typeLead parts short)))
    (hmem : '_' ∈ c.typeLead parts short) :
    (nameIn (c.typeParts parts short) (c.typeShort parts short)).key .type =
        (c.newTypeName (nameIn (c.typeParts parts short) (c.typeShort parts short))).key .type ↔
      ∀ sign ∈ c.typeLead parts short, sign = '_' := by
  have hfree : '_' ∉ c.typeLast parts short := not_mem_typeLast (splitsUnderscores_mono hsplits) hlast
  obtain ⟨⟨head, tail⟩, hsplit⟩ := Option.ne_none_iff_exists'.mp
    (Text.splitAtLast?_eq_none_iff.not.mpr (not_not.mpr hmem))
  obtain ⟨hlead, htail⟩ := Text.splitAtLast?_eq_some_iff.mp hsplit
  have hagain : c.splitsUnderscores (spaceOf (c.typeParts parts short)) := splitsUnderscores_mono hsplits
  have hcut : c.shortParts (spaceOf (c.typeParts parts short)) (c.typeShort parts short) =
      ((head.splitOn '_').filter (!·.isEmpty), tail ++ c.typeLast parts short) := by
    rw [shortParts, if_pos hagain, typeShort_of_reserved hlast, hlead,
      splitShort?_append htail hfree (typeLast_plain hshort).1]
    rfl
  rw [hlead, List.forall_mem_append, List.forall_mem_cons, ← pieces_eq_nil_iff]
  by_cases hpieces : (head.splitOn '_').filter (!·.isEmpty) = []
  · rw [hpieces] at hcut
    by_cases hnil : tail = []
    · subst hnil
      rw [newTypeName_of_underscores h happend hparts hshort hcut]
      exact iff_of_true rfl ⟨hpieces, rfl, List.forall_mem_nil _⟩
    · have hboth : '_' ∉ tail ++ c.typeLast parts short := by
        rw [List.mem_append, not_or]
        exact ⟨htail, hfree⟩
      refine iff_of_false (key_ne_of_tail h happend hparts hshort hlast hnil hboth hmem hcut) ?_
      rintro ⟨-, -, hall⟩
      obtain ⟨sign, rest, rfl⟩ := List.exists_cons_of_ne_nil hnil
      exact htail (hall sign List.mem_cons_self ▸ List.mem_cons_self)
  · exact iff_of_false (key_ne_of_pieces h happend hparts hshort hpieces hcut) fun hall =>
      hpieces hall.1

omit hlast in
/-- The new name of a type is read as itself, unless a reserved word behind the lead is not settled. -/
theorem key_newTypeName_iff :
    (nameIn (c.typeParts parts short) (c.typeShort parts short)).key .type =
        (c.newTypeName (nameIn (c.typeParts parts short) (c.typeShort parts short))).key .type ↔
      ¬c.IsUnsettled (c.typeLead parts short) (c.typeLast parts short) := by
  cases hlast : Word.isReserved (c.typeLast parts short) with
  | false =>
    rw [newTypeName_settled h happend hparts hshort hlast]
    refine iff_of_true rfl fun hunsettled => ?_
    rw [hunsettled.1] at hlast
    cases hlast
  | true =>
    rw [IsUnsettled, hlast, and_iff_right rfl]
    split
    · rename_i hsplits
      have hcut := key_cut_iff h happend hparts hshort hlast hsplits.1 hsplits.2
      simpa using hcut
    · rename_i hwhole
      exact key_uncut_iff h happend hparts hshort hlast hwhole

end Again

instance (lead last : Text) : Decidable (c.IsUnsettled lead last) := by
  unfold IsUnsettled
  infer_instance

theorem newName_of_type {kind : DeclarationKind} {conditional : Bool} {old : QualifiedName}
    (h : kind.isType ∧ conditional = false) : c.newName kind old conditional = c.newTypeName old := by
  rw [newName, h.2]
  exact if_pos ⟨h.1, rfl⟩

theorem newName_of_not_type {kind : DeclarationKind} {conditional : Bool} (h : c.validate = .ok ())
    (hparts : ∀ s ∈ parts, s ≠ [] ∧ '\\' ∉ s) (hshort : short ≠ [] ∧ '\\' ∉ short)
    (hkind : ¬(kind.isType ∧ conditional = false)) :
    c.newName kind (nameIn parts short) conditional = nameIn (c.sharedParts parts) short := by
  rw [newName, if_neg (by simpa using hkind), space?_nameIn hshort.2, short_nameIn hshort.2,
    join_newSpace? h hparts hshort]

theorem newName_nameIn_type {kind : DeclarationKind} {conditional : Bool} (h : c.validate = .ok ())
    (hparts : ∀ s ∈ parts, s ≠ [] ∧ '\\' ∉ s) (hshort : short ≠ [] ∧ '\\' ∉ short)
    (hkind : kind.isType ∧ conditional = false) :
    c.newName kind (nameIn parts short) conditional =
      nameIn (c.typeParts parts short) (c.typeShort parts short) := by
  rw [newName_of_type hkind, newTypeName_nameIn h hparts hshort]

theorem isType_iff_symbolKind {kind : DeclarationKind} : kind.isType ↔ kind.symbolKind = .type := by
  cases kind <;> simp [DeclarationKind.isType, DeclarationKind.symbolKind]

theorem key_newName_newName_iff {kind : DeclarationKind} {conditional : Bool} (h : c.validate = .ok ())
    (happend : c.append = false) (hparts : ∀ s ∈ parts, s ≠ [] ∧ '\\' ∉ s)
    (hshort : short ≠ [] ∧ '\\' ∉ short) :
    let new := c.newName kind (nameIn parts short) conditional
    new.key kind.symbolKind = (c.newName kind new conditional).key kind.symbolKind ↔
      ¬(kind.isType ∧ conditional = false ∧
        c.IsUnsettled (c.typeLead parts short) (c.typeLast parts short)) := by
  dsimp only
  by_cases hkind : kind.isType ∧ conditional = false
  · rw [newName_nameIn_type h hparts hshort hkind, newName_of_type hkind,
      isType_iff_symbolKind.mp hkind.1, key_newTypeName_iff h happend hparts hshort,
      and_iff_right hkind.1, and_iff_right hkind.2]
  · have hshared : ∀ s ∈ c.sharedParts parts, s ≠ [] ∧ '\\' ∉ s := by
      by_cases hnil : parts = []
      · subst hnil
        exact List.forall_mem_nil _
      · rw [sharedParts_of_ne_nil hnil]
        exact (areSegments_newParts h hparts).plain
    rw [newName_of_not_type h hparts hshort hkind, newName_of_not_type h hshared hshort hkind,
      sharedParts_sharedParts happend]
    exact iff_of_true rfl fun hall => hkind ⟨hall.1, hall.2.1⟩

end PlanConfig

/-- A declared name that is planned again under its new name is renamed again exactly if no rule keeps
it now, it is a type of its own, and its last part is a reserved word that the lead in front of it
does not settle. -/
theorem PlanConfig.planned_again_isRenamed_iff {c : PlanConfig} (h : c.validate = .ok ())
    (happend : c.append = false) {t : Text} {l : Located} (hl : l ∈ (SourceFile.parse t).outline)
    {kind : DeclarationKind} {names : List (DeclarationKind × QualifiedName)}
    (hdeclared : l.declared? = some (kind, names)) {entry : DeclarationKind × QualifiedName}
    (hentry : entry ∈ names) (hkept : c.ignores l.space? = false) (conditional : Bool) :
    let first := c.planned entry.1 entry.2 conditional
    (c.planned first.kind first.new conditional).isRenamed ↔ c.ignores first.new.space? = false ∧
      entry.1.isType ∧ conditional = false ∧
      c.IsUnsettled (c.typeLead (spaceParts l.space?) entry.2.short)
        (c.typeLast (spaceParts l.space?) entry.2.short) := by
  dsimp only
  obtain ⟨-, short, hname, hentry⟩ := Located.declared?_spec hl hdeclared entry hentry
  have hparts : ∀ s ∈ spaceParts l.space?, s ≠ [] ∧ '\\' ∉ s :=
    fun s hs => isIdentifier_plain (hname.parts s hs)
  have hshort := isIdentifier_plain hname.short
  have hspace : entry.2.space? = l.space? := by
    rw [hentry, space?_nameIn hshort.2, spaceOf_spaceParts]
  have hnew : (c.planned entry.1 entry.2 conditional).new = c.newName entry.1 entry.2 conditional := by
    rw [planned, hspace, hkept]
    rfl
  rw [planned_isRenamed_iff, hnew, hentry, short_nameIn hshort.2]
  exact and_congr_right fun _ => (key_newName_newName_iff h happend hparts hshort).not.trans not_not

/-- A list of arrays, as it is planned first. The underscore of the segment `List_` is read again in its
short name `List_Array`. -/
def listArray : Text := "<?php class Foo_List_Array {}"

theorem listArray_outline : (SourceFile.parse listArray).outline.length = 2 := by decide +kernel

def listArrayPlace : Located :=
  (SourceFile.parse listArray).outline.get ⟨1, by rw [listArray_outline]; decide⟩

theorem listArray_renamed_again :
    (underscored.planned (.classLike .classDecl) ⟨"Foo_List_Array"⟩ false).new =
        ⟨"Acme\\Foo\\List_\\List_Array"⟩ ∧
      (underscored.planned (.classLike .classDecl) ⟨"Acme\\Foo\\List_\\List_Array"⟩ false).isRenamed := by
  have hfirst : (underscored.planned (.classLike .classDecl) ⟨"Foo_List_Array"⟩ false).new =
      ⟨"Acme\\Foo\\List_\\List_Array"⟩ := by decide +kernel
  obtain ⟨hdeclared, hspace⟩ : listArrayPlace.declared? =
      some (.classLike .classDecl, [(.classLike .classDecl, ⟨"Foo_List_Array"⟩)]) ∧
        listArrayPlace.space? = none := by decide +kernel
  have hplace : listArrayPlace ∈ (SourceFile.parse listArray).outline := List.get_mem _ _
  have h := PlanConfig.planned_again_isRenamed_iff underscored_validate rfl hplace hdeclared
    (List.mem_singleton.mpr rfl) (by rw [hspace]; rfl) false
  dsimp only at h
  rw [hfirst, hspace] at h
  exact ⟨hfirst, h.mpr (by decide +kernel)⟩

end NamespaceMigration
