import NamespaceMigration.Proofs.FirstCome
import NamespaceMigration.Proofs.Migration.Clearing
import NamespaceMigration.Proofs.Naming.LetterCase
import NamespaceMigration.Proofs.Planning.Targets

/-! Types and their files. Every type has a file of its own, even where the case of letters does not tell
files apart, unless the directories of the lead are left out: then a type behind the lead gets the file of
a type outside it that keeps its name. -/
namespace NamespaceMigration

open Lexer (isNameChar)

/-- A name with slashes for its backslashes. -/
def pathOf (name : Text) : Text := name.map fun c => if c = '\\' then '/' else c

theorem pathOf_of_not_mem {s : Text} (h : '\\' ∉ s) : pathOf s = s := by
  refine (List.map_congr_left fun c hc => ?_).trans s.map_id
  rw [if_neg (ne_of_mem_of_not_mem hc h)]
  rfl

theorem pathOf_join {segments : List Text} (h : ∀ s ∈ segments, '\\' ∉ s) :
    pathOf (Text.join ['\\'] segments) = Text.join ['/'] segments := by
  induction segments with
  | nil => rfl
  | cons s segments ih =>
    obtain ⟨hs, hsegments⟩ := List.forall_mem_cons.mp h
    by_cases hnil : segments = []
    · rw [hnil, Text.join_singleton, Text.join_singleton, pathOf_of_not_mem hs]
    · have hrest := ih hsegments
      rw [pathOf] at hrest
      rw [Text.join_cons _ _ hnil, Text.join_cons _ _ hnil, pathOf, List.map_append, List.map_cons,
        hrest, if_pos rfl]
      exact congrArg (· ++ _) (pathOf_of_not_mem hs)

theorem PlanConfig.typeTarget_eq (n : QualifiedName) :
    typeTarget n = pathOf n.text ++ '.' :: sourceExtension := by
  rw [typeTarget, QualifiedName.segments, ← pathOf_join (splitOn_not_mem '\\' n.text),
    Text.join_splitOn]

theorem map_eq_map_congr {α β γ : Type} {f : α → β} {g : α → γ} {s t : List α}
    (h : ∀ a ∈ s, ∀ b ∈ t, f a = f b ↔ g a = g b) : s.map f = t.map f ↔ s.map g = t.map g := by
  induction s generalizing t with
  | nil => simp
  | cons a s ih =>
    cases t with
    | nil => simp
    | cons b t =>
      rw [List.map_cons, List.map_cons, List.cons.injEq, List.map_cons, List.map_cons,
        List.cons.injEq, h a List.mem_cons_self b List.mem_cons_self,
        ih fun a ha b hb => h a (List.mem_cons_of_mem _ ha) b (List.mem_cons_of_mem _ hb)]

theorem toLower_eq_sign_iff {c d : Char} (hc : c.isAlpha = false) : c.toLower = d.toLower ↔ c = d := by
  refine ⟨fun h => (eq_or_isAlpha_of_toLower_eq h).resolve_right fun halpha => ?_, congrArg _⟩
  rw [hc] at halpha
  cases halpha.1

theorem toLower_slash_iff {c d : Char} (hc : c ≠ '/') (hd : d ≠ '/') :
    (if c = '\\' then '/' else c).toLower = (if d = '\\' then '/' else d).toLower ↔
      c.toLower = d.toLower := by
  by_cases hcb : c = '\\'
  · rw [if_pos hcb, toLower_eq_sign_iff (by decide), hcb, toLower_eq_sign_iff (by decide)]
    by_cases hdb : d = '\\'
    · simp [hdb]
    · rw [if_neg hdb]
      exact iff_of_false (Ne.symm hd) (Ne.symm hdb)
  · rw [if_neg hcb]
    by_cases hdb : d = '\\'
    · rw [if_pos hdb, hdb, eq_comm, toLower_eq_sign_iff (by decide), eq_comm (a := c.toLower),
        toLower_eq_sign_iff (by decide)]
      exact iff_of_false (Ne.symm hc) (Ne.symm hcb)
    · rw [if_neg hdb]

theorem key_type_of_eqIgnoreCase {m n : QualifiedName} (h : Text.eqIgnoreCase m.text n.text) :
    m.key .type = n.key .type := by
  have hdrop (t : Text) : Text.toLowerAscii (dropBackslashes t) = dropBackslashes (Text.toLowerAscii t) := by
    rw [dropBackslashes, dropBackslashes, Text.toLowerAscii, Text.toLowerAscii, List.dropWhile_map]
    congr 2
    funext c
    have hsign : c.toLower = '\\' ↔ c = '\\' := by
      rw [eq_comm, eq_comm (a := c)]
      exact toLower_eq_sign_iff (c := '\\') (by decide)
    rw [Function.comp_apply, Bool.eq_iff_iff, beq_iff_eq, beq_iff_eq, hsign]
  rw [QualifiedName.key, QualifiedName.key, lookupKey, lookupKey, if_neg (by decide),
    if_neg (by decide)]
  refine Text.toLower_eq_of_eqIgnoreCase ?_
  rw [Text.eqIgnoreCase, beq_iff_eq] at h ⊢
  rw [hdrop, hdrop, h]

theorem eqIgnoreCase_typeTarget_iff {m n : QualifiedName} (hm : '/' ∉ m.text) (hn : '/' ∉ n.text) :
    Text.eqIgnoreCase (PlanConfig.typeTarget m) (PlanConfig.typeTarget n) ↔
      Text.eqIgnoreCase m.text n.text := by
  rw [PlanConfig.typeTarget_eq, PlanConfig.typeTarget_eq, Text.eqIgnoreCase, Text.eqIgnoreCase,
    beq_iff_eq, beq_iff_eq, Text.toLowerAscii_append, Text.toLowerAscii_append, List.append_left_inj,
    pathOf, pathOf, Text.toLowerAscii, Text.toLowerAscii, List.map_map, List.map_map]
  exact map_eq_map_congr fun c hc d hd =>
    toLower_slash_iff (ne_of_mem_of_not_mem hc hm) (ne_of_mem_of_not_mem hd hn)

/-- What the file of a type is named for when the directories of the lead are left out. -/
def QualifiedName.behind (lead : Text) (n : QualifiedName) : QualifiedName :=
  ⟨(Text.dropLead? (lead ++ ['\\']) n.text).getD n.text⟩

theorem pathOf_injective {s t : Text} (hs : '/' ∉ s) (ht : '/' ∉ t) (h : pathOf s = pathOf t) :
    s = t := by
  have hmap := (map_eq_map_congr (f := fun c => if c = '\\' then '/' else c) (g := id)
    fun c hc d hd => ?_).mp h
  · rwa [List.map_id, List.map_id] at hmap
  · have hc := ne_of_mem_of_not_mem hc hs
    have hd := ne_of_mem_of_not_mem hd ht
    by_cases hcb : c = '\\'
    · by_cases hdb : d = '\\'
      · simp [hcb, hdb]
      · simpa [hcb, hdb, Ne.symm hd] using fun h => hdb h.symm
    · by_cases hdb : d = '\\'
      · simp [hcb, hdb, hc]
      · simp [hcb, hdb]

/-- Directories that a path of a name begins with are namespaces that the name begins with. -/
theorem prefix_of_pathOf {lead name : Text} (hlead : '/' ∉ lead) (hname : '/' ∉ name)
    (h : pathOf lead ++ ['/'] <+: pathOf name ++ '.' :: sourceExtension) :
    lead ++ ['\\'] <+: name := by
  rcases Nat.lt_or_ge lead.length name.length with hlt | hge
  · have hpath : pathOf (lead ++ ['\\']) = pathOf (name.take (lead.length + 1)) := by
      have htake := List.prefix_iff_eq_take.mp h
      rw [List.length_append, pathOf, List.length_map, List.length_singleton,
        List.take_append_of_le_length (by rw [pathOf, List.length_map]; omega)] at htake
      rw [pathOf, List.map_append, pathOf, List.map_take]
      exact htake
    have heq := pathOf_injective (by simpa using hlead) (fun hmem => hname (List.mem_of_mem_take hmem))
      hpath
    rw [heq]
    exact List.take_prefix _ _
  · -- The slash would be in the extension.
    obtain ⟨rest, hrest⟩ := h
    have hlength : ∀ t : Text, (pathOf t).length = t.length := fun t => List.length_map _
    have hget : (pathOf name ++ '.' :: sourceExtension)[lead.length]? = some '/' := by
      rw [← hrest, List.append_assoc, List.getElem?_append_right (Nat.le_of_eq (hlength lead)), hlength,
        Nat.sub_self]
      rfl
    rw [List.getElem?_append_right (by rw [hlength]; exact hge)] at hget
    have hmem : '/' ∈ ('.' :: sourceExtension : Text) := List.mem_of_getElem? hget
    exact absurd hmem (by decide)

theorem dropLeadPath_typeTarget {lead : Text} {n : QualifiedName} (hne : lead ≠ []) (hlead : '/' ∉ lead)
    (hn : '/' ∉ n.text) :
    dropLeadPath lead (PlanConfig.typeTarget n) = PlanConfig.typeTarget (n.behind lead) := by
  have hdirs : lead.map (fun c => if c = '\\' then '/' else c) ++ ['/'] = pathOf lead ++ ['/'] := rfl
  rw [dropLeadPath, if_neg (by simpa using hne), QualifiedName.behind]
  dsimp only
  rw [hdirs]
  cases hdrop : Text.dropLead? (lead ++ ['\\']) n.text with
  | some rest =>
    have hpath : Text.dropLead? (pathOf lead ++ ['/']) (PlanConfig.typeTarget n) =
        some (PlanConfig.typeTarget ⟨rest⟩) := by
      rw [Text.dropLead?_eq_some_iff, PlanConfig.typeTarget_eq, PlanConfig.typeTarget_eq,
        Text.dropLead?_eq_some_iff.mp hdrop]
      simp [pathOf]
    rw [hpath]
    rfl
  | none =>
    cases hpath : Text.dropLead? (pathOf lead ++ ['/']) (PlanConfig.typeTarget n) with
    | none => rfl
    | some rest =>
      rw [Text.dropLead?_eq_some_iff, PlanConfig.typeTarget_eq] at hpath
      obtain ⟨after, hafter⟩ := prefix_of_pathOf hlead hn ⟨rest, hpath.symm⟩
      rw [← hafter, Text.dropLead?_eq_some_iff.mpr rfl] at hdrop
      cases hdrop

/-- Behind the lead, a name is another one that is outside it, up to the case of letters. -/
def QualifiedName.MeetsBehind (lead : Text) (m n : QualifiedName) : Prop :=
  ¬lead ++ ['\\'] <+: n.text ∧ ∃ rest, m.text = lead ++ '\\' :: rest ∧ Text.eqIgnoreCase rest n.text

namespace QualifiedName

variable {lead : Text} {m n : QualifiedName}

theorem behind_cases (lead : Text) (n : QualifiedName) :
    (∃ rest, n.text = lead ++ '\\' :: rest ∧ n.behind lead = ⟨rest⟩) ∨
      ¬lead ++ ['\\'] <+: n.text ∧ n.behind lead = n := by
  rw [behind]
  cases hdrop : Text.dropLead? (lead ++ ['\\']) n.text with
  | some rest =>
    refine Or.inl ⟨rest, ?_, rfl⟩
    rw [Text.dropLead?_eq_some_iff.mp hdrop, List.append_assoc]
    rfl
  | none =>
    refine Or.inr ⟨fun ⟨rest, hrest⟩ => ?_, rfl⟩
    rw [Text.dropLead?_eq_some_iff.mpr hrest.symm] at hdrop
    cases hdrop

theorem eqIgnoreCase_append_iff {s t : Text} (u : Text) :
    Text.eqIgnoreCase (u ++ s) (u ++ t) ↔ Text.eqIgnoreCase s t := by
  rw [Text.eqIgnoreCase, Text.eqIgnoreCase, beq_iff_eq, beq_iff_eq, Text.toLowerAscii_append,
    Text.toLowerAscii_append, List.append_right_inj]

theorem prefix_behind (lead rest : Text) : lead ++ ['\\'] <+: lead ++ '\\' :: rest :=
  ⟨rest, List.append_assoc ..⟩

theorem not_meetsBehind (h : lead ++ ['\\'] <+: n.text) : ¬m.MeetsBehind lead n :=
  fun hmeets => hmeets.1 h

theorem not_meetsBehind_of_apart (h : ¬lead ++ ['\\'] <+: m.text) : ¬m.MeetsBehind lead n := by
  rintro ⟨-, rest, hrest, -⟩
  rw [hrest] at h
  exact h (prefix_behind lead rest)

theorem slash_not_mem_behind (h : '/' ∉ n.text) : '/' ∉ (n.behind lead).text := by
  rcases behind_cases lead n with ⟨rest, hrest, hn⟩ | ⟨-, hn⟩
  · rw [hn]
    rw [hrest] at h
    exact fun hmem => h (List.mem_append_right _ (List.mem_cons_of_mem _ hmem))
  · rwa [hn]

/-- Names that are not the same before the lead is left out are so afterwards only if one is behind the
lead what the other one is without it. -/
theorem eqIgnoreCase_behind_iff (h : ¬Text.eqIgnoreCase m.text n.text) :
    Text.eqIgnoreCase (m.behind lead).text (n.behind lead).text ↔
      m.MeetsBehind lead n ∨ n.MeetsBehind lead m := by
  have hbehind {k : QualifiedName} {rest : Text} (hk : k.text = lead ++ '\\' :: rest) :
      lead ++ ['\\'] <+: k.text := hk ▸ prefix_behind lead rest
  rcases behind_cases lead m with ⟨r, hr, hm⟩ | ⟨hmout, hm⟩ <;>
    rcases behind_cases lead n with ⟨s, hs, hn⟩ | ⟨hnout, hn⟩ <;> rw [hm, hn]
  · refine iff_of_false (fun heq => h ?_) (not_or.mpr
      ⟨not_meetsBehind (hbehind hs), not_meetsBehind (hbehind hr)⟩)
    rw [hr, hs, eqIgnoreCase_append_iff lead]
    exact (eqIgnoreCase_append_iff ['\\']).mpr heq
  · rw [or_iff_left (not_meetsBehind_of_apart hnout)]
    refine ⟨fun heq => ⟨hnout, r, hr, heq⟩, ?_⟩
    rintro ⟨-, rest, hrest, heq⟩
    rw [hr, List.append_cancel_left_eq, List.cons.injEq] at hrest
    rwa [hrest.2]
  · rw [or_iff_right (not_meetsBehind_of_apart hmout)]
    have hcomm {u v : Text} : Text.eqIgnoreCase u v → Text.eqIgnoreCase v u := fun huv => by
      rw [Text.eqIgnoreCase, beq_iff_eq] at huv ⊢
      exact huv.symm
    refine ⟨fun heq => ⟨hmout, s, hs, hcomm heq⟩, ?_⟩
    rintro ⟨-, rest, hrest, heq⟩
    rw [hs, List.append_cancel_left_eq, List.cons.injEq] at hrest
    rw [hrest.2]
    exact hcomm heq
  · exact iff_of_false h (not_or.mpr
      ⟨not_meetsBehind_of_apart hmout, not_meetsBehind_of_apart hnout⟩)

end QualifiedName

/-- A decision about one type, with its new name, whose file has that name. A type that does not keep its
name is behind the lead. -/
structure Decision.IsNamed (lead : Text) (d : Decision) (n : QualifiedName) : Prop where
  component : ∃ c, d.components = [c] ∧ c.symbolKind = .type ∧ c.new = n
  target : d.target = PlanConfig.typeTarget n
  plain : '/' ∉ n.text
  behind : d.ignored = false → lead ++ ['\\'] <+: n.text

section Planned

variable {c : PlanConfig} (h : c.validate = .ok ())
include h

theorem slash_not_mem_lead : '/' ∉ c.lead := by
  rw [← c.join_leadParts]
  intro hmem
  rcases Text.mem_join hmem with hsign | ⟨s, hs, hmem⟩
  · cases hsign
  · have hid := (Bool.and_eq_true_iff.mp (PlanConfig.isSegment_leadParts h s hs)).1
    have hchar := isNameChar_of_isIdentifier hid '/' hmem
    exact absurd hchar (by decide)

omit h in
theorem slash_not_mem_nameIn {parts : List Text} {short : Text}
    (hchars : ∀ s ∈ parts ++ [short], ∀ d ∈ s, isNameChar d) : '/' ∉ (nameIn parts short).text := by
  intro hmem
  rcases Text.mem_join hmem with hsign | ⟨s, hs, hmem⟩
  · cases hsign
  · exact absurd (hchars s hs '/' hmem) (by decide)

theorem FilePlan.exists_isNamed {path t : Text} {d : Decision} (hd : d ∈ (ofText c path t).decisions)
    (hexclusive : d.exclusive) : ∃ n, d.IsNamed c.lead n := by
  obtain ⟨short, hname, htype, hignored, hcomponents, htarget⟩ := exclusive_spec hd hexclusive
  have hids := List.forall_mem_append.mpr ⟨hname.parts, List.forall_mem_singleton.mpr hname.short⟩
  have hkind : d.kind.symbolKind = .type := by
    cases hd : d.kind with
    | classLike kind => rfl
    | _ =>
      rw [hd] at htype
      cases htype
  have hnew := PlanConfig.planned_new h hname htype
  rw [spaceOf_spaceParts, ← hignored] at hnew
  refine ⟨_, ⟨_, hcomponents, hkind, rfl⟩, htarget, ?_, fun hkept => ?_⟩
  · rw [hnew]
    split
    · exact slash_not_mem_nameIn fun s hs => isNameChar_of_isIdentifier (hids s hs)
    · exact slash_not_mem_nameIn (List.forall_mem_append.mpr
        ⟨PlanConfig.isNameChar_typeParts h hname,
          List.forall_mem_singleton.mpr (PlanConfig.isNameChar_typeShort h hname)⟩)
  · rw [hnew, hkept, if_neg Bool.false_ne_true, nameIn, PlanConfig.typeParts, PlanConfig.newParts,
      List.append_assoc, List.append_assoc, Text.join_append _ c.leadParts_ne_nil (by simp),
      c.join_leadParts]
    exact QualifiedName.prefix_behind c.lead _

end Planned

/-- Behind the lead, a decision's type has the name of another one, which keeps its name outside it. -/
def Decision.MeetsBehind (lead : Text) (d e : Decision) : Prop :=
  e.ignored ∧ ∃ a b, d.primary? = some a ∧ e.primary? = some b ∧ a.new.MeetsBehind lead b.new

theorem Decision.IsNamed.meetsBehind_iff {lead : Text} {d e : Decision} {m n : QualifiedName}
    (hd : d.IsNamed lead m) (hdx : d.exclusive) (he : e.IsNamed lead n) (hex : e.exclusive) :
    d.MeetsBehind lead e ↔ m.MeetsBehind lead n := by
  obtain ⟨a, ha, -, rfl⟩ := hd.component
  obtain ⟨b, hb, -, rfl⟩ := he.component
  rw [Decision.MeetsBehind, Decision.primary?, Decision.primary?, if_pos hdx, if_pos hex, ha, hb]
  constructor
  · rintro ⟨-, a', b', ha', hb', hmeets⟩
    cases ha'
    cases hb'
    exact hmeets
  · refine fun hmeets => ⟨?_, a, b, rfl, rfl, hmeets⟩
    by_contra hkept
    exact hmeets.1 (he.behind (Bool.not_eq_true _ ▸ hkept))

/-- The decisions of a plan that have files of their own. -/
def ProjectPlan.types (p : ProjectPlan) : List Decision :=
  (p.decisions.map (·.2)).filter (·.exclusive)

section Planned

variable {c : PlanConfig} (h : c.validate = .ok ())
include h

theorem exists_isNamed_of_planned {root : Text} {sources : List (Text × Bytes)} {d : Decision}
    (hd : d ∈ (planSources root c sources).types) : d.exclusive ∧ ∃ n, d.IsNamed c.lead n := by
  obtain ⟨hmem, hexclusive⟩ := List.mem_filter.mp hd
  obtain ⟨entry, hentry, rfl⟩ := List.mem_map.mp hmem
  obtain ⟨file, hfile, hentry⟩ := List.mem_flatMap.mp hentry
  obtain ⟨decision, hdecision, rfl⟩ := List.mem_map.mp hentry
  obtain ⟨path, t, hdecision⟩ := exists_ofText_of_planned hfile hdecision
  exact ⟨hexclusive, FilePlan.exists_isNamed h hdecision hexclusive⟩

theorem Decision.IsNamed.finalTarget {d : Decision} {n : QualifiedName} (hd : d.IsNamed c.lead n)
    (hexclusive : d.exclusive) (o : LayoutOptions) : d.finalTarget c.lead o =
      PlanConfig.typeTarget (if o.dropLeadDirs then n.behind c.lead else n) := by
  rw [Decision.finalTarget, hd.target]
  have hlead : c.lead ≠ [] := by
    rw [← c.join_leadParts]
    exact (PlanConfig.areSegments_leadParts h).isSpace.ne_nil
  by_cases hdrop : o.dropLeadDirs
  · rw [if_pos ⟨hdrop, hexclusive⟩, if_pos hdrop,
      dropLeadPath_typeTarget hlead (slash_not_mem_lead h) hd.plain]
  · rw [if_neg (fun hboth => hdrop hboth.1), if_neg hdrop]

/-- The files of two types are the same, up to the case of ASCII letters, exactly if the directories of
the lead are left out and one type is behind the lead what the other one, which keeps its name, is without
it. -/
theorem types_meet_iff (root : Text) (sources : List (Text × Bytes)) (o : LayoutOptions) :
    let p := planSources root c sources
    p.types.Pairwise fun d e =>
      (Text.eqIgnoreCase (d.finalTarget p.lead o) (e.finalTarget p.lead o) ↔
        o.dropLeadDirs ∧ (d.MeetsBehind p.lead e ∨ e.MeetsBehind p.lead d)) := by
  intro p
  have happart := decisions_ofFiles_apart root c (sources.map fun s => .ofBytes c s.1 s.2)
  refine (happart.filter _).imp_of_mem fun {d e} hd he hrivals => ?_
  obtain ⟨hdx, m, hm⟩ := exists_isNamed_of_planned h hd
  obtain ⟨hex, n, hn⟩ := exists_isNamed_of_planned h he
  obtain ⟨a, ha, hakind, rfl⟩ := hm.component
  obtain ⟨b, hb, hbkind, rfl⟩ := hn.component
  have hapart : ¬Text.eqIgnoreCase a.new.text b.new.text := fun hsame => hrivals <| by
    refine ⟨a.identity, ?_, ?_⟩
    · rw [Decision.identities, ha]
      exact List.mem_singleton_self _
    · rw [Decision.identities, hb, List.map_singleton, List.mem_singleton, Component.identity,
        Component.identity, hakind, hbkind, key_type_of_eqIgnoreCase hsame]
  change Text.eqIgnoreCase (d.finalTarget c.lead o) (e.finalTarget c.lead o) ↔
    o.dropLeadDirs ∧ (d.MeetsBehind c.lead e ∨ e.MeetsBehind c.lead d)
  rw [hm.finalTarget h hdx, hn.finalTarget h hex, hm.meetsBehind_iff hdx hn hex, hn.meetsBehind_iff hex hm hdx]
  by_cases hdrop : o.dropLeadDirs
  · rw [if_pos hdrop, if_pos hdrop, and_iff_right hdrop, eqIgnoreCase_typeTarget_iff
      (QualifiedName.slash_not_mem_behind hm.plain) (QualifiedName.slash_not_mem_behind hn.plain)]
    exact QualifiedName.eqIgnoreCase_behind_iff hapart
  · rw [if_neg hdrop, if_neg hdrop, eqIgnoreCase_typeTarget_iff hm.plain hn.plain]
    exact iff_of_false hapart fun hboth => hdrop hboth.1

end Planned

/-- A type in the namespace `Foo`, which keeps its name, and one in that namespace behind the lead. -/
def keepingFoo : PlanConfig := { PlanConfig.ofLead "Acme" with ignored := [.space "Foo"] }

def twinTypes : List (Text × Bytes) :=
  [("a.php", Text.toUtf8 "<?php namespace Foo; class Bar \x7b\x7d"),
    ("b.php", Text.toUtf8 "<?php namespace Acme\\Foo; class Bar \x7b\x7d")]

theorem twinTypes_names :
    (planSources "src" keepingFoo twinTypes).types.map (fun d => (d.ignored, d.primary?.map (·.new))) =
      [(true, some ⟨"Foo\\Bar"⟩), (false, some ⟨"Acme\\Foo\\Bar"⟩)] := by decide +kernel

theorem twinTypes_share_file :
    let p := planSources "src" keepingFoo twinTypes
    let o : LayoutOptions := { allowRisky := false, createAliases := false, dropLeadDirs := true }
    keepingFoo.validate = .ok () ∧ ∃ d e, p.types = [d, e] ∧
      Text.eqIgnoreCase (d.finalTarget p.lead o) (e.finalTarget p.lead o) := by
  intro p o
  have hvalid : keepingFoo.validate = .ok () := rfl
  obtain ⟨d, rest, hp, hd, hrest⟩ := List.map_eq_cons_iff.mp twinTypes_names
  obtain ⟨e, rfl, he⟩ := List.map_eq_singleton_iff.mp hrest
  obtain ⟨hignored, hdname⟩ := Prod.mk.inj hd
  obtain ⟨b, hb, hbname⟩ := Option.map_eq_some_iff.mp hdname
  obtain ⟨a, ha, haname⟩ := Option.map_eq_some_iff.mp (Prod.mk.inj he).2
  refine ⟨hvalid, d, e, hp, ?_⟩
  have hiff := types_meet_iff hvalid "src" twinTypes o
  dsimp only at hiff
  rw [hp] at hiff
  refine (List.rel_of_pairwise_cons hiff List.mem_cons_self).mpr
    ⟨rfl, Or.inr ⟨hignored, a, b, ha, hb, ?_⟩⟩
  rw [haname, hbname]
  exact ⟨by decide, "Foo\\Bar", by decide, by decide⟩

end NamespaceMigration
