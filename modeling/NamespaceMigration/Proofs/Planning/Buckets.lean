import NamespaceMigration.Proofs.Json.Canonical
import NamespaceMigration.Proofs.Planning.Decisions
import NamespaceMigration.Proofs.Planning.Types
import NamespaceMigration.Proofs.Rendering.Sources
import NamespaceMigration.Proofs.Statements.Directives

/-! Shared files. The digest in the name of one is taken of a text that says the namespace, the directives in
any order and the form of the code, and nothing in these can pass for the signs between them. So different
code can only meet in a shared file if the digests of different texts start alike. -/
namespace NamespaceMigration

open Text (eqIgnoreCase)

namespace Directive

theorem le_trans (a b d : Directive) (hab : le a b) (hbd : le b d) : le a d := by
  rw [le] at hab hbd ⊢
  by_cases hkey : a.key = b.key
  · rw [if_pos hkey] at hab
    by_cases hkey' : b.key = d.key
    · rw [if_pos hkey'] at hbd
      rw [if_pos (hkey.trans hkey')]
      exact Text.le_trans hab hbd
    · rw [if_neg hkey'] at hbd
      rwa [hkey, if_neg hkey']
  · rw [if_neg hkey] at hab
    by_cases hkey' : b.key = d.key
    · rwa [← hkey', if_neg hkey]
    · rw [if_neg hkey'] at hbd
      have hkeys : a.key ≠ d.key := fun heq => hkey (Text.le_antisymm hab (heq ▸ hbd))
      rw [if_neg hkeys]
      exact Text.le_trans hab hbd

theorem le_total (a b : Directive) : le a b || le b a := by
  rw [le, le]
  by_cases hkey : a.key = b.key
  · rw [if_pos hkey, if_pos hkey.symm]
    exact Text.le_total a.value b.value
  · rw [if_neg hkey, if_neg (Ne.symm hkey)]
    exact Text.le_total a.key b.key

theorem eq_of_le {a b : Directive} (hab : le a b) (hba : le b a) : a = b := by
  rw [le] at hab hba
  by_cases hkey : a.key = b.key
  · rw [if_pos hkey] at hab
    rw [if_pos hkey.symm] at hba
    obtain ⟨key, value⟩ := a
    obtain ⟨key', value'⟩ := b
    exact congrArg₂ mk hkey (Text.le_antisymm hab hba)
  · rw [if_neg hkey] at hab
    rw [if_neg (Ne.symm hkey)] at hba
    exact absurd (Text.le_antisymm hab hba) hkey

theorem mergeSort_congr {ds es : List Directive} (hds : ds.Nodup) (hes : es.Nodup)
    (h : ∀ x, x ∈ ds ↔ x ∈ es) : ds.mergeSort le = es.mergeSort le := by
  have hperm : (ds.mergeSort le).Perm (es.mergeSort le) :=
    (List.mergeSort_perm ds le).trans
      (((List.perm_ext_iff_of_nodup hds hes).mpr h).trans (List.mergeSort_perm es le).symm)
  have hordered (l : List Directive) : (l.mergeSort le).Pairwise fun a b => le a b :=
    List.pairwise_mergeSort le_trans le_total l
  exact hperm.eq_of_pairwise (fun a b _ _ hab hba => eq_of_le hab hba) (hordered ds) (hordered es)

end Directive

theorem Text.append_cons_inj_right {c : Char} {a b x y : Text} (hx : c ∉ x) (hy : c ∉ y)
    (h : a ++ c :: x = b ++ c :: y) : a = b ∧ x = y := by
  have hcut : Text.splitAtLast? c (a ++ c :: x) = some (a, x) := Text.splitAtLast?_eq_some_iff.mpr ⟨rfl, hx⟩
  rw [h, Text.splitAtLast?_eq_some_iff.mpr ⟨rfl, hy⟩, Option.some.injEq, Prod.mk.injEq] at hcut
  exact ⟨hcut.1.symm, hcut.2.symm⟩

namespace Directive

def pair (d : Directive) : Text := d.key ++ '=' :: d.value

/-- A directive whose key and value do not contain the signs around them. -/
structure IsApart (d : Directive) : Prop where
  key : ∀ sign ∈ [',', '=', '\n'], sign ∉ d.key
  value : ∀ sign ∈ [',', '\n'], sign ∉ d.value

namespace IsApart

variable {d e : Directive} {ds es : List Directive}

theorem not_mem_pair (h : d.IsApart) : ∀ sign ∈ [',', '\n'], sign ∉ d.pair := by
  intro sign hsign
  have hkey : sign ∈ [',', '=', '\n'] ∧ sign ≠ '=' := by
    simp only [List.mem_cons, List.not_mem_nil, or_false] at hsign ⊢
    rcases hsign with rfl | rfl <;> decide
  rw [pair, List.mem_append, List.mem_cons, not_or, not_or]
  exact ⟨h.key sign hkey.1, hkey.2, h.value sign hsign⟩

theorem pair_inj (hd : d.IsApart) (he : e.IsApart) (h : d.pair = e.pair) : d = e := by
  have htake {x : Directive} (hx : x.IsApart) : x.pair.takeWhile (· != '=') = x.key := by
    have hall : ∀ c ∈ x.key, (c != '=') = true := by
      intro c hc
      rw [bne_iff_ne]
      rintro rfl
      exact hx.key '=' (by decide) hc
    rw [pair, List.takeWhile_append_of_pos hall, List.takeWhile_cons_of_neg (by decide), List.append_nil]
  have hkey : d.key = e.key := by rw [← htake hd, h, htake he]
  rw [pair, pair, hkey] at h
  have hvalue := List.tail_eq_of_cons_eq (List.append_cancel_left h)
  obtain ⟨key, value⟩ := d
  obtain ⟨key', value'⟩ := e
  exact congrArg₂ Directive.mk hkey hvalue

theorem map_pair_inj (hds : ∀ d ∈ ds, d.IsApart) (hes : ∀ e ∈ es, e.IsApart)
    (h : ds.map pair = es.map pair) : ds = es := by
  induction ds generalizing es with
  | nil => exact (List.map_eq_nil_iff.mp h.symm).symm
  | cons d ds ih =>
    obtain ⟨e, es, rfl⟩ : ∃ e es', es = e :: es' := by
      cases es with
      | nil => cases h
      | cons e es => exact ⟨e, es, rfl⟩
    rw [List.forall_mem_cons] at hds hes
    rw [List.map_cons, List.map_cons, List.cons.injEq] at h
    rw [hds.1.pair_inj hes.1 h.1, ih hds.2 hes.2 h.2]

theorem join_ne_nil (hne : ds ≠ []) : Text.join [','] (ds.map pair) ≠ [] := by
  obtain ⟨d, ds, rfl⟩ := List.exists_cons_of_ne_nil hne
  have hmem : '=' ∈ Text.join [','] ((d :: ds).map pair) :=
    Text.mem_join_of_mem List.mem_cons_self (List.mem_append_right d.key List.mem_cons_self)
  exact List.ne_nil_of_mem hmem

theorem join_inj (hds : ∀ d ∈ ds, d.IsApart) (hes : ∀ e ∈ es, e.IsApart)
    (h : Text.join [','] (ds.map pair) = Text.join [','] (es.map pair)) : ds = es := by
  by_cases hdsn : ds = []
  · subst hdsn
    by_contra hne
    exact join_ne_nil (Ne.symm hne) h.symm
  · by_cases hesn : es = []
    · subst hesn
      exact absurd h (join_ne_nil hdsn)
    · have hcomma {xs : List Directive} (hxs : ∀ x ∈ xs, x.IsApart) : ∀ t ∈ xs.map pair, ',' ∉ t := by
        intro t ht
        obtain ⟨x, hx, rfl⟩ := List.mem_map.mp ht
        exact (hxs x hx).not_mem_pair ',' (by decide)
      exact map_pair_inj hds hes (Text.join_injective (hcomma hds) (List.map_eq_nil_iff.not.mpr hdsn)
        (hcomma hes) (List.map_eq_nil_iff.not.mpr hesn) h)

theorem newline_not_mem_join (hds : ∀ d ∈ ds, d.IsApart) : '\n' ∉ Text.join [','] (ds.map pair) := by
  intro hmem
  rcases Text.mem_join hmem with hsign | ⟨t, ht, hmem⟩
  · exact absurd hsign (by decide)
  · obtain ⟨d, hd, rfl⟩ := List.mem_map.mp ht
    exact (hds d hd).not_mem_pair '\n' (by decide) hmem

end IsApart

theorem hasWord_set {found : List Directive} {d : Directive} (hfound : ∀ e ∈ found, e.HasWord)
    (hd : d.HasWord) : ∀ e ∈ set found d, e.HasWord := by
  induction found with
  | nil => exact List.forall_mem_singleton.mpr hd
  | cons first found ih =>
    rw [List.forall_mem_cons] at hfound
    rw [set]
    split
    · exact List.forall_mem_cons.mpr ⟨⟨hfound.1.key, hfound.1.lower⟩, hfound.2⟩
    · exact List.forall_mem_cons.mpr ⟨hfound.1, ih hfound.2⟩

theorem hasWord_foldl {written found : List Directive} (hfound : ∀ e ∈ found, e.HasWord)
    (hwritten : ∀ d ∈ written, d.HasWord) : ∀ e ∈ written.foldl set found, e.HasWord := by
  induction written generalizing found with
  | nil => exact hfound
  | cons d written ih =>
    rw [List.forall_mem_cons] at hwritten
    exact ih (hasWord_set hfound hwritten.1) hwritten.2

/-- A word has none of the signs around a key. -/
theorem HasWord.isApart {d : Directive} (h : d.HasWord) (hvalue : ',' ∉ d.value ∧ '\n' ∉ d.value) :
    d.IsApart := by
  refine ⟨fun sign hsign hmem => ?_, ?_⟩
  · have hname := h.key.name.isIdentifier h.key.single
    obtain ⟨c, rest, hkey⟩ := List.exists_cons_of_ne_nil h.key.name.ne_nil
    rw [hkey] at hname hmem
    obtain ⟨hstart, hrest⟩ := isIdentifier_cons_iff.mp hname
    have hchar : Lexer.isNameChar sign := by
      rcases List.mem_cons.mp hmem with rfl | hmem
      · exact Lexer.isNameChar_of_isNameStart hstart
      · exact hrest sign hmem
    have hnone : [',', '=', '\n'].all (fun sign => !Lexer.isNameChar sign) := rfl
    have hsigns := List.all_eq_true.mp hnone sign hsign
    rw [hchar] at hsigns
    cases hsigns
  · rw [List.forall_mem_cons, List.forall_mem_singleton]
    exact hvalue

end Directive

namespace Located

open SourceFile in
/-- The directives in effect have different words for their keys. -/
theorem directives_spec {t : Text} {l : Located} (hl : l ∈ (parse t).outline) :
    l.directives.Nodup ∧ ∀ d ∈ l.directives, d.HasWord := by
  obtain ⟨places, hplaces⟩ := exists_places t
  have hwritten := isPlacedAt hplaces hl
  have heffective := IsEffective.foldl_set (hwritten.order.imp Nat.le_of_lt)
  rw [← hwritten.all] at heffective
  constructor
  · refine heffective.once.imp fun {d e} hother heq => hother ?_
    rw [heq, Text.eqIgnoreCase_iff]
  · rw [hwritten.all]
    refine Directive.hasWord_foldl (List.forall_mem_nil _) fun d hd => ?_
    obtain ⟨w, hw, rfl⟩ := List.mem_map.mp hd
    obtain ⟨s, found, hforce, hw⟩ := (hwritten.mem w).mp hw
    obtain ⟨hs, block, hkind⟩ := hforce.declare
    have hwords := outline_words t s hs
    rw [hkind] at hwords
    exact hwords w.2 (List.of_mem_zip hw).2

end Located

namespace PlanConfig

variable {c : PlanConfig}

theorem sanitizeNamespace_ne_nil {name : Text} (h : name ≠ []) : Identifier.sanitizeNamespace name ≠ [] := by
  intro hnil
  have hparts : name.splitOn '\\' ≠ [] := List.splitOn_ne_nil _ _
  obtain ⟨s, ss, hsplit⟩ := List.exists_cons_of_ne_nil hparts
  rw [Identifier.sanitizeNamespace, hsplit, List.map_cons] at hnil
  cases ss with
  | nil =>
    rw [List.map_nil, Text.join_singleton, Identifier.withSuffix] at hnil
    have hs : s = [] := by
      split at hnil
      · exact (List.append_eq_nil_iff.mp hnil).1
      · exact hnil
    have hjoin := Text.join_splitOn '\\' name
    rw [hsplit, hs, Text.join_singleton] at hjoin
    exact h hjoin.symm
  | cons s' ss =>
    rw [Text.join_cons _ _ (List.map_eq_nil_iff.not.mpr (List.cons_ne_nil s' ss))] at hnil
    exact absurd (List.append_eq_nil_iff.mp hnil).2 (List.cons_ne_nil _ _)

theorem newSpace?_ne_nil (old? : Option Text) : c.newSpace? old? ≠ some [] := by
  intro h
  rw [newSpace?, Option.bind_eq_bind, Option.bind_eq_some_iff] at h
  obtain ⟨old, -, h⟩ := h
  obtain ⟨hjoined, h⟩ := Option.ite_none_left_eq_some.mp h
  exact sanitizeNamespace_ne_nil (List.isEmpty_iff.not.mp hjoined) (Option.some.inj h)

/-- The sorted directives in the text of a digest. -/
def bucketPairs (directives : List Directive) : Text :=
  Text.join [','] ((directives.mergeSort Directive.le).map Directive.pair)

/-- The form of the code in the text of a digest. -/
def bucketForm (conditional : Bool) : Text := if conditional then "conditional" else "plain"

theorem bucketInput_eq (space? : Option Text) (directives : List Directive) (conditional : Bool) :
    bucketInput space? directives conditional =
      (space?.getD [] ++ '\n' :: bucketPairs directives) ++ '\n' :: bucketForm conditional := rfl

theorem newline_not_mem_bucketForm (conditional : Bool) : '\n' ∉ bucketForm conditional := by
  cases conditional <;> decide

theorem bucketForm_inj {b b' : Bool} (h : bucketForm b = bucketForm b') : b = b' := by
  cases b <;> cases b' <;> first | rfl | exact absurd h (by decide)

theorem getD_nil_inj {space? space'? : Option Text} (hspace : space? ≠ some []) (hspace' : space'? ≠ some [])
    (h : space?.getD [] = space'?.getD []) : space? = space'? := by
  cases space? with
  | none =>
    cases space'? with
    | none => rfl
    | some space' => exact absurd (congrArg some h.symm) hspace'
  | some space =>
    cases space'? with
    | none => exact absurd (congrArg some h) hspace
    | some space' => exact congrArg some h

/-- The text of a digest tells its parts: the last two newlines come before the directives and the form. -/
theorem bucketInput_inj {space? space'? : Option Text} {ds es : List Directive} {b b' : Bool}
    (hspace : space? ≠ some []) (hspace' : space'? ≠ some [])
    (hds : ∀ d ∈ ds, d.IsApart) (hes : ∀ e ∈ es, e.IsApart)
    (h : bucketInput space? ds b = bucketInput space'? es b') :
    space? = space'? ∧ (∀ x, x ∈ ds ↔ x ∈ es) ∧ b = b' := by
  have hperm (l : List Directive) : (l.mergeSort Directive.le).Perm l := List.mergeSort_perm l Directive.le
  have hds' : ∀ d ∈ ds.mergeSort Directive.le, d.IsApart := fun d hd => hds d ((hperm ds).subset hd)
  have hes' : ∀ e ∈ es.mergeSort Directive.le, e.IsApart := fun e he => hes e ((hperm es).subset he)
  rw [bucketInput_eq, bucketInput_eq] at h
  obtain ⟨hfront, hform⟩ := Text.append_cons_inj_right (newline_not_mem_bucketForm b)
    (newline_not_mem_bucketForm b') h
  obtain ⟨hname, hpairs⟩ := Text.append_cons_inj_right
    (Directive.IsApart.newline_not_mem_join hds') (Directive.IsApart.newline_not_mem_join hes') hfront
  have hsorted := Directive.IsApart.join_inj hds' hes' hpairs
  refine ⟨getD_nil_inj hspace hspace' hname, fun x => ?_, bucketForm_inj hform⟩
  rw [← (hperm ds).mem_iff, hsorted, (hperm es).mem_iff]

end PlanConfig

namespace Decision

/-- The text that the digest in the name of a shared file is taken of. -/
def bucketInput (d : Decision) : Text := PlanConfig.bucketInput d.newSpace? d.directives d.isConditional

/-- The digits in the name of a shared file. -/
def bucketName (d : Decision) : Text := (contentHash (Text.toUtf8 d.bucketInput)).take bucketDigits

/-- Code that can stand in one file: of one namespace, under the same directives, and either all plain or all
conditional. -/
structure IsCompatible (d e : Decision) : Prop where
  space : d.newSpace? = e.newSpace?
  directives : ∀ x, x ∈ d.directives ↔ x ∈ e.directives
  form : d.isConditional = e.isConditional

end Decision

namespace FilePlan

variable {c : PlanConfig} {path path' t t' : Text} {d e : Decision}

theorem directives_spec (h : d ∈ (ofText c path t).decisions) :
    d.directives.Nodup ∧ ∀ x ∈ d.directives, x.HasWord := by
  obtain ⟨l, hl, declaration, hat, rfl⟩ := mem_decisions h
  exact Located.directives_spec (SourceFile.place_of_declarationAt hat ▸ hl)

theorem newSpace?_ne_nil (h : d ∈ (ofText c path t).decisions) (hshared : d.exclusive = false) :
    d.newSpace? ≠ some [] := by
  obtain ⟨l, hl, declaration, hat, rfl⟩ := mem_decisions h
  have htype : declaration.kind.isType = false := hshared
  have hplace := SourceFile.place_of_declarationAt hat
  simp only [SourceFile.decide, htype]
  split
  · intro hnil
    exact (Located.space?_isName (hplace ▸ hl) hnil).ne_nil rfl
  · exact PlanConfig.newSpace?_ne_nil _

/-- Compatible code of a project goes to one shared file, and code that is not compatible meets in one only if
the digests of two different texts start with the same digits. -/
theorem target_eq_iff_isCompatible (hd : d ∈ (ofText c path t).decisions) (he : e ∈ (ofText c path' t').decisions)
    (hshared : d.exclusive = false) (hshared' : e.exclusive = false)
    (hvalues : ∀ x ∈ d.directives, ',' ∉ x.value ∧ '\n' ∉ x.value)
    (hvalues' : ∀ x ∈ e.directives, ',' ∉ x.value ∧ '\n' ∉ x.value) :
    (d.IsCompatible e → d.target = e.target) ∧
      (d.target = e.target →
        d.IsCompatible e ∨ d.bucketInput ≠ e.bucketInput ∧ d.bucketName = e.bucketName) := by
  rw [shared_spec hd hshared, shared_spec he hshared']
  obtain ⟨hnodup, hwords⟩ := directives_spec hd
  obtain ⟨hnodup', hwords'⟩ := directives_spec he
  constructor
  · intro h
    have hinput : d.bucketInput = e.bucketInput := by
      rw [Decision.bucketInput, Decision.bucketInput, h.space, h.form, PlanConfig.bucketInput_eq,
        PlanConfig.bucketInput_eq, PlanConfig.bucketPairs, PlanConfig.bucketPairs,
        Directive.mergeSort_congr hnodup hnodup' h.directives]
    rw [PlanConfig.bucketTarget, PlanConfig.bucketTarget]
    exact congrArg (fun input => c.includesPath ++ "/include.".toList ++
      (contentHash (Text.toUtf8 input)).take bucketDigits ++ '.' :: sourceExtension) hinput
  · intro h
    have hname : d.bucketName = e.bucketName := List.append_cancel_left (List.append_cancel_right h)
    by_cases hinput : d.bucketInput = e.bucketInput
    · obtain ⟨hspace, hmem, hform⟩ := PlanConfig.bucketInput_inj (newSpace?_ne_nil hd hshared)
        (newSpace?_ne_nil he hshared') (fun x hx => (hwords x hx).isApart (hvalues x hx))
        (fun x hx => (hwords' x hx).isApart (hvalues' x hx)) hinput
      exact .inl ⟨hspace, hmem, hform⟩
    · exact .inr ⟨hinput, hname⟩

/-- Two files that set the same directives in another order. -/
def strictFirst : Text := "<?php declare(strict_types=1); declare(ticks=2); function f() \x7b\x7d"

def ticksFirst : Text := "<?php declare(ticks=2, strict_types=1); function g() \x7b\x7d"

theorem target_of_strictFirst_ticksFirst :
    ∃ d ∈ (ofText (.ofLead "Acme") "a.php" strictFirst).decisions,
      ∃ e ∈ (ofText (.ofLead "Acme") "b.php" ticksFirst).decisions,
        d.directives = [⟨"strict_types", "1"⟩, ⟨"ticks", "2"⟩] ∧
          e.directives = [⟨"ticks", "2"⟩, ⟨"strict_types", "1"⟩] ∧ d.target = e.target := by
  let facts (d : Decision) := (d.exclusive, d.newSpace?, d.directives, d.isConditional)
  have hfirst : (ofText (.ofLead "Acme") "a.php" strictFirst).decisions.map facts =
      [(false, none, [⟨"strict_types", "1"⟩, ⟨"ticks", "2"⟩], false)] := by decide +kernel
  have hsecond : (ofText (.ofLead "Acme") "b.php" ticksFirst).decisions.map facts =
      [(false, none, [⟨"ticks", "2"⟩, ⟨"strict_types", "1"⟩], false)] := by decide +kernel
  obtain ⟨d, hd, hdfacts⟩ := List.mem_map.mp (hfirst ▸ List.mem_singleton_self _)
  obtain ⟨e, he, hefacts⟩ := List.mem_map.mp (hsecond ▸ List.mem_singleton_self _)
  obtain ⟨hdshared, hdspace, hddirectives, hdform⟩ : d.exclusive = false ∧ d.newSpace? = none ∧
      d.directives = _ ∧ d.isConditional = false := by simpa [facts] using hdfacts
  obtain ⟨heshared, hespace, hedirectives, heform⟩ : e.exclusive = false ∧ e.newSpace? = none ∧
      e.directives = _ ∧ e.isConditional = false := by simpa [facts] using hefacts
  refine ⟨d, hd, e, he, hddirectives, hedirectives, ?_⟩
  refine (target_eq_iff_isCompatible hd he hdshared heshared ?_ ?_).1 ⟨?_, ?_, ?_⟩
  · rw [hddirectives]
    decide
  · rw [hedirectives]
    decide
  · rw [hdspace, hespace]
  · intro x
    rw [hddirectives, hedirectives]
    exact (List.Perm.swap _ _ []).mem_iff
  · rw [hdform, heform]

end FilePlan
end NamespaceMigration
