import NamespaceMigration.Migration.Layout
import NamespaceMigration.Proofs.Planning.Legality

/-! Where the code goes. The files of types, and shared files in a directory with a name, are below the
destination; a directory for shared code without a name is the root. -/
namespace NamespaceMigration

open Lexer (isNameChar)

/-- A name that leads into its directory. -/
structure IsFileName (name : Text) : Prop where
  ne_nil : name ≠ []
  ne_here : name ≠ ['.']
  ne_up : name ≠ ['.', '.']

/-- The path of a source file below the destination. -/
structure IsTarget (path : Text) : Prop where
  relative : Path.isAbsolute path = false
  named : ∀ name ∈ path.splitOn '/', IsFileName name
  extension : ('.' :: sourceExtension) <:+ path

theorem splitOn_slash (before after : Text) :
    (before ++ '/' :: after).splitOn '/' = before.splitOn '/' ++ after.splitOn '/' := by
  have hbefore : before.splitOn '/' ≠ [] := List.splitOn_ne_nil _ _
  have hafter : after.splitOn '/' ≠ [] := List.splitOn_ne_nil _ _
  have hjoin := Text.join_append '/' hbefore hafter
  rw [Text.join_splitOn, Text.join_splitOn] at hjoin
  rw [← hjoin, Text.splitOn_join _ (List.append_ne_nil_of_left_ne_nil hbefore _)]
  exact List.forall_mem_append.mpr ⟨splitOn_not_mem '/' before, splitOn_not_mem '/' after⟩

theorem relative_of_named {path : Text} (h : ∀ name ∈ path.splitOn '/', IsFileName name) :
    Path.isAbsolute path = false := by
  cases path with
  | nil => rfl
  | cons c rest =>
    rw [Path.isAbsolute, List.head?_cons, beq_eq_false_iff_ne]
    intro hc
    cases hc
    have hsplit := splitOn_slash [] rest
    rw [List.nil_append] at hsplit
    refine (h [] ?_).ne_nil rfl
    rw [hsplit]
    exact List.mem_append_left _ (by decide)

theorem IsFileName.of_not_mem {name : Text} (hne : name ≠ []) (h : '.' ∉ name) : IsFileName name := by
  refine ⟨hne, ?_, ?_⟩
  · rintro rfl
    exact h List.mem_cons_self
  · rintro rfl
    exact h List.mem_cons_self

theorem IsFileName.append_extension (name : Text) : IsFileName (name ++ '.' :: sourceExtension) := by
  have hlength : 4 ≤ (name ++ '.' :: sourceExtension).length := by
    rw [List.length_append]
    exact Nat.le_add_left 4 _
  have hne {short : Text} (hshort : short.length < 4) : name ++ '.' :: sourceExtension ≠ short := by
    rintro rfl
    omega
  exact ⟨hne (by decide), hne (by decide), hne (by decide)⟩

/-- Names and a source file behind them make a target. -/
theorem isTarget_join {names : List Text} {name : Text}
    (hnames : ∀ n ∈ names, '/' ∉ n ∧ IsFileName n) (hname : '/' ∉ name) :
    IsTarget (Text.join ['/'] (names ++ [name ++ '.' :: sourceExtension])) := by
  have hlast : '/' ∉ name ++ '.' :: sourceExtension := by
    rw [List.mem_append, not_or]
    exact ⟨hname, by decide⟩
  have hsplit := Text.splitOn_join
    (List.forall_mem_append.mpr ⟨fun n hn => (hnames n hn).1, List.forall_mem_singleton.mpr hlast⟩)
    (List.append_ne_nil_of_right_ne_nil names (List.cons_ne_nil _ _))
  have hnamed : ∀ n ∈ (Text.join ['/'] (names ++ [name ++ '.' :: sourceExtension])).splitOn '/',
      IsFileName n := by
    rw [hsplit]
    exact List.forall_mem_append.mpr ⟨fun n hn => (hnames n hn).2,
      List.forall_mem_singleton.mpr (.append_extension name)⟩
  refine ⟨relative_of_named hnamed, hnamed, ?_⟩
  by_cases hnil : names = []
  · rw [hnil, List.nil_append, Text.join_singleton]
    exact List.suffix_append _ _
  · rw [Text.join_concat _ hnil, ← List.cons_append, ← List.append_assoc]
    exact List.suffix_append _ _

theorem IsTarget.of_append {before after : Text} (h : IsTarget (before ++ '/' :: after)) :
    IsTarget after := by
  have hnamed : ∀ name ∈ after.splitOn '/', IsFileName name := by
    intro name hname
    refine h.named name ?_
    rw [splitOn_slash]
    exact List.mem_append_right _ hname
  refine ⟨relative_of_named hnamed, hnamed, ?_⟩
  rcases List.suffix_or_suffix_of_suffix h.extension (List.suffix_append before ('/' :: after)) with
    hshort | hlong
  · rcases List.suffix_cons_iff.mp hshort with heq | hsuffix
    · cases heq
    · exact hsuffix
  · exact absurd (hlong.subset List.mem_cons_self) (by decide)

theorem IsTarget.dropLeadPath {target : Text} (h : IsTarget target) (lead : Text) :
    IsTarget (dropLeadPath lead target) := by
  rw [NamespaceMigration.dropLeadPath]
  split
  · exact h
  · dsimp only
    cases hdrop : Text.dropLead? (lead.map (fun c => if c = '\\' then '/' else c) ++ ['/']) target with
    | none => exact h
    | some rest =>
      rw [Text.dropLead?_eq_some_iff, List.append_assoc] at hdrop
      rw [hdrop] at h
      exact h.of_append

namespace PlanConfig

variable {c : PlanConfig} {parts : List Text} {short : Text}

theorem isTarget_typeTarget (h : AreSegments (parts ++ [short]))
    (hchars : ∀ s ∈ parts ++ [short], ∀ c ∈ s, isNameChar c) :
    IsTarget (typeTarget (nameIn parts short)) := by
  have hsign {s : Text} (hs : s ∈ parts ++ [short]) {d : Char} (hd : isNameChar d = false) : d ∉ s := by
    intro hmem
    rw [hchars s hs d hmem] at hd
    cases hd
  have hparts : ∀ s ∈ parts, '/' ∉ s ∧ IsFileName s := fun s hs =>
    have hs := List.mem_append_left [short] hs
    ⟨hsign hs (by decide), .of_not_mem (h.plain s hs).1 (hsign hs (by decide))⟩
  have hshort : '/' ∉ short := hsign (List.mem_append_right _ List.mem_cons_self) (by decide)
  have hjoin := isTarget_join hparts hshort
  rw [typeTarget, nameIn, QualifiedName.segments_join h]
  by_cases hnil : parts = []
  · rw [hnil, List.nil_append, Text.join_singleton] at hjoin ⊢
    exact hjoin
  · rw [Text.join_concat _ hnil] at hjoin ⊢
    rwa [List.append_assoc, List.cons_append]

theorem isNameChar_safeSegment {s : Text} (h : ∀ c ∈ s, isNameChar c) :
    ∀ c ∈ safeSegment s, isNameChar c := by
  intro d hd
  rcases mem_safeSegment hd with hd | rfl
  · exact h d hd
  · rfl

theorem isNameChar_typeParts (h : c.validate = .ok ()) (hname : IsDeclared parts short) :
    ∀ s ∈ c.typeParts parts short, ∀ d ∈ s, isNameChar d := by
  refine List.forall_mem_append.mpr ⟨List.forall_mem_append.mpr ⟨fun s hs => ?_, ?_⟩, ?_⟩
  · exact isNameChar_of_isIdentifier (Bool.and_eq_true_iff.mp (isSegment_leadParts h s hs)).1
  · exact List.forall_mem_map.mpr fun s hs =>
      isNameChar_safeSegment (isNameChar_of_isIdentifier (hname.parts s (mem_restParts hs)))
  · exact List.forall_mem_map.mpr fun piece hpiece =>
      isNameChar_safeSegment (isNameChar_capitalize fun d hd =>
        isNameChar_of_isIdentifier hname.short d ((mem_pieces hpiece).2 hd))

theorem isNameChar_typeShort (h : c.validate = .ok ()) (hname : IsDeclared parts short) :
    ∀ d ∈ c.typeShort parts short, isNameChar d := by
  have hlast : ∀ d ∈ c.typeLast parts short, isNameChar d :=
    isNameChar_capitalize fun d hd => isNameChar_of_isIdentifier hname.short d
      ((last_subset (isIdentifier_plain hname.short).1).2 hd)
  rw [typeShort, Identifier.withLead]
  split
  · exact List.forall_mem_append.mpr ⟨isNameChar_typeParts h hname _ typeLead_mem, hlast⟩
  · exact hlast

end PlanConfig

theorem FilePlan.isTarget_exclusive {c : PlanConfig} (h : c.validate = .ok ()) {path t : Text}
    {d : Decision} (hd : d ∈ (ofText c path t).decisions) (hexclusive : d.exclusive) :
    IsTarget d.target := by
  obtain ⟨short, hname, htype, -, -, htarget⟩ := exclusive_spec hd hexclusive
  have hids := List.forall_mem_append.mpr ⟨hname.parts, List.forall_mem_singleton.mpr hname.short⟩
  have hparts : ∀ s ∈ spaceParts d.oldSpace?, s ≠ [] ∧ '\\' ∉ s :=
    fun s hs => isIdentifier_plain (hname.parts s hs)
  have hshort := isIdentifier_plain hname.short
  rw [htarget, PlanConfig.planned_new h hname htype]
  split
  · exact PlanConfig.isTarget_typeTarget
      (.of_forall (List.append_ne_nil_of_right_ne_nil _ (List.cons_ne_nil _ _)) hids)
      fun s hs => isNameChar_of_isIdentifier (hids s hs)
  · refine PlanConfig.isTarget_typeTarget ?_ ?_
    · exact (PlanConfig.areSegments_typeParts h hparts hshort).append
        (List.forall_mem_singleton.mpr (PlanConfig.typeShort_plain h hparts hshort))
    · exact List.forall_mem_append.mpr ⟨PlanConfig.isNameChar_typeParts h hname,
        List.forall_mem_singleton.mpr (PlanConfig.isNameChar_typeShort h hname)⟩

theorem slash_not_mem_toHex (bytes : Bytes) : '/' ∉ bytes.toHex := by
  have hdigit : ∀ n < 16, Nat.digitChar n ≠ '/' := by decide
  intro hmem
  obtain ⟨b, -, hb⟩ := List.mem_flatMap.mp hmem
  have hbyte := b.toNat_lt
  rcases List.mem_cons.mp hb with hb | hb
  · exact hdigit _ (by omega) hb.symm
  · exact hdigit _ (by omega) (List.mem_singleton.mp hb).symm

theorem PathPart.isFileName_of_mem {path name : Text} (h : .named name ∈ ofPath path) :
    '/' ∉ name ∧ IsFileName name := by
  rw [ofPath] at h
  rcases List.mem_append.mp h with hstart | hnames
  · split_ifs at hstart
    · cases List.mem_singleton.mp hstart
    · cases List.mem_singleton.mp hstart
    · cases hstart
  · obtain ⟨part, hpart, heq⟩ := List.mem_map.mp hnames
    obtain ⟨hsplit, hkept⟩ := List.mem_filter.mp hpart
    rw [decide_eq_true_eq] at hkept
    rw [ofName] at heq
    split at heq
    · cases heq
    · rename_i hup
      cases heq
      exact ⟨splitOn_not_mem '/' path name hsplit, hkept.1, hkept.2, hup⟩

namespace PlanConfig

/-- The names of the directory for shared code. -/
def includesNames (c : PlanConfig) : List Text := (PathPart.ofPath c.includesDir).filterMap PathPart.name?

theorem isFileName_includesNames (c : PlanConfig) :
    ∀ name ∈ c.includesNames, '/' ∉ name ∧ IsFileName name := by
  intro name hname
  obtain ⟨part, hpart, hsome⟩ := List.mem_filterMap.mp hname
  cases part with
  | named other =>
    cases hsome
    exact PathPart.isFileName_of_mem hpart
  | _ => cases hsome

theorem includesPath_eq_nil_iff (c : PlanConfig) : c.includesPath = [] ↔ c.includesNames = [] := by
  constructor
  · intro h
    cases hnames : c.includesNames with
    | nil => rfl
    | cons name rest =>
      have hfirst := (isFileName_includesNames c name (by rw [hnames]; exact List.mem_cons_self)).2
      obtain ⟨d, u, rfl⟩ := List.exists_cons_of_ne_nil hfirst.ne_nil
      have hmem := Text.mem_join_of_mem (c := '/') (hnames ▸ List.mem_cons_self) List.mem_cons_self
      change d ∈ c.includesPath at hmem
      rw [h] at hmem
      cases hmem
  · intro h
    change Text.join ['/'] c.includesNames = []
    rw [h]
    rfl

/-- A shared file is below the destination exactly if its directory has a name. -/
theorem isTarget_bucketTarget_iff {c : PlanConfig} {space? : Option Text}
    {directives : List Directive} {conditional : Bool} :
    IsTarget (c.bucketTarget space? directives conditional) ↔ c.includesPath ≠ [] := by
  rw [bucketTarget]
  constructor
  · intro h hnil
    rw [hnil] at h
    cases h.relative
  · intro h
    have hnames := (includesPath_eq_nil_iff c).not.mp h
    generalize hdigest :
      contentHash (Text.toUtf8 (bucketInput space? directives conditional)) = digest
    have hslash : '/' ∉ digest.take bucketDigits := by
      intro hmem
      rw [← hdigest] at hmem
      exact slash_not_mem_toHex _ (List.mem_of_mem_take hmem)
    have hname : '/' ∉ "include.".toList ++ digest.take bucketDigits := by
      rw [List.mem_append, not_or]
      exact ⟨by decide, hslash⟩
    have hjoin := isTarget_join (isFileName_includesNames c) hname
    have hpath : c.includesPath ++ "/include.".toList ++ digest.take bucketDigits ++
        '.' :: sourceExtension = Text.join ['/']
          (c.includesNames ++ ["include.".toList ++ digest.take bucketDigits ++ '.' :: sourceExtension]) := by
      rw [Text.join_concat _ hnames, List.append_assoc, List.append_assoc, List.append_assoc]
      rfl
    rwa [hpath]

end PlanConfig

/-- Every target is below the destination, with and without the directories of the lead, but for the
shared files of a directory without a name: those are files of the root. -/
theorem FilePlan.isTarget_iff {c : PlanConfig} (h : c.validate = .ok ()) {path t : Text} {d : Decision}
    (hd : d ∈ (ofText c path t).decisions) :
    (IsTarget d.target ↔ d.exclusive ∨ c.includesPath ≠ []) ∧
      (d.exclusive → ∀ lead, IsTarget (dropLeadPath lead d.target)) := by
  cases hexclusive : d.exclusive with
  | true =>
    have htarget := isTarget_exclusive h hd hexclusive
    exact ⟨iff_of_true htarget (Or.inl rfl), fun _ lead => htarget.dropLeadPath lead⟩
  | false =>
    rw [shared_spec hd hexclusive, PlanConfig.isTarget_bucketTarget_iff]
    exact ⟨(or_iff_right Bool.false_ne_true).symm, fun hfalse => absurd hfalse Bool.false_ne_true⟩

/-- A function whose directory for shared code is the destination itself. -/
def atRoot : PlanConfig := { PlanConfig.ofLead "Acme" with includesDir := "." }

def oneFunction : Text := "<?php function f() {}"

theorem oneFunction_decisions :
    (FilePlan.ofText atRoot "a.php" oneFunction).decisions.length = 1 := by decide +kernel

def oneFunctionDecision : Decision :=
  (FilePlan.ofText atRoot "a.php" oneFunction).decisions.get
    ⟨0, by rw [oneFunction_decisions]; decide⟩

theorem oneFunction_escapes : ¬IsTarget oneFunctionDecision.target := by
  have h := (FilePlan.isTarget_iff (c := atRoot) (by rfl)
    (show oneFunctionDecision ∈ _ from List.get_mem _ _)).1
  exact h.not.mpr (by decide +kernel)

end NamespaceMigration
