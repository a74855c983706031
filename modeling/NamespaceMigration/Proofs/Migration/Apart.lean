import NamespaceMigration.Proofs.Migration.Clearing
import NamespaceMigration.Proofs.Migration.Layout
import NamespaceMigration.Proofs.Planning.Targets
import NamespaceMigration.Proofs.FirstCome

/-! The targets that plans have are spelled in one way only, so each leads to a place of its own. What is
planned and cannot be merged leaves its target as it was. -/
namespace NamespaceMigration

open Disk (placeOf walk)

/-- A path of names only. -/
def IsPlainPath (path : Text) : Prop := ∀ name ∈ path.splitOn '/', IsFileName name

theorem placeOf_eq_foldl (home : Place) (path : Text) :
    placeOf home path = (PathPart.ofPath path).foldl walk home := by
  rw [placeOf, Disk.steps]
  split_ifs
  · rw [List.foldl_append]
    rfl
  · rfl

theorem foldl_walk_named (place : Place) (names : List Text) :
    (names.map .named).foldl walk place = place ++ names := by
  induction names generalizing place with
  | nil => exact (List.append_nil place).symm
  | cons name names ih =>
    rw [List.map_cons, List.foldl_cons, ih, walk, List.append_assoc]
    rfl

theorem named_of_isFileName {names : List Text} (h : ∀ name ∈ names, IsFileName name) :
    (names.filter fun name => name ≠ [] ∧ name ≠ ['.']).map PathPart.ofName = names.map .named := by
  have hall : names.filter (fun name => name ≠ [] ∧ name ≠ ['.']) = names :=
    List.filter_eq_self.mpr fun name hname => decide_eq_true ⟨(h name hname).ne_nil, (h name hname).ne_here⟩
  rw [hall]
  exact List.map_congr_left fun name hname => if_neg (h name hname).ne_up

theorem ofPath_of_isPlainPath {path : Text} (h : IsPlainPath path) :
    PathPart.ofPath path = (path.splitOn '/').map .named := by
  have hslash : path.head? ≠ some '/' := by
    have hrelative := relative_of_named h
    rw [Path.isAbsolute] at hrelative
    exact beq_eq_false_iff_ne.mp hrelative
  have hhere : (path.splitOn '/').head? ≠ some ['.'] := fun hhead =>
    (h _ (List.mem_of_mem_head? hhead)).ne_here rfl
  rw [PathPart.ofPath]
  rw [if_neg hslash, if_neg hhere, List.nil_append, named_of_isFileName h]

theorem ofPath_slash (lead : Text) {path : Text} (h : IsPlainPath path) :
    PathPart.ofPath (lead ++ '/' :: path) =
      PathPart.ofPath (lead ++ ['/']) ++ (path.splitOn '/').map .named := by
  have hlead : lead.splitOn '/' ≠ [] := List.splitOn_ne_nil _ _
  have hhead : (lead ++ '/' :: path).head? = (lead ++ ['/']).head? := by
    cases lead <;> rfl
  rw [PathPart.ofPath, PathPart.ofPath]
  rw [hhead, splitOn_slash, splitOn_slash, List.head?_append_of_ne_nil _ hlead,
    List.head?_append_of_ne_nil _ hlead, List.filter_append, List.filter_append, List.map_append,
    named_of_isFileName h]
  simp

/-- Plain paths below a directory lead to places below one place. -/
theorem exists_base (home : Place) (directory : Text) : ∃ base, ∀ path, IsPlainPath path →
    placeOf home (Path.join directory path) = base ++ path.splitOn '/' := by
  have hslash (lead : Text) : ∃ base, ∀ path, IsPlainPath path →
      placeOf home (lead ++ '/' :: path) = base ++ path.splitOn '/' := by
    refine ⟨(PathPart.ofPath (lead ++ ['/'])).foldl walk home, fun path h => ?_⟩
    rw [placeOf_eq_foldl, ofPath_slash lead h, List.foldl_append, foldl_walk_named]
  by_cases hempty : directory = []
  · refine ⟨home, fun path h => ?_⟩
    rw [Path.join, if_pos (Or.inr (by rw [hempty]; rfl)), placeOf_eq_foldl, ofPath_of_isPlainPath h,
      foldl_walk_named]
  · have hrelative {path : Text} (h : IsPlainPath path) :
        ¬(Path.isAbsolute path = true ∨ directory.isEmpty = true) := by
      rw [relative_of_named h, List.isEmpty_iff]
      simpa using hempty
    by_cases hlast : directory.getLast? = some '/'
    · obtain ⟨lead, rfl⟩ := List.getLast?_eq_some_iff.mp hlast
      obtain ⟨base, hbase⟩ := hslash lead
      refine ⟨base, fun path h => ?_⟩
      rw [Path.join, if_neg (hrelative h), if_pos hlast, List.append_assoc]
      exact hbase path h
    · obtain ⟨base, hbase⟩ := hslash directory
      refine ⟨base, fun path h => ?_⟩
      rw [Path.join, if_neg (hrelative h), if_neg hlast]
      exact hbase path h

theorem IsTarget.extension_last {path : Text} (h : IsTarget path) {last : Text}
    (hlast : (path.splitOn '/').getLast? = some last) : ('.' :: sourceExtension) <:+ last := by
  obtain ⟨names, hnames⟩ := List.getLast?_eq_some_iff.mp hlast
  have hpath : path = Text.join ['/'] (names ++ [last]) := by
    rw [← hnames, Text.join_splitOn]
  by_cases hnil : names = []
  · rw [hnil, List.nil_append, Text.join_singleton] at hpath
    exact hpath ▸ h.extension
  · rw [Text.join_concat _ hnil] at hpath
    exact (IsTarget.of_append (hpath ▸ h)).extension

theorem slash_not_mem_name? (path : Text) : '/' ∉ (Path.name? path).getD [] := by
  intro hmem
  cases hname : Path.name? path with
  | none =>
    rw [hname] at hmem
    cases hmem
  | some name =>
    rw [hname] at hmem
    obtain ⟨part, hlast, hpart⟩ := Option.bind_eq_some_iff.mp hname
    cases part with
    | named other =>
      cases hpart
      exact (PathPart.isFileName_of_mem (List.mem_of_getLast? hlast)).1 hmem
    | _ => cases hpart

/-- A temporary path leads to a name that ends in another way than source files. -/
theorem exists_temporary (home : Place) (path : Text) : ∃ base name,
    placeOf home (temporaryPath path) = base ++ [name ++ (".tmp" : Text)] := by
  let name : Text := '.' :: (Path.name? path).getD []
  have hslash : '/' ∉ name ++ (".tmp" : Text) := by
    rw [List.mem_append, List.mem_cons, not_or, not_or]
    exact ⟨⟨by decide, slash_not_mem_name? path⟩, by decide⟩
  have hsplit : (name ++ (".tmp" : Text)).splitOn '/' = [name ++ (".tmp" : Text)] := by
    have hjoin := Text.splitOn_join (List.forall_mem_singleton.mpr hslash) (List.cons_ne_nil _ _)
    rwa [Text.join_singleton] at hjoin
  have hplain : IsPlainPath (name ++ (".tmp" : Text)) := by
    intro n hn
    rw [hsplit, List.mem_singleton] at hn
    have hlength : 5 ≤ n.length := by
      rw [hn, List.length_append]
      exact Nat.add_le_add (Nat.le_add_left 1 _) (Nat.le_refl 4)
    refine ⟨?_, ?_, ?_⟩ <;> rintro rfl <;> simp at hlength
  obtain ⟨base, hbase⟩ :=
    exists_base home (if (Path.name? path).isSome then (Path.parent? path).getD [] else path)
  exact ⟨base, name, (hbase _ hplain).trans (congrArg (base ++ ·) hsplit)⟩

/-- Targets that are plain paths are apart. -/
theorem isApart_of_isTarget (d : Disk) (destination : Text) {targets : List Text} {target : Text}
    (h : ∀ t ∈ targets, IsTarget t) (htarget : IsTarget target) :
    IsApart d destination targets target := by
  intro other hother hne hplace
  obtain ⟨base, hbase⟩ := exists_base d.home destination
  rw [hbase target htarget.named] at hplace
  rcases List.mem_cons.mp hplace with hplace | hplace
  · rw [hbase other (h other hother).named, List.append_cancel_left_eq] at hplace
    apply hne
    rw [← Text.join_splitOn '/' other, ← Text.join_splitOn '/' target, hplace]
  · obtain ⟨base', name, htemporary⟩ := exists_temporary d.home (Path.join destination other)
    rw [List.mem_singleton, htemporary] at hplace
    have hlast : (target.splitOn '/').getLast? = some (name ++ (".tmp" : Text)) := by
      have hsplit : target.splitOn '/' ≠ [] := List.splitOn_ne_nil _ _
      have hends := congrArg List.getLast? hplace
      rwa [List.getLast?_append_of_ne_nil _ hsplit, List.getLast?_concat] at hends
    have hphp := htarget.extension_last hlast
    have htmp : (".tmp" : Text) <:+ name ++ (".tmp" : Text) := List.suffix_append _ _
    exact absurd (List.suffix_of_suffix_length_le hphp htmp (by decide)) (by decide)

theorem mem_extractFile {d : Disk} {p : ProjectPlan} {o : LayoutOptions} {file : FilePlan}
    {deliveries : List Delivery} (h : d.extractFile p o file = .ok deliveries) :
    ∀ x ∈ deliveries, ∃ c ∈ file.decisions, x.target = c.finalTarget p.lead o := by
  intro x hx
  rw [Disk.extractFile] at h
  split_ifs at h
  · cases h
    cases hx
  · obtain ⟨text, -, h⟩ := bind_eq_ok h
    obtain ⟨c, hc, hextract⟩ := exists_of_mem_mapM h x hx
    obtain ⟨extraction, -, hx⟩ := bind_eq_ok hextract
    cases hx
    exact ⟨c, hc, rfl⟩

theorem mem_deliveries {d : Disk} {p : ProjectPlan} {o : LayoutOptions} {deliveries : List Delivery}
    (h : d.deliveries p o = .ok deliveries) :
    ∀ x ∈ deliveries, ∃ file ∈ p.files, ∃ c ∈ file.decisions, x.target = c.finalTarget p.lead o := by
  intro x hx
  obtain ⟨_, -, h⟩ := bind_eq_ok h
  split_ifs at h
  · cases h
  · obtain ⟨parts, hparts, h⟩ := bind_eq_ok h
    cases h
    obtain ⟨part, hpart, hx⟩ := List.mem_flatten.mp hx
    obtain ⟨file, hfile, hextract⟩ := exists_of_mem_mapM hparts part hpart
    exact ⟨file, hfile, mem_extractFile hextract x hx⟩

section Planned

variable {c : PlanConfig} (hc : c.validate = .ok ()) (hincludes : c.includesPath ≠ [])
include hc hincludes

theorem isTarget_finalTarget {path : Text} {content : Bytes} {decision : Decision}
    (h : decision ∈ (FilePlan.ofBytes c path content).decisions) (lead : Text) (o : LayoutOptions) :
    IsTarget (decision.finalTarget lead o) := by
  obtain ⟨t, h⟩ := FilePlan.exists_ofText h
  rw [Decision.finalTarget]
  cases hexclusive : decision.exclusive with
  | true =>
    have htarget := FilePlan.isTarget_exclusive hc h hexclusive
    split_ifs
    · exact htarget.dropLeadPath lead
    · exact htarget
  | false =>
    rw [if_neg (by simp), FilePlan.shared_spec h hexclusive]
    exact PlanConfig.isTarget_bucketTarget_iff.mpr hincludes

theorem isTarget_of_planned {root : Text} {sources : List (Text × Bytes)} {o : LayoutOptions}
    {d : Disk} {deliveries : List Delivery}
    (h : d.deliveries (planSources root c sources) o = .ok deliveries) :
    ∀ t ∈ deliveries.map (·.target), IsTarget t := by
  intro t ht
  obtain ⟨x, hx, rfl⟩ := List.mem_map.mp ht
  obtain ⟨file, hfile, decision, hdecision, htarget⟩ := mem_deliveries h x hx
  obtain ⟨planned, hplanned, hdecision⟩ := mem_of_settleFiles hfile decision hdecision
  obtain ⟨s, -, rfl⟩ := List.mem_map.mp hplanned
  rw [htarget]
  exact isTarget_finalTarget hc hincludes hdecision _ o

theorem targetContent?_of_planned {root destination t : Text} {sources : List (Text × Bytes)}
    {o : LayoutOptions} {d d' : Disk} {fault : MergeFault} (h : d.LinkFree)
    (hrun : (writeLayout (planSources root c sources) destination o).run d =
      .error (.extraction (.incompatible t fault)) d') :
    d'.targetContent? destination t = d.targetContent? destination t := by
  rcases writeLayout_incompatible hrun with rfl | ⟨deliveries, hdeliveries, ht, hcontent⟩
  · rfl
  · have htargets := isTarget_of_planned hc hincludes hdeliveries
    exact hcontent h (isApart_of_isTarget d destination htargets (htargets t ht))

end Planned
end NamespaceMigration
