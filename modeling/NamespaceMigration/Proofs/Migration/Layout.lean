import Mathlib.Data.List.Nodup
import Mathlib.Data.List.Perm.Subperm
import NamespaceMigration.Migration.Layout
import NamespaceMigration.Proofs.Fallible
import NamespaceMigration.Proofs.Migration.Tasks

/-! A layout is written after everything has been read and taken apart, one target after the other. A
target that cannot be merged is left as it was. -/
namespace NamespaceMigration

open Disk (SameBut placeOf)

variable {d : Disk}

theorem mergeAll_eq_error {target : Text} {first : Fragment} {others : List Fragment}
    {e : MigrationError} (h : Bundle.mergeAll target first others = .error e) :
    ∃ fault, e = .extraction (.incompatible target fault) := by
  induction others generalizing first with
  | nil => cases h
  | cons other others ih =>
    rw [Bundle.mergeAll, List.foldlM_cons] at h
    rcases bind_eq_error h with h | ⟨merged, -, h⟩
    · obtain ⟨fault, -, rfl⟩ := mapError_eq_error h
      exact ⟨fault, rfl⟩
    · exact ih h

theorem merged_eq_error {b : Bundle} {present? : Option Text} {e : MigrationError}
    (h : b.merged present? = .error e) : ∃ fault, e = .extraction (.incompatible b.target fault) := by
  rw [Bundle.merged.eq_def] at h
  split at h
  · rcases bind_eq_error h with h | ⟨present, -, h⟩
    · obtain ⟨fault, -, rfl⟩ := mapError_eq_error h
      exact ⟨fault, rfl⟩
    · exact mergeAll_eq_error (map_eq_error h)
  · exact mergeAll_eq_error (map_eq_error h)
  · cases h

theorem bundleText?_eq_error {destination : Text} {b : Bundle} {e : MigrationError}
    (h : d.bundleText? destination b = .error e) :
    (∃ path fault, e = .io path fault) ∨ ∃ fault, e = .extraction (.incompatible b.target fault) := by
  rw [Disk.bundleText?] at h
  rcases bind_eq_error h with h | ⟨present?, -, h⟩
  · rw [Disk.presentText?] at h
    split_ifs at h
    obtain ⟨fault, -, rfl⟩ := mapError_eq_error (map_eq_error h)
    exact Or.inl ⟨_, fault, rfl⟩
  · rcases bind_eq_error h with h | ⟨merged?, -, h⟩
    · exact Or.inr (merged_eq_error h)
    · cases h

theorem run_writeBundle (destination : Text) (b : Bundle) (d : Disk) :
    (writeBundle destination b).run d =
      match d.bundleText? destination b with
      | .error e => .error e d
      | .ok none => .ok () d
      | .ok (some t) => (installFile (Path.join destination b.target) t).run d := by
  rw [writeBundle, DiskTask.run_bind, DiskTask.run_ask]
  cases d.bundleText? destination b with
  | error e => rfl
  | ok t? => cases t? <;> rfl

theorem sameBut_writeBundle (h : d.LinkFree) (destination : Text) (b : Bundle) :
    SameBut (installPlaces d.home (Path.join destination b.target)) d
      ((writeBundle destination b).after d) := by
  rw [DiskTask.after, run_writeBundle]
  cases d.bundleText? destination b with
  | error e => exact .refl h
  | ok t? =>
    cases t? with
    | none => exact .refl h
    | some t => exact sameBut_installFile h (Path.join destination b.target) t

theorem writeBundle_incompatible {destination t : Text} {b : Bundle} {fault : MergeFault} {d' : Disk}
    (h : (writeBundle destination b).run d = .error (.extraction (.incompatible t fault)) d') :
    t = b.target ∧ d' = d := by
  rw [run_writeBundle] at h
  split at h
  · rename_i htext
    cases h
    rcases bundleText?_eq_error htext with ⟨path, e, hio⟩ | ⟨fault, hincompatible⟩
    · cases hio
    · cases hincompatible
      exact ⟨rfl, rfl⟩
  · cases h
  · obtain ⟨path, e, hio⟩ := failsWith_installFile
      (P := fun error => ∃ path e, error = .io path e) (fun path e => ⟨path, e, rfl⟩) _ _ _ _ _ h
    cases hio

theorem nodup_eraseDups {α : Type} [BEq α] [LawfulBEq α] : (l : List α) → l.eraseDups.Nodup
  | [] => List.nodup_nil
  | a :: l => by
    rw [List.eraseDups_cons, List.nodup_cons, List.mem_eraseDups, List.mem_filter]
    exact ⟨by simp, nodup_eraseDups _⟩
termination_by l => l.length
decreasing_by exact Nat.lt_succ_of_le (List.length_filter_le ..)

theorem targets_ofDeliveries (deliveries : List Delivery) :
    (Bundle.ofDeliveries deliveries).map (·.target) = (deliveries.map (·.target)).eraseDups := by
  rw [Bundle.ofDeliveries, List.map_map]
  exact List.map_id _

theorem nodup_targets {deliveries : List Delivery} {bundles : List Bundle}
    (h : bundles.Subperm (Bundle.ofDeliveries deliveries)) : (bundles.map (·.target)).Nodup := by
  obtain ⟨l, hperm, hsub⟩ := h
  have hall : ((Bundle.ofDeliveries deliveries).map (·.target)).Nodup := by
    rw [targets_ofDeliveries]
    exact nodup_eraseDups _
  exact (hperm.map _).nodup_iff.mp (hall.sublist (hsub.map _))

theorem mem_targets_of_mem {deliveries : List Delivery} {b : Bundle}
    (h : b ∈ Bundle.ofDeliveries deliveries) : b.target ∈ deliveries.map (·.target) := by
  have hmem := List.mem_map_of_mem (f := (·.target)) h
  rwa [targets_ofDeliveries, List.mem_eraseDups] at hmem

/-- No other target leads where this one does, and neither does its temporary path. -/
def IsApart (d : Disk) (destination : Text) (targets : List Text) (target : Text) : Prop :=
  ∀ other ∈ targets, other ≠ target →
    placeOf d.home (Path.join destination target) ∉ installPlaces d.home (Path.join destination other)

instance (d : Disk) (destination : Text) (targets : List Text) (target : Text) :
    Decidable (IsApart d destination targets target) :=
  inferInstanceAs (Decidable (∀ other ∈ targets, other ≠ target →
    placeOf d.home (Path.join destination target) ∉ installPlaces d.home (Path.join destination other)))

/-- What a target holds. -/
def Disk.targetContent? (d : Disk) (destination target : Text) : Option Bytes :=
  d.content? (placeOf d.home (Path.join destination target))

section Bundles

variable {destination : Text} {deliveries : List Delivery} {before after : List Bundle} {b : Bundle}

theorem sameBut_afterEach (h : d.LinkFree) (destination : Text) (bundles : List Bundle) :
    SameBut (bundles.flatMap fun b => installPlaces d.home (Path.join destination b.target)) d
      (DiskTask.afterEach (writeBundle destination) bundles d) := by
  refine DiskTask.keeps_afterEach (fun b hb d' h' => ?_) (.refl h)
  have hstep := sameBut_writeBundle h'.linkFree destination b
  rw [h'.home] at hstep
  exact h'.trans (hstep.mono fun place hplace => List.mem_flatMap.mpr ⟨b, hb, hplace⟩)

theorem targetContent?_afterEach {target : Text} {bundles : List Bundle} (h : d.LinkFree)
    (hbundles : ∀ b ∈ bundles, b.target ∈ deliveries.map (·.target) ∧ b.target ≠ target)
    (hapart : IsApart d destination (deliveries.map (·.target)) target) :
    (DiskTask.afterEach (writeBundle destination) bundles d).targetContent? destination target =
      d.targetContent? destination target := by
  have hsame := sameBut_afterEach h destination bundles
  rw [Disk.targetContent?, Disk.targetContent?, hsame.home]
  refine hsame.content _ fun hplace => ?_
  obtain ⟨b, hb, hplace⟩ := List.mem_flatMap.mp hplace
  obtain ⟨hmem, hne⟩ := hbundles b hb
  exact hapart b.target hmem hne hplace

/-- Whichever bundles are written before and after one that cannot be merged, its target is in the end
what it was before all of them. -/
theorem targetContent?_of_incompatible {t : Text} {fault : MergeFault} {d' : Disk}
    (hbundles : (before ++ b :: after).Subperm (Bundle.ofDeliveries deliveries))
    (hfail : (writeBundle destination b).run (DiskTask.afterEach (writeBundle destination) before d) =
      .error (.extraction (.incompatible t fault)) d')
    (h : d.LinkFree) (hapart : IsApart d destination (deliveries.map (·.target)) t) :
    (DiskTask.afterEach (writeBundle destination) (before ++ b :: after) d).targetContent? destination t =
      d.targetContent? destination t := by
  obtain ⟨rfl, hsame⟩ := writeBundle_incompatible hfail
  have hothers : DiskTask.afterEach (writeBundle destination) (before ++ b :: after) d =
      DiskTask.afterEach (writeBundle destination) (before ++ after) d := by
    rw [DiskTask.afterEach_append, DiskTask.afterEach_cons, DiskTask.after_of_error hfail, hsame,
      DiskTask.afterEach_append]
  rw [hothers]
  refine targetContent?_afterEach h (fun c hc => ?_) hapart
  have hnodup := nodup_targets hbundles
  rw [List.map_append, List.map_cons, List.nodup_middle, List.nodup_cons, ← List.map_append] at hnodup
  have hmem : c ∈ before ++ b :: after :=
    List.mem_append.mpr ((List.mem_append.mp hc).imp_right (List.mem_cons_of_mem b))
  refine ⟨mem_targets_of_mem (hbundles.subset hmem), fun heq => hnodup.1 ?_⟩
  exact heq ▸ List.mem_map_of_mem hc

end Bundles

namespace MigrationError

/-- Errors that come before anything is written: all but those of reading or writing files and of
merging. -/
def comesFirst : MigrationError → Bool
  | io .. | extraction (.incompatible ..) => false
  | _ => true

end MigrationError

theorem failsWith_writeBundle (destination : Text) (b : Bundle) :
    (writeBundle destination b).FailsWith (fun e => e.comesFirst = false) := by
  intro d e d' h
  rw [run_writeBundle] at h
  split at h
  · rename_i htext
    cases h
    rcases bundleText?_eq_error htext with ⟨path, e, rfl⟩ | ⟨fault, rfl⟩ <;> rfl
  · cases h
  · exact failsWith_installFile (P := fun e => e.comesFirst = false) (fun _ _ => rfl) _ _ _ _ _ h

theorem failsWith_writeAutoload {P : MigrationError → Prop} (h : ∀ path e, P (.io path e))
    (p : ProjectPlan) (destination : Text) : (writeAutoload p destination).FailsWith P := by
  rw [writeAutoload]
  dsimp only
  split_ifs
  · exact DiskTask.failsWith_pure 0
  · exact (failsWith_installFile h _ _).bind fun _ => DiskTask.failsWith_pure _

section Layout

variable {p : ProjectPlan} {destination : Text} {o : LayoutOptions}

theorem writeLayout_of_deliveries_error {e : MigrationError} (h : d.deliveries p o = .error e) :
    (writeLayout p destination o).run d = .error e d := by
  rw [writeLayout, DiskTask.run_bind, DiskTask.run_ask, h]

/-- Where writing a layout fails: before the first target, at a target, or after the last. -/
theorem writeLayout_eq_error {e : MigrationError} {d' : Disk}
    (h : (writeLayout p destination o).run d = .error e d') :
    d.deliveries p o = .error e ∧ d' = d ∨
    ∃ deliveries, d.deliveries p o = .ok deliveries ∧
      ((∃ before b after, Bundle.ofDeliveries deliveries = before ++ b :: after ∧
        (writeBundle destination b).run (DiskTask.afterEach (writeBundle destination) before d) =
          .error e d') ∨ ∃ path fault, e = .io path fault) := by
  rw [writeLayout, DiskTask.run_bind, DiskTask.run_ask] at h
  cases hdeliveries : d.deliveries p o with
  | error e' =>
    rw [hdeliveries] at h
    cases h
    exact Or.inl ⟨rfl, rfl⟩
  | ok deliveries =>
    rw [hdeliveries] at h
    dsimp only at h
    rw [DiskTask.run_bind] at h
    refine Or.inr ⟨deliveries, rfl, ?_⟩
    cases hbundles : ((Bundle.ofDeliveries deliveries).forM (writeBundle destination)).run d with
    | error e' d₁ =>
      rw [hbundles] at h
      cases h
      exact Or.inl (DiskTask.forM_eq_error hbundles)
    | ok _ d₁ =>
      rw [hbundles] at h
      dsimp only at h
      right
      split_ifs at h
      · exact ((failsWith_writeAutoload (P := fun e => ∃ path fault, e = .io path fault)
          (fun path fault => ⟨path, fault, rfl⟩) p destination).bind
            fun _ => DiskTask.failsWith_pure _) _ _ _ h
      · cases h

theorem writeLayout_of_comesFirst {e : MigrationError} {d' : Disk}
    (h : (writeLayout p destination o).run d = .error e d') (hfirst : e.comesFirst) : d' = d := by
  rcases writeLayout_eq_error h with ⟨-, hsame⟩ | ⟨-, -, ⟨_, b, _, -, hb⟩ | ⟨path, fault, rfl⟩⟩
  · exact hsame
  · rw [failsWith_writeBundle destination b _ _ _ hb] at hfirst
    cases hfirst
  · cases hfirst

/-- Code that cannot be merged is found before anything is written, or at its target, which stays. -/
theorem writeLayout_incompatible {t : Text} {fault : MergeFault} {d' : Disk}
    (h : (writeLayout p destination o).run d = .error (.extraction (.incompatible t fault)) d') :
    d' = d ∨ ∃ deliveries, d.deliveries p o = .ok deliveries ∧ t ∈ deliveries.map (·.target) ∧
      (d.LinkFree → IsApart d destination (deliveries.map (·.target)) t →
        d'.targetContent? destination t = d.targetContent? destination t) := by
  rcases writeLayout_eq_error h with
    ⟨-, hsame⟩ | ⟨deliveries, hdeliveries, ⟨before, b, after, hall, hb⟩ | ⟨path, fault, hio⟩⟩
  · exact Or.inl hsame
  · refine Or.inr ⟨deliveries, hdeliveries, ?_⟩
    obtain ⟨rfl, -⟩ := writeBundle_incompatible hb
    have hmem : b ∈ Bundle.ofDeliveries deliveries := by
      rw [hall]
      exact List.mem_append_right before List.mem_cons_self
    have hbundles : (before ++ [b]).Subperm (Bundle.ofDeliveries deliveries) := by
      rw [hall, List.append_cons before b after]
      exact (List.sublist_append_left _ after).subperm
    refine ⟨mem_targets_of_mem hmem, fun hlinks hapart => ?_⟩
    have hcontent := targetContent?_of_incompatible hbundles hb hlinks hapart
    rwa [DiskTask.afterEach_append, DiskTask.afterEach_cons, DiskTask.after_of_error hb] at hcontent
  · cases hio

theorem deliveries_of_risk (hallow : o.allowRisky = false)
    (hrisk : ∃ file ∈ p.files, file.includesFile ∨ ∃ c ∈ file.decisions, c.risky) :
    ∃ e, d.deliveries p o = .error e := by
  obtain ⟨file, hfile, hrisk⟩ := hrisk
  have hrisky : file.isRisky := by
    rw [FilePlan.isRisky, Bool.or_eq_true, List.any_eq_true]
    exact hrisk
  have hsome : p.riskyFiles.isEmpty = false :=
    List.isEmpty_eq_false_iff_exists_mem.mpr ⟨file, List.mem_filter.mpr ⟨hfile, hrisky⟩⟩
  rw [Disk.deliveries]
  cases d.checkFiles p false with
  | error e => exact ⟨e, rfl⟩
  | ok _ =>
    rw [ok_bind, hallow, hsome]
    exact ⟨_, rfl⟩

/-- Writing a layout fails cleanly. Nothing changes if reading the sources or taking them apart fails, or
if the plan has risks that are not accepted. A target that cannot be merged is left as it was, in whatever
order the targets are written and whichever of them are, unless another target leads to the same place. -/
theorem writeLayout_failsCleanly (p : ProjectPlan) (destination : Text) (o : LayoutOptions) (d : Disk) :
    (∀ e, d.deliveries p o = .error e → (writeLayout p destination o).run d = .error e d) ∧
    (∀ e d', (writeLayout p destination o).run d = .error e d' → e.comesFirst → d' = d) ∧
    (∀ t fault d',
      (writeLayout p destination o).run d = .error (.extraction (.incompatible t fault)) d' →
      d' = d ∨ ∃ deliveries, d.deliveries p o = .ok deliveries ∧ t ∈ deliveries.map (·.target) ∧
        (d.LinkFree → IsApart d destination (deliveries.map (·.target)) t →
          d'.targetContent? destination t = d.targetContent? destination t)) ∧
    (∀ deliveries, d.deliveries p o = .ok deliveries →
      ∀ before b after, (before ++ b :: after).Subperm (Bundle.ofDeliveries deliveries) →
      ∀ t fault d', (writeBundle destination b).run
          (DiskTask.afterEach (writeBundle destination) before d) =
        .error (.extraction (.incompatible t fault)) d' →
      t = b.target ∧ d' = DiskTask.afterEach (writeBundle destination) before d ∧
        (d.LinkFree → IsApart d destination (deliveries.map (·.target)) t →
          (DiskTask.afterEach (writeBundle destination) (before ++ b :: after) d).targetContent?
            destination t = d.targetContent? destination t)) ∧
    (o.allowRisky = false → (∃ file ∈ p.files, file.includesFile ∨ ∃ c ∈ file.decisions, c.risky) →
      ∃ e, (writeLayout p destination o).run d = .error e d) := by
  refine ⟨fun e => writeLayout_of_deliveries_error, fun e d' => writeLayout_of_comesFirst,
    fun t fault d' => writeLayout_incompatible,
    fun deliveries _ before b after hbundles t fault d' hfail => ?_, fun hallow hrisk => ?_⟩
  · obtain ⟨htarget, hsame⟩ := writeBundle_incompatible hfail
    exact ⟨htarget, hsame, targetContent?_of_incompatible hbundles hfail⟩
  · obtain ⟨e, he⟩ := deliveries_of_risk hallow hrisk
    exact ⟨e, writeLayout_of_deliveries_error he⟩

end Layout

def twoClasses : Text := "<?php class A\x7b\x7d class B\x7b\x7d"

/-- The plan of a file with two classes, which go to these targets, each in a namespace. -/
def planTwoClasses (targets : List (Text × Text)) : ProjectPlan :=
  let file := FilePlan.ofText (.ofLead "Acme") "a.php" twoClasses
  let decisions := file.decisions.zipWith
    (fun c (target, space) => { c with target, newSpace? := some space }) targets
  .ofFiles "src" (.ofLead "Acme") [{ file with decisions }]

/-- A disk with that file, and with another one in the destination. -/
def diskTwoClasses (name : Text) : Disk where
  home := []
  entries := [(["src"], .directory), (["src", "a.php"], .file (Text.toUtf8 twoClasses)),
    (["dest"], .directory), (["dest", name], .file (Text.toUtf8 "<?php namespace Acme;"))]

theorem linkFree_diskTwoClasses (name : Text) : (diskTwoClasses name).LinkFree :=
  Disk.linkFree_of_entries (by simp [diskTwoClasses])

/-- Where another target is a second spelling of the same path, it has been written when merging fails. -/
theorem writeLayout_targetSpelledTwice :
    let task := writeLayout (planTwoClasses [("A.php", "Acme"), ("./A.php", "Other")]) "dest"
      ⟨false, false, false⟩
    let d := diskTwoClasses "A.php"
    d.LinkFree ∧ ∃ fault d', task.run d = .error (.extraction (.incompatible "./A.php" fault)) d' ∧
      d'.targetContent? "dest" "./A.php" ≠ d.targetContent? "dest" "./A.php" := by
  intro task d
  have hrun : task.error? d =
        some (.extraction (.incompatible "./A.php" (.spaces (some "Acme") (some "Other")))) ∧
      (task.after d).targetContent? "dest" "./A.php" ≠ d.targetContent? "dest" "./A.php" := by
    decide +kernel
  exact ⟨linkFree_diskTwoClasses _, _, _, DiskTask.run_of_error? hrun.1, hrun.2⟩

/-- Where it is another file, it has been written too, and the target that cannot be merged is as it was. -/
theorem writeLayout_targetInOtherSpace :
    let task := writeLayout (planTwoClasses [("A.php", "Acme"), ("B.php", "Other")]) "dest"
      ⟨false, false, false⟩
    let d := diskTwoClasses "B.php"
    ∃ fault d', task.run d = .error (.extraction (.incompatible "B.php" fault)) d' ∧ d' ≠ d ∧
      d'.targetContent? "dest" "B.php" = d.targetContent? "dest" "B.php" := by
  intro task d
  have hrun : task.error? d =
        some (.extraction (.incompatible "B.php" (.spaces (some "Acme") (some "Other")))) ∧
      task.after d ≠ d ∧
      (d.deliveries (planTwoClasses [("A.php", "Acme"), ("B.php", "Other")])
        ⟨false, false, false⟩).toOption.map (·.map (·.target)) =
          some (["A.php", "B.php"] : List Text) := by
    decide +kernel
  obtain ⟨herror, hne, htargets⟩ := hrun
  have herror := DiskTask.run_of_error? herror
  refine ⟨_, _, herror, hne, ?_⟩
  rcases (writeLayout_failsCleanly _ _ _ d).2.2.1 _ _ _ herror with
    hsame | ⟨deliveries, hdeliveries, -, hcontent⟩
  · exact absurd hsame hne
  · rw [hdeliveries] at htargets
    refine hcontent (linkFree_diskTwoClasses _) ?_
    have htargets : deliveries.map (·.target) = ["A.php", "B.php"] := Option.some.inj htargets
    rw [htargets]
    decide +kernel

end NamespaceMigration
