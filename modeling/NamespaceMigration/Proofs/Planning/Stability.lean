import NamespaceMigration.Migration.Plan
import NamespaceMigration.Proofs.Fallible
import NamespaceMigration.Proofs.Json.Canonical
import NamespaceMigration.Proofs.Migration.Clearing

/-! Settling conflicts is stable. Later files change nothing about earlier ones, what is settled stays as
it is, and in the order of the paths it does not matter which file was found or planned first. -/
namespace NamespaceMigration

/-- The owners after some files. -/
def ownersAfter (owners : Owners) : List FilePlan → Owners
  | [] => owners
  | file :: files => ownersAfter (settle file.path owners file.decisions).owners files

theorem settleFiles_append (owners : Owners) (ps qs : List FilePlan) :
    settleFiles owners (ps ++ qs) =
      settleFiles owners ps ++ settleFiles (ownersAfter owners ps) qs := by
  induction ps generalizing owners with
  | nil => rfl
  | cons file ps ih =>
    rw [List.cons_append, settleFiles, settleFiles, ih, List.cons_append]
    rfl

theorem length_settleFiles (owners : Owners) (ps : List FilePlan) :
    (settleFiles owners ps).length = ps.length := by
  induction ps generalizing owners with
  | nil => rfl
  | cons file ps ih => rw [settleFiles, List.length_cons, List.length_cons, ih]

theorem settle_kept (path : Text) (owners : Owners) (ds : List Decision) :
    settle path owners (settle path owners ds).kept =
      { settle path owners ds with conflicts := [] } := by
  induction ds generalizing owners with
  | nil => rfl
  | cons d ds ih =>
    cases hclash : d.clash? owners with
    | some owner => simpa [settle, hclash] using ih owners
    | none =>
      have hrest := ih (owners ++ d.claims path)
      simp [settle, hclash, hrest]

theorem settleFiles_settleFiles (owners : Owners) (ps : List FilePlan) :
    settleFiles owners (settleFiles owners ps) = settleFiles owners ps := by
  induction ps generalizing owners with
  | nil => rfl
  | cons file ps ih =>
    have hkept := settle_kept file.path owners file.decisions
    rw [settleFiles, settleFiles, hkept, ih, List.append_nil]

section Sorting

variable {α : Type} (path : α → Text)

def byPath (l : List α) : List α := l.mergeSort fun a b => Text.le (path a) (path b)

theorem byPath_perm (l : List α) : (byPath path l).Perm l := List.mergeSort_perm l _

theorem pairwise_byPath (l : List α) :
    (byPath path l).Pairwise fun a b => Text.le (path a) (path b) :=
  List.pairwise_mergeSort (fun a b c => @Text.le_trans (path a) (path b) (path c))
    (fun a b => Text.le_total (path a) (path b)) l

variable {path}

theorem eq_of_perm_of_sorted {l l' : List α} (hperm : l.Perm l') (hpaths : (l.map path).Nodup)
    (hl : l.Pairwise fun a b => Text.le (path a) (path b))
    (hl' : l'.Pairwise fun a b => Text.le (path a) (path b)) : l = l' := by
  refine hperm.eq_of_pairwise (fun a b ha hb hab hba => ?_) hl hl'
  exact List.inj_on_of_nodup_map hpaths ha (hperm.mem_iff.mpr hb) (Text.le_antisymm hab hba)

end Sorting

/-- Plans of files with different paths, made in any order and sorted, are the plans of the sorted
files. -/
theorem byPath_plans {c : PlanConfig} {sources found : List (Text × Bytes)} {plans : List FilePlan}
    (hpaths : (sources.map (·.1)).Nodup) (hfound : found.Perm sources)
    (hplans : plans.Perm (found.map fun s => FilePlan.ofBytes c s.1 s.2)) :
    byPath (·.path) plans =
      (byPath (·.1) sources).map fun s => FilePlan.ofBytes c s.1 s.2 := by
  have hplan : ∀ l : List (Text × Bytes),
      (l.map fun s => FilePlan.ofBytes c s.1 s.2).map (·.path) = l.map (·.1) := fun l => by
    rw [List.map_map]
    exact List.map_congr_left fun s _ => FilePlan.path_ofBytes c s.1 s.2
  have hperm : (byPath (·.path) plans).Perm
      ((byPath (·.1) sources).map fun s => FilePlan.ofBytes c s.1 s.2) :=
    (byPath_perm _ plans).trans
      (hplans.trans ((hfound.trans (byPath_perm _ sources).symm).map _))
  refine eq_of_perm_of_sorted hperm ?_ (pairwise_byPath _ plans) ?_
  · rw [(hperm.map _).nodup_iff, hplan, ((byPath_perm _ sources).map _).nodup_iff]
    exact hpaths
  · rw [List.pairwise_map]
    simpa only [FilePlan.path_ofBytes] using pairwise_byPath (fun s : Text × Bytes => s.1) sources

/-- What is planned of files that were read. -/
theorem exists_sources {d : Disk} {c : PlanConfig} {files : List FoundFile} {plans : List FilePlan}
    (h : (files.mapM fun file : FoundFile => do
      let content ← (d.read file.path).mapError (MigrationError.io file.path)
      return FilePlan.ofBytes c file.relative content) = .ok plans) :
    ∃ sources : List (Text × Bytes), sources.map (·.1) = files.map (·.relative) ∧
      plans = sources.map fun s => FilePlan.ofBytes c s.1 s.2 := by
  induction files generalizing plans with
  | nil =>
    cases h
    exact ⟨[], rfl, rfl⟩
  | cons file files ih =>
    rw [List.mapM_cons] at h
    obtain ⟨plan, hplan, h⟩ := bind_eq_ok h
    obtain ⟨rest, hrest, h⟩ := bind_eq_ok h
    obtain ⟨content, -, hplan⟩ := bind_eq_ok hplan
    cases hplan
    cases h
    obtain ⟨sources, hpaths, rfl⟩ := ih hrest
    exact ⟨(file.relative, content) :: sources, congrArg (file.relative :: ·) hpaths, rfl⟩

theorem Disk.pairwise_sourceFiles {d : Disk} {o : WalkOptions} {root : Text} {files : List FoundFile}
    (h : d.sourceFiles o root = .ok files) :
    files.Pairwise fun a b => Text.le a.relative b.relative := by
  rw [Disk.sourceFiles] at h
  split at h
  · obtain ⟨found, -, rfl⟩ := map_eq_ok h
    exact pairwise_byPath (·.relative) found
  · cases h

theorem Disk.exists_planSources {d : Disk} {root : Text} {c : PlanConfig} {o : WalkOptions}
    {p : ProjectPlan} (h : d.planProject root c o = .ok p) :
    ∃ sources : List (Text × Bytes), sources.Pairwise (fun a b => Text.le a.1 b.1) ∧
      p = planSources p.sourceRoot c sources := by
  obtain ⟨-, -, h⟩ := bind_eq_ok h
  obtain ⟨place, -, h⟩ := bind_eq_ok h
  obtain ⟨files, hfiles, h⟩ := bind_eq_ok h
  obtain ⟨plans, hplans, h⟩ := bind_eq_ok h
  cases h
  obtain ⟨sources, hpaths, rfl⟩ := exists_sources hplans
  refine ⟨sources, ?_, rfl⟩
  have hsorted : (files.map (·.relative)).Pairwise fun s t => Text.le s t :=
    List.pairwise_map.mpr (pairwise_sourceFiles (mapError_eq_ok hfiles))
  rw [← hpaths] at hsorted
  exact List.pairwise_map.mp hsorted

/-- Settling is stable: it leaves earlier files alone when there are more of them, it leaves alone what
is settled, and for files with different paths it makes one plan, in whatever order they are found and
their plans are done. That is the plan of the files in the order of their paths, which is how a project
on a disk is planned. -/
theorem ofFiles_stable (root : Text) (c : PlanConfig) :
    (∀ ps qs, (ProjectPlan.ofFiles root c (ps ++ qs)).files.take ps.length =
      (ProjectPlan.ofFiles root c ps).files) ∧
    (∀ ps, ProjectPlan.ofFiles root c (ProjectPlan.ofFiles root c ps).files =
      ProjectPlan.ofFiles root c ps) ∧
    (∀ sources found : List (Text × Bytes), (sources.map (·.1)).Nodup → found.Perm sources →
      ∀ plans, plans.Perm (found.map fun s => FilePlan.ofBytes c s.1 s.2) →
        ProjectPlan.ofFiles root c (byPath (·.path) plans) =
          planSources root c (byPath (·.1) sources)) ∧
    ∀ (d : Disk) (o : WalkOptions) (p : ProjectPlan), d.planProject root c o = .ok p →
      ∃ sources : List (Text × Bytes), sources.Pairwise (fun a b => Text.le a.1 b.1) ∧
        p = planSources p.sourceRoot c sources := by
  refine ⟨fun ps qs => ?_, fun ps => ?_, fun sources found hpaths hfound plans hplans => ?_,
    fun d o p h => Disk.exists_planSources h⟩
  · have hlength := length_settleFiles [] ps
    simp only [ProjectPlan.ofFiles, settleFiles_append]
    rw [← hlength, List.take_left']
    rfl
  · simp only [ProjectPlan.ofFiles, settleFiles_settleFiles]
  · rw [byPath_plans hpaths hfound hplans]
    rfl

/-- Two files that both declare one function. -/
def convergingFiles : List (Text × Bytes) :=
  [("b.php", Text.toUtf8 "<?php function f() {}"), ("a.php", Text.toUtf8 "<?php function f() {}")]

theorem convergingFiles_stable :
    let c := PlanConfig.ofLead "Acme"
    let plans := convergingFiles.reverse.map fun s => FilePlan.ofBytes c s.1 s.2
    (convergingFiles.map (·.1)).Nodup ∧ convergingFiles.reverse.Perm convergingFiles ∧
      ProjectPlan.ofFiles "src" c (byPath (·.path) plans) =
        planSources "src" c (byPath (·.1) convergingFiles) ∧
      (planSources "src" c (byPath (·.1) convergingFiles)).files.map
        (fun file => (file.path, file.decisions.length)) = [(("a.php" : Text), 1), ("b.php", 0)] := by
  intro c plans
  have hpaths : (convergingFiles.map (·.1)).Nodup := by decide
  have hperm : convergingFiles.reverse.Perm convergingFiles := List.reverse_perm _
  have hsorted : byPath (·.1) convergingFiles = convergingFiles.reverse :=
    eq_of_perm_of_sorted ((byPath_perm _ _).trans hperm.symm)
      (((byPath_perm _ _).map _).nodup_iff.mpr hpaths) (pairwise_byPath _ _) (by decide)
  refine ⟨hpaths, hperm, ?_, by rw [hsorted]; decide +kernel⟩
  exact (ofFiles_stable "src" c).2.2.1 convergingFiles convergingFiles.reverse hpaths hperm plans
    (.refl plans)

end NamespaceMigration
