import NamespaceMigration.Migration.Sources
import NamespaceMigration.Proofs.Bytes.Utf8
import NamespaceMigration.Proofs.Disk.Places
import NamespaceMigration.Proofs.Migration.Tasks
import NamespaceMigration.Proofs.Planning.Coverage
import NamespaceMigration.Proofs.FirstCome

/-! Clearing never loses a declaration: what it removes is what was planned, and all of it goes
elsewhere. -/
namespace NamespaceMigration

/-- The name of every declaration in the text, at any depth, is the old name of a component of the same
kind. -/
def FilePlan.Covers (p : FilePlan) (text : Text) : Prop :=
  ∀ l ∈ (SourceFile.parse text).outline, ∀ kind names, l.declared? = some (kind, names) →
    ∀ entry ∈ names, ∃ d ∈ p.decisions, ∃ c ∈ d.components, c.kind = entry.1 ∧ c.old = entry.2

namespace FilePlan

variable {c : PlanConfig} {path : Text}

theorem hash_ofBytes (c : PlanConfig) (path : Text) (content : Bytes) :
    (ofBytes c path content).hash = contentHash content := by
  have hbytes := Text.toUtf8_ofUtf8 content
  rw [ofBytes]
  split
  · rename_i text htext
    rw [htext, List.append_nil] at hbytes
    rw [ofText]
    dsimp only
    split
    · exact congrArg contentHash hbytes
    · split <;> exact congrArg contentHash hbytes
  · rfl

theorem path_ofBytes (c : PlanConfig) (path : Text) (content : Bytes) :
    (ofBytes c path content).path = path := by
  rw [ofBytes]
  split
  · rw [ofText]
    dsimp only
    split
    · rfl
    · split <;> rfl
  · rfl

theorem covers_ofText {text : Text} (h : (ofText c path text).errors = []) :
    (ofText c path text).Covers text := by
  intro l hl kind names hdeclared entry hentry
  rw [ofText] at h ⊢
  dsimp only at h ⊢
  split at h
  · rename_i hfaults
    rw [List.map_eq_nil_iff] at h
    rw [h] at hfaults
    cases hfaults
  · rename_i hfine
    rw [if_neg hfine]
    split at h
    · rename_i declarations hdeclarations
      obtain ⟨d, hd, hnames⟩ := SourceFile.mem_names_of_declared hdeclarations hl hdeclared
      refine ⟨_, List.mem_map_of_mem hd, ?_⟩
      exact ⟨_, List.mem_append_left _ (List.mem_map_of_mem (hnames hentry)), rfl, rfl⟩
    · rename_i errors hdeclarations
      exact absurd h (SourceFile.declarations_error_ne_nil hdeclarations)

theorem covers_ofBytes {content : Bytes} (h : (ofBytes c path content).errors = []) :
    ∃ text, Text.toUtf8 text = content ∧ (ofBytes c path content).Covers text := by
  have hbytes := Text.toUtf8_ofUtf8 content
  rw [ofBytes] at h ⊢
  split at h
  · rename_i text htext
    rw [htext, List.append_nil] at hbytes
    exact ⟨text, hbytes, covers_ofText h⟩
  · cases h

theorem exists_ofText {content : Bytes} {d : Decision} (h : d ∈ (ofBytes c path content).decisions) :
    ∃ t, d ∈ (ofText c path t).decisions := by
  rw [ofBytes] at h
  split at h
  · exact ⟨_, h⟩
  · cases h

end FilePlan

/-- The disk is the one that there was, without some of the files or links that the paths lead to. -/
structure Cleared (d : Disk) (paths : List Text) (d' : Disk) : Prop where
  within : d'.Within d
  gone : ∀ place, d'.entry? place ≠ d.entry? place → d'.entry? place = none ∧
    ∃ path ∈ paths, ∃ e, d.find false path = .ok (place, e) ∧ e ≠ .directory

theorem Cleared.refl (d : Disk) (paths : List Text) : Cleared d paths d :=
  ⟨.refl d, fun _ h => absurd rfl h⟩

theorem ne_nil_of_find {d : Disk} {last : Bool} {path : Text} {place : Place} {e : DiskEntry}
    (h : d.find last path = .ok (place, e)) (he : e ≠ .directory) : place ≠ [] := by
  rintro rfl
  have hroot := Disk.entry?_of_find h
  rw [Disk.entry?_nil, Option.some.injEq] at hroot
  exact he hroot.symm

theorem Cleared.remove {d d' removed : Disk} {paths : List Text} {path : Text}
    (h : Cleared d paths d') (hpath : path ∈ paths) (hremove : d'.remove path = .ok removed) :
    Cleared d paths removed := by
  obtain ⟨place, e, hfind, he, rfl⟩ := Disk.remove_eq_ok hremove
  have hplace := ne_nil_of_find hfind he
  refine ⟨Disk.within_erase h.within hplace, fun q hq => ?_⟩
  rw [Disk.entry?_erase d' hplace] at hq ⊢
  split_ifs at hq ⊢ with heq
  · subst heq
    exact ⟨rfl, path, hpath, e, Disk.find_within h.within (Or.inl rfl) hfind, he⟩
  · exact h.gone q hq

theorem run_removeSource (path : Text) (d : Disk) : (removeSource path).run d =
    match d.remove path with
    | .ok removed => .ok [path] removed
    | .error .notFound => .ok [] d
    | .error e => .error (.io path e) d := by
  rw [removeSource, DiskTask.run_get]
  cases d.remove path with
  | ok removed => rfl
  | error e => cases e <;> rfl

theorem removeSource_keeps {d : Disk} {paths : List Text} {path : Text} (hpath : path ∈ paths) :
    (removeSource path).Keeps (Cleared d paths) := by
  intro d' h
  rw [DiskTask.after, run_removeSource]
  cases hremove : d'.remove path with
  | ok removed => exact h.remove hpath hremove
  | error e => cases e <;> exact h

theorem hash_of_checkFiles {d : Disk} {p : ProjectPlan} {mayMiss : Bool}
    (h : d.checkFiles p mayMiss = .ok ()) {file : FilePlan} (hfile : file ∈ p.files) {content : Bytes}
    (hread : d.read (Path.join p.sourceRoot file.path) = .ok content) :
    contentHash content = file.hash := by
  have hcheck := forM_eq_ok h file hfile
  rw [Disk.checkFile, hread] at hcheck
  dsimp only at hcheck
  split at hcheck
  · assumption
  · cases hcheck

/-- The paths of the files that can go. -/
def clearedPaths (p : ProjectPlan) : List Text :=
  (p.files.filter (·.isCleared)).map fun file => Path.join p.sourceRoot file.path

theorem run_clearSources (p : ProjectPlan) (trial : Bool) (d : Disk) :
    (clearSources p trial).run d =
      match d.checkFiles p true with
      | .error e => .error e d
      | .ok _ =>
        if trial then .ok (clearedPaths p) d
        else (List.flatten <$> (clearedPaths p).mapM removeSource).run d := by
  rw [clearSources, DiskTask.run_bind, DiskTask.run_ask]
  cases d.checkFiles p true with
  | error e => rfl
  | ok _ => cases trial <;> rfl

theorem clearSources_cases (p : ProjectPlan) (trial : Bool) (d : Disk) :
    (clearSources p trial).after d = d ∨ d.checkFiles p true = .ok () ∧ trial = false ∧
      Cleared d (clearedPaths p) ((clearSources p trial).after d) := by
  rw [DiskTask.after, run_clearSources]
  cases hcheck : d.checkFiles p true with
  | error e => exact Or.inl rfl
  | ok _ =>
    cases trial with
    | true => exact Or.inl rfl
    | false =>
      have hkeeps : (List.flatten <$> (clearedPaths p).mapM removeSource).Keeps
          (Cleared d (clearedPaths p)) :=
        (DiskTask.keeps_mapM fun _ => removeSource_keeps).map _
      exact Or.inr ⟨rfl, rfl, hkeeps d (.refl d _)⟩

/-- The plan of source files with these paths and contents. -/
def planSources (root : Text) (c : PlanConfig) (sources : List (Text × Bytes)) : ProjectPlan :=
  .ofFiles root c (sources.map fun s => .ofBytes c s.1 s.2)

theorem exists_ofText_of_planned {root : Text} {c : PlanConfig} {sources : List (Text × Bytes)}
    {file : FilePlan} (hfile : file ∈ (planSources root c sources).files) {d : Decision}
    (hd : d ∈ file.decisions) : ∃ path t, d ∈ (FilePlan.ofText c path t).decisions := by
  obtain ⟨planned, hplanned, hd⟩ := mem_of_settleFiles hfile d hd
  obtain ⟨s, -, rfl⟩ := List.mem_map.mp hplanned
  exact ⟨s.1, FilePlan.exists_ofText hd⟩

/-- What is at a place is a planned file without errors, or a link to one. A file there has the content
that was planned, and everything that it declares is among the accepted decisions. -/
structure IsMigrated (d : Disk) (root : Text) (file : FilePlan) (place : Place) : Prop where
  found : ∃ e, d.find false (Path.join root file.path) = .ok (place, e) ∧ e ≠ .directory
  errors : file.errors = []
  content : ∀ content, d.entry? place = some (.file content) →
    contentHash content = file.hash ∧ ∃ text, Text.toUtf8 text = content ∧ file.Covers text

section Clear

variable {root : Text} {c : PlanConfig} {sources : List (Text × Bytes)} {d : Disk}

theorem isMigrated_of_isCleared
    (hcollisions : ∀ s ∈ sources, ∀ content, d.read (Path.join root s.1) = .ok content →
      contentHash content = contentHash s.2 → content = s.2)
    (hcheck : d.checkFiles (planSources root c sources) true = .ok ()) {file : FilePlan}
    (hfile : file ∈ (planSources root c sources).files) (hcleared : file.isCleared) {place : Place}
    {e : DiskEntry} (hfind : d.find false (Path.join root file.path) = .ok (place, e))
    (he : e ≠ .directory) : IsMigrated d root file place := by
  have herrors : file.errors = [] := by
    rw [FilePlan.isCleared, Bool.and_eq_true, FilePlan.hasErrors, Bool.not_not] at hcleared
    exact List.isEmpty_iff.mp hcleared.2
  refine ⟨⟨e, hfind, he⟩, herrors, fun content hentry => ?_⟩
  rw [Disk.entry?_of_find hfind, Option.some.injEq] at hentry
  subst hentry
  have hread := Disk.read_of_find hfind
  have hhash := hash_of_checkFiles hcheck hfile hread
  obtain ⟨s, hs, rfl⟩ := List.mem_map.mp (mem_settleFiles hfile herrors)
  rw [FilePlan.hash_ofBytes] at hhash
  rw [FilePlan.path_ofBytes] at hread
  obtain rfl := hcollisions s hs content hread hhash
  rw [FilePlan.hash_ofBytes]
  exact ⟨rfl, FilePlan.covers_ofBytes herrors⟩

/-- Clearing fails and changes nothing if a file is not what it was, and a trial changes nothing at all.
Whatever is removed has been migrated: all that it declares, at any depth, is among the accepted
decisions. No two of the contents may have one digest. -/
theorem clearSources_safe (root : Text) (c : PlanConfig) (sources : List (Text × Bytes)) (d : Disk)
    (hcollisions : ∀ s ∈ sources, ∀ content, d.read (Path.join root s.1) = .ok content →
      contentHash content = contentHash s.2 → content = s.2) (trial : Bool) :
    let p := planSources root c sources
    let cleared := (clearSources p trial).after d
    (∀ file ∈ p.files, ∀ content, d.read (Path.join root file.path) = .ok content →
      contentHash content ≠ file.hash → ∃ e, (clearSources p trial).run d = .error e d) ∧
    (trial = true → cleared = d) ∧
    ∀ place, cleared.entry? place ≠ d.entry? place →
      cleared.entry? place = none ∧ ∃ file ∈ p.files, IsMigrated d root file place := by
  intro p cleared
  refine ⟨fun file hfile content hread hhash => ?_, fun htrial => ?_, fun place hplace => ?_⟩
  · rw [run_clearSources]
    cases hcheck : d.checkFiles p true with
    | error e => exact ⟨e, rfl⟩
    | ok _ => exact absurd (hash_of_checkFiles hcheck hfile hread) hhash
  · subst htrial
    change (clearSources p true).after d = d
    rcases clearSources_cases p true d with hsame | ⟨-, htrial, -⟩
    · exact hsame
    · cases htrial
  · rcases clearSources_cases p trial d with hsame | ⟨hcheck, -, hcleared⟩
    · exact absurd (congrArg (Disk.entry? · place) hsame) hplace
    · obtain ⟨hnone, path, hpath, e, hfind, he⟩ := hcleared.gone place hplace
      obtain ⟨file, hfile, rfl⟩ := List.mem_map.mp hpath
      obtain ⟨hmem, hfilter⟩ := List.mem_filter.mp hfile
      exact ⟨hnone, file, hmem, isMigrated_of_isCleared hcollisions hcheck hmem hfilter hfind he⟩

/-- A disk with one source file. -/
def classDisk : Disk where
  home := []
  entries := [(["src"], .directory), (["src", "a.php"], .file (Text.toUtf8 "<?php\nclass A \x7b\x7d\n"))]

theorem clearSources_classDisk :
    let sources : List (Text × Bytes) := [("a.php", Text.toUtf8 "<?php\nclass A \x7b\x7d\n")]
    let p := planSources "src" (.ofLead "Acme") sources
    let cleared := (clearSources p false).after classDisk
    (∀ s ∈ sources, ∀ content, classDisk.read (Path.join "src" s.1) = .ok content →
      contentHash content = contentHash s.2 → content = s.2) ∧
    (∀ file ∈ p.files, ∀ content, classDisk.read (Path.join "src" file.path) = .ok content →
      contentHash content ≠ file.hash →
      ∃ e, (clearSources p false).run classDisk = .error e classDisk) ∧
    (false = true → cleared = classDisk) ∧
    ∀ place, cleared.entry? place ≠ classDisk.entry? place →
      cleared.entry? place = none ∧ ∃ file ∈ p.files, IsMigrated classDisk "src" file place := by
  intro sources p cleared
  have hcollisions : ∀ s ∈ sources, ∀ content, classDisk.read (Path.join "src" s.1) = .ok content →
      contentHash content = contentHash s.2 → content = s.2 := by
    refine List.forall_mem_singleton.mpr fun content hread _ => ?_
    have hpresent : classDisk.read "src/a.php" = .ok (Text.toUtf8 "<?php\nclass A \x7b\x7d\n") := rfl
    exact Except.ok.inj (hread.symm.trans hpresent)
  exact ⟨hcollisions, clearSources_safe "src" (.ofLead "Acme") sources classDisk hcollisions false⟩

end Clear
end NamespaceMigration
