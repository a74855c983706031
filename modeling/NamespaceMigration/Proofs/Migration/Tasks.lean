import NamespaceMigration.Migration.Error
import NamespaceMigration.Migration.Install
import NamespaceMigration.Proofs.Disk.Contents

/-! Properties of a disk that steps keep, whether they succeed or fail, and properties of the errors that
they fail with. Installing a file puts all of its content there or leaves it as it was, and no other place changes
but that of the temporary path. -/
namespace NamespaceMigration
namespace DiskTask

variable {α β : Type} {I : Disk → Prop} {P : MigrationError → Prop}

/-- The disk after a step, also after one that failed. -/
def after (t : DiskTask α) (d : Disk) : Disk :=
  match t.run d with
  | .ok _ d => d
  | .error _ d => d

/-- If a disk has the property before the step, it has it after. -/
def Keeps (t : DiskTask α) (I : Disk → Prop) : Prop := ∀ d, I d → I (t.after d)

theorem run_bind (t : DiskTask α) (f : α → DiskTask β) (d : Disk) : (t >>= f).run d =
    match t.run d with
    | .ok a d => (f a).run d
    | .error e d => .error e d := by
  change EStateM.bind t f d = _
  rw [EStateM.bind, EStateM.run]
  cases t d <;> rfl

theorem after_bind (t : DiskTask α) (f : α → DiskTask β) (d : Disk) : (t >>= f).after d =
    match t.run d with
    | .ok a d => (f a).after d
    | .error _ d => d := by
  rw [after, run_bind]
  cases t.run d <;> rfl

theorem keeps_pure (a : α) : (pure a : DiskTask α).Keeps I := fun _ h => h

theorem Keeps.bind {t : DiskTask α} {f : α → DiskTask β} (ht : t.Keeps I) (hf : ∀ a, (f a).Keeps I) :
    (t >>= f).Keeps I := by
  intro d hd
  have hafter := ht d hd
  rw [after] at hafter
  rw [after_bind]
  cases hrun : t.run d with
  | ok a d' =>
    rw [hrun] at hafter
    exact hf a d' hafter
  | error e d' =>
    rw [hrun] at hafter
    exact hafter

theorem Keeps.map {t : DiskTask α} (f : α → β) (ht : t.Keeps I) : (f <$> t).Keeps I := by
  rw [map_eq_pure_bind]
  exact ht.bind fun a => keeps_pure (f a)

theorem keeps_mapM {l : List α} {f : α → DiskTask β} (h : ∀ a ∈ l, (f a).Keeps I) :
    (l.mapM f).Keeps I := by
  induction l with
  | nil => exact keeps_pure []
  | cons a l ih =>
    obtain ⟨ha, hl⟩ := List.forall_mem_cons.mp h
    rw [List.mapM_cons]
    exact ha.bind fun b => (ih hl).bind fun bs => keeps_pure (b :: bs)

theorem run_get (f : Disk → DiskTask α) (d : Disk) : (get >>= f).run d = (f d).run d := rfl

theorem run_ask (look : Disk → Except MigrationError α) (d : Disk) : (ask look).run d =
    match look d with
    | .ok a => .ok a d
    | .error e => .error e d := by
  rw [ask, run_get]
  cases look d <;> rfl

theorem run_change (path : Text) (f : Disk → Except IoError Disk) (d : Disk) : (change path f).run d =
    match f d with
    | .ok d => .ok () d
    | .error e => .error (.io path e) d := by
  rw [change, run_get]
  cases f d <;> rfl

/-- What a step fails with, if it does. -/
def error? (t : DiskTask α) (d : Disk) : Option MigrationError :=
  match t.run d with
  | .ok _ _ => none
  | .error e _ => some e

theorem run_of_error? {t : DiskTask α} {d : Disk} {e : MigrationError} (h : t.error? d = some e) :
    t.run d = .error e (t.after d) := by
  rw [error?] at h
  rw [after]
  cases hrun : t.run d with
  | ok a d' =>
    rw [hrun] at h
    cases h
  | error e' d' =>
    rw [hrun] at h
    cases h
    rfl

theorem after_of_error {t : DiskTask α} {d d' : Disk} {e : MigrationError} (h : t.run d = .error e d') :
    t.after d = d' := by
  rw [after, h]

/-- Whatever the step fails with has the property. -/
def FailsWith (t : DiskTask α) (P : MigrationError → Prop) : Prop :=
  ∀ d e d', t.run d = .error e d' → P e

theorem failsWith_pure (a : α) : (pure a : DiskTask α).FailsWith P := fun _ _ _ h => nomatch h

theorem FailsWith.bind {t : DiskTask α} {f : α → DiskTask β} (ht : t.FailsWith P)
    (hf : ∀ a, (f a).FailsWith P) : (t >>= f).FailsWith P := by
  intro d e d' hrun
  rw [run_bind] at hrun
  cases hfirst : t.run d with
  | ok a d₁ =>
    rw [hfirst] at hrun
    exact hf a d₁ e d' hrun
  | error e₁ d₁ =>
    rw [hfirst] at hrun
    cases hrun
    exact ht d e d' hfirst

theorem failsWith_change {path : Text} {f : Disk → Except IoError Disk} (h : ∀ e, P (.io path e)) :
    (change path f).FailsWith P := by
  intro d e d' hrun
  rw [run_change] at hrun
  cases hf : f d with
  | ok d₁ =>
    rw [hf] at hrun
    cases hrun
  | error e₁ =>
    rw [hf] at hrun
    cases hrun
    exact h e₁

/-- The disk after one step for each item in order, whether the steps succeed or fail. -/
def afterEach (f : α → DiskTask Unit) (l : List α) (d : Disk) : Disk :=
  l.foldl (fun d a => (f a).after d) d

theorem afterEach_cons (f : α → DiskTask Unit) (a : α) (l : List α) (d : Disk) :
    afterEach f (a :: l) d = afterEach f l ((f a).after d) := rfl

theorem afterEach_append (f : α → DiskTask Unit) (l l' : List α) (d : Disk) :
    afterEach f (l ++ l') d = afterEach f l' (afterEach f l d) := List.foldl_append

theorem keeps_afterEach {f : α → DiskTask Unit} {l : List α} (h : ∀ a ∈ l, (f a).Keeps I) {d : Disk}
    (hd : I d) : I (afterEach f l d) := by
  induction l generalizing d with
  | nil => exact hd
  | cons a l ih =>
    obtain ⟨ha, hl⟩ := List.forall_mem_cons.mp h
    exact ih hl (ha d hd)

/-- Where a chain of steps has failed. The steps before that one have all been made. -/
theorem forM_eq_error {f : α → DiskTask Unit} {l : List α} {d d' : Disk} {e : MigrationError}
    (h : (l.forM f).run d = .error e d') :
    ∃ before a after, l = before ++ a :: after ∧ (f a).run (afterEach f before d) = .error e d' := by
  induction l generalizing d with
  | nil => cases h
  | cons a l ih =>
    change (f a >>= fun _ => l.forM f).run d = _ at h
    rw [run_bind] at h
    cases hfirst : (f a).run d with
    | error e₁ d₁ =>
      rw [hfirst] at h
      cases h
      exact ⟨[], a, l, rfl, hfirst⟩
    | ok _ d₁ =>
      rw [hfirst] at h
      obtain ⟨before, b, rest, hl, hb⟩ := ih h
      have hstep : (f a).after d = d₁ := by rw [after, hfirst]
      refine ⟨a :: before, b, rest, congrArg (a :: ·) hl, ?_⟩
      rw [afterEach_cons, hstep]
      exact hb

end DiskTask

open Disk (SameBut placeOf)

variable {d : Disk}

theorem join_eq_append (directory path : Text) : ∃ lead, Path.join directory path = lead ++ path := by
  rw [Path.join]
  split_ifs
  · exact ⟨[], rfl⟩
  · exact ⟨directory, rfl⟩
  · exact ⟨directory ++ ['/'], (List.append_assoc directory ['/'] path).symm⟩

theorem dropSlashes_temporaryPath (path : Text) :
    Disk.dropSlashes (temporaryPath path) = temporaryPath path := by
  obtain ⟨lead, hlead⟩ : ∃ lead : Text, temporaryPath path = lead ++ ['p'] := by
    obtain ⟨lead, hlead⟩ := join_eq_append (if (Path.name? path).isSome then (Path.parent? path).getD []
      else path) ('.' :: (Path.name? path).getD [] ++ ".tmp")
    refine ⟨lead ++ ('.' :: (Path.name? path).getD [] ++ ".tm"), ?_⟩
    rw [temporaryPath, Path.withName, hlead, List.append_assoc, List.append_assoc]
    rfl
  have hroot : lead ++ ['p'] ≠ ['/'] := by
    intro heq
    have hlast := congrArg List.getLast? heq
    simp at hlast
  rw [hlead, Disk.dropSlashes, if_neg hroot, Text.trimEnd, List.reverse_append]
  simp

/-- The places that change when a file is installed. -/
def installPlaces (home : Place) (path : Text) : List Place :=
  [placeOf home path, placeOf home (temporaryPath path)]

theorem run_moveIntoPlace (temporary path : Text) (d : Disk) :
    (moveIntoPlace temporary path).run d =
      match d.move temporary path with
      | .ok moved => .ok () moved
      | .error e => .error (.io path e) ((d.remove temporary).toOption.getD d) := by
  rw [moveIntoPlace, DiskTask.run_get]
  cases d.move temporary path <;> rfl

theorem run_installFile (path content : Text) (d : Disk) :
    (installFile path content).run d =
      match d.makeDirectories ((Path.parent? path).getD []) with
      | .error e => .error (.io ((Path.parent? path).getD []) e) d
      | .ok made =>
        match made.write (temporaryPath path) (Text.toUtf8 content) with
        | .error e => .error (.io (temporaryPath path) e) made
        | .ok written => (moveIntoPlace (temporaryPath path) path).run written := by
  rw [installFile, DiskTask.run_bind, DiskTask.run_change]
  cases d.makeDirectories ((Path.parent? path).getD []) with
  | error e => rfl
  | ok made =>
    dsimp only
    rw [DiskTask.run_bind, DiskTask.run_change]
    cases made.write (temporaryPath path) (Text.toUtf8 content) <;> rfl

section Install

variable {d' : Disk} {path content : Text} {e : MigrationError}

theorem sameBut_written (h : d.LinkFree) {made written : Disk} {parent : Text}
    (hmade : d.makeDirectories parent = .ok made)
    (hwritten : made.write (temporaryPath path) (Text.toUtf8 content) = .ok written) :
    SameBut [placeOf d.home (temporaryPath path)] d written ∧
      written.content? (placeOf d.home (temporaryPath path)) = some (Text.toUtf8 content) := by
  have hdirectories := Disk.sameBut_makeDirectories h hmade
  have hwrite := Disk.sameBut_write hdirectories.linkFree hwritten
  have hcontent := Disk.content?_write hdirectories.linkFree hwritten
  rw [dropSlashes_temporaryPath, hdirectories.home] at hwrite hcontent
  exact ⟨(hdirectories.mono (List.nil_subset _)).trans hwrite, hcontent⟩

/-- A file that is installed has all of its content. -/
theorem installFile_eq_ok (h : d.LinkFree) (hrun : (installFile path content).run d = .ok () d') :
    SameBut (installPlaces d.home path) d d' ∧
      d'.content? (placeOf d.home path) = some (Text.toUtf8 content) := by
  rw [run_installFile] at hrun
  split at hrun
  · cases hrun
  · rename_i made hmade
    split at hrun
    · cases hrun
    · rename_i written hwritten
      obtain ⟨hsame, hcontent⟩ := sameBut_written h hmade hwritten
      rw [run_moveIntoPlace] at hrun
      split at hrun
      · rename_i moved hmove
        cases hrun
        rw [← hsame.home] at hcontent
        have hmoved := Disk.sameBut_move hsame.linkFree hmove
        have harrived := Disk.content?_move hsame.linkFree hcontent hmove
        rw [hsame.home] at hmoved harrived
        exact ⟨(hsame.mono (by simp [installPlaces])).trans (hmoved.mono (by simp [installPlaces])),
          harrived⟩
      · cases hrun

/-- A file that is not installed is as it was. -/
theorem installFile_eq_error (h : d.LinkFree) (hrun : (installFile path content).run d = .error e d') :
    SameBut [placeOf d.home (temporaryPath path)] d d' := by
  rw [run_installFile] at hrun
  split at hrun
  · cases hrun
    exact .refl h
  · rename_i made hmade
    split at hrun
    · cases hrun
      exact (Disk.sameBut_makeDirectories h hmade).mono (List.nil_subset _)
    · rename_i written hwritten
      obtain ⟨hsame, -⟩ := sameBut_written h hmade hwritten
      rw [run_moveIntoPlace] at hrun
      split at hrun
      · cases hrun
      · cases hrun
        cases hremove : written.remove (temporaryPath path) with
        | error _ => exact hsame
        | ok removed =>
          have hremoved := Disk.sameBut_remove hsame.linkFree hremove
          rw [hsame.home] at hremoved
          exact hsame.trans hremoved

theorem sameBut_installFile (h : d.LinkFree) (path content : Text) :
    SameBut (installPlaces d.home path) d ((installFile path content).after d) := by
  rw [DiskTask.after]
  cases hrun : (installFile path content).run d with
  | ok _ d' => exact (installFile_eq_ok h hrun).1
  | error e d' => exact (installFile_eq_error h hrun).mono (by simp [installPlaces])

end Install

theorem failsWith_installFile {P : MigrationError → Prop} (h : ∀ path e, P (.io path e))
    (path content : Text) : (installFile path content).FailsWith P := by
  refine (DiskTask.failsWith_change (h _)).bind fun _ => (DiskTask.failsWith_change (h _)).bind fun _ => ?_
  intro d e d' hrun
  rw [run_moveIntoPlace] at hrun
  split at hrun
  · cases hrun
  · cases hrun
    exact h path _

end NamespaceMigration
