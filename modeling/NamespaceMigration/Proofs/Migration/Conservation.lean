import NamespaceMigration.Proofs.Migration.Layout
import NamespaceMigration.Adaptation.Fragment

/-! Writing a layout neither loses nor doubles code. Every accepted decision is delivered to one target,
and what is written to a target has the statements that are there already and then those delivered to it,
in the order of the plan. -/
namespace NamespaceMigration

theorem forall₂_of_mapM {ε α β : Type} {f : α → Except ε β} {l : List α} {bs : List β}
    (h : l.mapM f = .ok bs) : List.Forall₂ (fun a b => f a = .ok b) l bs := by
  induction l generalizing bs with
  | nil =>
    cases h
    exact .nil
  | cons a l ih =>
    rw [List.mapM_cons] at h
    obtain ⟨b, hb, h⟩ := bind_eq_ok h
    obtain ⟨rest, hrest, h⟩ := bind_eq_ok h
    cases h
    exact .cons hb (ih hrest)

namespace DiskTask

variable {α : Type} {f : α → DiskTask Unit} {l : List α} {d d' : Disk}

/-- In a chain of steps that succeeds, every step succeeds after those before it. -/
theorem forM_eq_ok (h : (l.forM f).run d = .ok () d') : afterEach f l d = d' ∧
    ∀ before a after, l = before ++ a :: after →
      (f a).run (afterEach f before d) = .ok () (afterEach f (before ++ [a]) d) := by
  induction l generalizing d with
  | nil =>
    cases h
    refine ⟨rfl, fun before a after hl => ?_⟩
    cases List.append_eq_nil_iff.mp hl.symm |>.2
  | cons a l ih =>
    change (f a >>= fun _ => l.forM f).run d = _ at h
    rw [run_bind] at h
    cases hfirst : (f a).run d with
    | error e d₁ =>
      rw [hfirst] at h
      cases h
    | ok _ d₁ =>
      rw [hfirst] at h
      obtain ⟨hall, hsteps⟩ := ih h
      have hstep : (f a).after d = d₁ := by rw [after, hfirst]
      refine ⟨by rw [afterEach_cons, hstep, hall], fun before b rest hl => ?_⟩
      cases before with
      | nil =>
        obtain ⟨rfl, rfl⟩ := List.cons.inj hl
        rw [List.nil_append, afterEach_cons, hstep]
        exact hfirst
      | cons c before =>
        obtain ⟨rfl, htail⟩ := List.cons.inj hl
        rw [List.cons_append, afterEach_cons, afterEach_cons, hstep]
        exact hsteps before b rest htail

end DiskTask

/-- The delivery of a decision of a file: what is taken out of the text of that file for the target of the
decision. -/
structure Disk.Delivers (d : Disk) (p : ProjectPlan) (o : LayoutOptions) (entry : FilePlan × Decision)
    (x : Delivery) : Prop where
  target : x.target = entry.2.finalTarget p.lead o
  extraction : ∃ t, d.readText (Path.join p.sourceRoot entry.1.path) = .ok t ∧
    Extraction.ofDecision (.parse t) entry.1.path entry.2 p.index o.createAliases = .ok x.extraction

section Deliveries

variable {d : Disk} {p : ProjectPlan} {o : LayoutOptions}

theorem delivers_of_extractFile {file : FilePlan} {xs : List Delivery}
    (h : d.extractFile p o file = .ok xs) :
    List.Forall₂ (d.Delivers p o) (file.decisions.map (file, ·)) xs := by
  rw [Disk.extractFile] at h
  split_ifs at h with hempty
  · cases h
    rw [List.isEmpty_iff.mp hempty]
    exact .nil
  · obtain ⟨t, ht, h⟩ := bind_eq_ok h
    rw [List.forall₂_map_left_iff]
    refine (forall₂_of_mapM h).imp fun decision x hx => ?_
    obtain ⟨extraction, hextraction, hx⟩ := bind_eq_ok hx
    cases hx
    exact ⟨rfl, t, mapError_eq_ok ht, mapError_eq_ok hextraction⟩

theorem delivers_flatten {files : List FilePlan} {parts : List (List Delivery)}
    (h : List.Forall₂ (fun file xs => d.extractFile p o file = .ok xs) files parts) :
    List.Forall₂ (d.Delivers p o) (files.flatMap fun file => file.decisions.map (file, ·))
      parts.flatten := by
  induction h with
  | nil => exact .nil
  | cons hfile _ ih =>
    rw [List.flatMap_cons, List.flatten_cons]
    exact List.rel_append (delivers_of_extractFile hfile) ih

theorem delivers_of_deliveries {deliveries : List Delivery} (h : d.deliveries p o = .ok deliveries) :
    List.Forall₂ (d.Delivers p o) p.decisions deliveries := by
  obtain ⟨_, -, h⟩ := bind_eq_ok h
  split_ifs at h
  · cases h
  · obtain ⟨parts, hparts, h⟩ := bind_eq_ok h
    cases h
    exact delivers_flatten (forall₂_of_mapM hparts)

end Deliveries

/-- The things of each of some different keys, one key after the other, are all things with these keys. -/
theorem flatMap_filter_perm {α κ : Type} [BEq κ] [LawfulBEq κ] (key : α → κ) (xs : List α) {keys : List κ}
    (h : keys.Nodup) :
    (keys.flatMap fun k => xs.filter (key · == k)).Perm (xs.filter fun x => key x ∈ keys) := by
  induction keys with
  | nil => simp
  | cons k keys ih =>
    rw [List.nodup_cons] at h
    rw [List.flatMap_cons]
    have hfirst : xs.filter (key · == k) =
        (xs.filter fun x => key x ∈ k :: keys).filter (key · == k) := by
      rw [List.filter_filter]
      exact List.filter_congr fun x _ => by by_cases hx : key x = k <;> simp [hx]
    have hrest : (xs.filter fun x => key x ∈ keys) =
        (xs.filter fun x => key x ∈ k :: keys).filter fun x => !(key x == k) := by
      rw [List.filter_filter]
      refine List.filter_congr fun x _ => ?_
      by_cases hx : key x = k
      · simp [hx, h.1]
      · simp [hx]
    refine (List.Perm.append_left _ (ih h.2)).trans ?_
    rw [hfirst, hrest]
    exact List.filter_append_perm _ _

/-- The statements of a target before it is written. -/
def presentBody : Option Text → Except MergeFault (List Text)
  | none => .ok []
  | some t => (Fragment.ofText (Adaptation.qualify t)).map (·.body)

section Merging

variable {b : Bundle} {target : Text} {first merged : Fragment} {others : List Fragment}

theorem body_mergeAll (h : Bundle.mergeAll target first others = .ok merged) :
    merged.body = first.body ++ others.flatMap (·.body) := by
  induction others generalizing first with
  | nil =>
    cases h
    exact (List.append_nil _).symm
  | cons other others ih =>
    rw [Bundle.mergeAll, List.foldlM_cons] at h
    obtain ⟨both, hboth, h⟩ := bind_eq_ok h
    obtain ⟨-, directives, -, rfl⟩ := Fragment.merge_eq_ok (mapError_eq_ok hboth)
    rw [ih h, List.append_assoc, List.flatMap_cons]

theorem body_merged {present? : Option Text} (h : b.merged present? = .ok (some merged)) :
    ∃ body, presentBody present? = .ok body ∧ merged.body = body ++ b.fragments.flatMap (·.body) := by
  rw [Bundle.merged.eq_def] at h
  split at h
  · rename_i t fragments hfragments
    obtain ⟨present, hpresent, h⟩ := bind_eq_ok h
    obtain ⟨all, hall, hsome⟩ := map_eq_ok h
    cases hsome
    refine ⟨present.body, ?_, body_mergeAll hall⟩
    rw [presentBody, mapError_eq_ok hpresent]
    rfl
  · rename_i first others hfragments
    obtain ⟨all, hall, hsome⟩ := map_eq_ok h
    cases hsome
    exact ⟨[], rfl, by rw [hfragments]; exact body_mergeAll hall⟩
  · cases h

theorem merged_ne_none {present? : Option Text} (hb : b.fragments ≠ []) :
    b.merged present? ≠ .ok none := by
  intro h
  rw [Bundle.merged.eq_def] at h
  split at h
  · obtain ⟨present, -, h⟩ := bind_eq_ok h
    obtain ⟨all, -, hnone⟩ := map_eq_ok h
    cases hnone
  · obtain ⟨all, -, hnone⟩ := map_eq_ok h
    cases hnone
  · rename_i hfragments
    exact hb hfragments

end Merging

/-- What comes together in a target: the statements that it has on the disk, and then those delivered to
it. -/
def Disk.Gathers (d : Disk) (destination : Text) (deliveries : List Delivery) (target : Text)
    (merged : Fragment) : Prop :=
  ∃ present? present, d.presentText? (Path.join destination target) = .ok present? ∧
    presentBody present? = .ok present ∧
    merged.body = present ++
      (deliveries.filter (·.target == target)).flatMap (·.extraction.fragment.body)

section Bundles

variable {d d' : Disk} {destination : Text} {deliveries : List Delivery} {b : Bundle}

theorem fragments_of_mem (h : b ∈ Bundle.ofDeliveries deliveries) :
    b.fragments = (deliveries.filter (·.target == b.target)).map (·.extraction.fragment) := by
  obtain ⟨target, -, rfl⟩ := List.mem_map.mp h
  rfl

theorem fragments_ne_nil (h : b ∈ Bundle.ofDeliveries deliveries) : b.fragments ≠ [] := by
  obtain ⟨x, hx, hname⟩ := List.mem_map.mp (mem_targets_of_mem h)
  rw [fragments_of_mem h, ne_eq, List.map_eq_nil_iff, List.filter_eq_nil_iff]
  exact fun hnone => hnone x hx (beq_iff_eq.mpr hname)

/-- A target that is written gets what comes together in it. -/
theorem writeBundle_eq_ok (hb : b ∈ Bundle.ofDeliveries deliveries)
    (h : (writeBundle destination b).run d = .ok () d') :
    ∃ merged, d.Gathers destination deliveries b.target merged ∧
      (installFile (Path.join destination b.target) (Adaptation.reimport merged.render)).run d =
        .ok () d' := by
  rw [run_writeBundle] at h
  cases htext : d.bundleText? destination b with
  | error e =>
    rw [htext] at h
    cases h
  | ok text? =>
    rw [htext] at h
    obtain ⟨present?, hpresent, htext⟩ := bind_eq_ok htext
    obtain ⟨merged?, hmerged, htext⟩ := bind_eq_ok htext
    cases merged? with
    | none => exact absurd hmerged (merged_ne_none (fragments_ne_nil hb))
    | some merged =>
      cases htext
      obtain ⟨body, hbody, heq⟩ := body_merged hmerged
      rw [fragments_of_mem hb, List.flatMap_map] at heq
      exact ⟨merged, ⟨present?, body, hpresent, hbody, heq⟩, h⟩

/-- What is written to a target stays there while the other targets are written. -/
theorem targetContent?_of_written {before after : List Bundle} {text : Text} {d₁ : Disk}
    (hbundles : (before ++ b :: after).Perm (Bundle.ofDeliveries deliveries)) (h : d.LinkFree)
    (hrun : (installFile (Path.join destination b.target) text).run
        (DiskTask.afterEach (writeBundle destination) before d) = .ok () d₁)
    (hapart : IsApart d destination (deliveries.map (·.target)) b.target) :
    (DiskTask.afterEach (writeBundle destination) before d).targetContent? destination b.target =
        d.targetContent? destination b.target ∧
      (DiskTask.afterEach (writeBundle destination) after d₁).targetContent? destination b.target =
        some (Text.toUtf8 text) := by
  have hothers : ∀ c ∈ before ++ after,
      c.target ∈ deliveries.map (·.target) ∧ c.target ≠ b.target := by
    have hnodup := nodup_targets hbundles.subperm
    rw [List.map_append, List.map_cons, List.nodup_middle, List.nodup_cons, ← List.map_append] at hnodup
    intro c hc
    have hmem : c ∈ before ++ b :: after :=
      List.mem_append.mpr ((List.mem_append.mp hc).imp_right (List.mem_cons_of_mem b))
    exact ⟨mem_targets_of_mem (hbundles.subset hmem),
      fun heq => hnodup.1 (heq ▸ List.mem_map_of_mem hc)⟩
  rw [List.forall_mem_append] at hothers
  refine ⟨targetContent?_afterEach h hothers.1 hapart, ?_⟩
  have hnow := sameBut_afterEach h destination before
  obtain ⟨hsame, hcontent⟩ := installFile_eq_ok hnow.linkFree hrun
  have hhome : d₁.home = d.home := hsame.home.trans hnow.home
  have hapart' : IsApart d₁ destination (deliveries.map (·.target)) b.target := by
    rwa [IsApart, hhome]
  rw [targetContent?_afterEach hsame.linkFree hothers.2 hapart', Disk.targetContent?, hhome, ← hnow.home]
  exact hcontent

end Bundles

section Layout

variable {d d' : Disk} {p : ProjectPlan} {destination : Text} {o : LayoutOptions}
  {report : LayoutReport}

theorem writeLayout_eq_ok (h : (writeLayout p destination o).run d = .ok report d') :
    ∃ deliveries d₁, d.deliveries p o = .ok deliveries ∧
      ((Bundle.ofDeliveries deliveries).forM (writeBundle destination)).run d = .ok () d₁ ∧
      report.written = (Bundle.ofDeliveries deliveries).map (·.target) := by
  rw [writeLayout, DiskTask.run_bind, DiskTask.run_ask] at h
  cases hdeliveries : d.deliveries p o with
  | error e =>
    rw [hdeliveries] at h
    cases h
  | ok deliveries =>
    rw [hdeliveries] at h
    dsimp only at h
    rw [DiskTask.run_bind] at h
    cases hbundles : ((Bundle.ofDeliveries deliveries).forM (writeBundle destination)).run d with
    | error e d₁ =>
      rw [hbundles] at h
      cases h
    | ok _ d₁ =>
      rw [hbundles] at h
      dsimp only at h
      refine ⟨deliveries, d₁, rfl, hbundles, ?_⟩
      split_ifs at h
      · rw [DiskTask.run_bind] at h
        split at h
        · cases h
          rfl
        · cases h
      · cases h
        rfl

/-- Writing a layout neither loses nor doubles code. Every decision of the plan is delivered, in the order
of the plan, to its own target, and the targets of the report are these, each once. In whatever order the
targets are written, each of them gets a fragment with the statements that are there already and those
that are delivered to it, in the order of the plan. If no other target leads to the same place, what is
there already is what was there at the beginning, and what is written is there in the end. -/
theorem writeLayout_conserves (h : (writeLayout p destination o).run d = .ok report d') :
    ∃ deliveries, d.deliveries p o = .ok deliveries ∧
      List.Forall₂ (d.Delivers p o) p.decisions deliveries ∧
      report.written.Nodup ∧
      (∀ t, t ∈ report.written ↔ ∃ entry ∈ p.decisions, entry.2.finalTarget p.lead o = t) ∧
      (report.written.flatMap fun t => deliveries.filter (·.target == t)).Perm deliveries ∧
      report.written = (Bundle.ofDeliveries deliveries).map (·.target) ∧
      (∃ d₁, ((Bundle.ofDeliveries deliveries).forM (writeBundle destination)).run d = .ok () d₁) ∧
      ∀ bundles d₁, bundles.Perm (Bundle.ofDeliveries deliveries) →
        (bundles.forM (writeBundle destination)).run d = .ok () d₁ →
        ∀ before b after, bundles = before ++ b :: after →
          let now := DiskTask.afterEach (writeBundle destination) before d
          ∃ merged, now.Gathers destination deliveries b.target merged ∧
            (installFile (Path.join destination b.target) (Adaptation.reimport merged.render)).run now =
              .ok () (DiskTask.afterEach (writeBundle destination) (before ++ [b]) d) ∧
            (d.LinkFree → IsApart d destination report.written b.target →
              now.targetContent? destination b.target = d.targetContent? destination b.target ∧
              d₁.targetContent? destination b.target =
                some (Text.toUtf8 (Adaptation.reimport merged.render))) := by
  obtain ⟨deliveries, d₁, hdeliveries, hbundles, hwritten⟩ := writeLayout_eq_ok h
  have hdelivers := delivers_of_deliveries hdeliveries
  have htargets : deliveries.map (·.target) = p.decisions.map (·.2.finalTarget p.lead o) := by
    rw [← List.forall₂_eq_eq_eq, List.forall₂_map_left_iff, List.forall₂_map_right_iff]
    exact hdelivers.flip.imp fun _ _ hx => hx.target
  have hnodup : report.written.Nodup := by
    rw [hwritten]
    exact nodup_targets (List.Subperm.refl _)
  have hmem (t : Text) : t ∈ report.written ↔ t ∈ deliveries.map (·.target) := by
    rw [hwritten, targets_ofDeliveries, List.mem_eraseDups]
  refine ⟨deliveries, hdeliveries, hdelivers, hnodup, fun t => ?_, ?_, hwritten, ⟨d₁, hbundles⟩, ?_⟩
  · rw [hmem, htargets, List.mem_map]
  · refine (flatMap_filter_perm (·.target) deliveries hnodup).trans (.of_eq (List.filter_eq_self.mpr ?_))
    exact fun x hx => decide_eq_true ((hmem _).mpr (List.mem_map_of_mem hx))
  · intro bundles d₂ hperm hrun before b after hall now
    subst hall
    obtain ⟨hend, hsteps⟩ := DiskTask.forM_eq_ok hrun
    have hb : b ∈ Bundle.ofDeliveries deliveries :=
      hperm.subset (List.mem_append_right before List.mem_cons_self)
    obtain ⟨merged, hgathers, hinstall⟩ := writeBundle_eq_ok hb (hsteps before b after rfl)
    refine ⟨merged, hgathers, hinstall, fun hlinks hapart => ?_⟩
    have hcontent := targetContent?_of_written hperm hlinks hinstall
      fun other hother => hapart other ((hmem other).mpr hother)
    rwa [← DiskTask.afterEach_append, List.append_assoc, List.singleton_append, hend] at hcontent

end Layout

/-- Two classes that go to one file, which is there already, are delivered to it one after the other. -/
theorem writeLayout_twoClasses_share :
    let p := planTwoClasses [("A.php", "Acme"), ("A.php", "Acme")]
    ∃ report d', (writeLayout p "dest" ⟨false, false, false⟩).run (diskTwoClasses "A.php") = .ok report d' ∧
      report.written.Nodup ∧ ("A.php" : Text) ∈ report.written ∧
      ∃ deliveries : List Delivery, deliveries.length = 2 ∧
        (report.written.flatMap fun t => deliveries.filter (·.target == t)).Perm deliveries := by
  intro p
  obtain ⟨hnone, hlength, hall⟩ :
      (writeLayout p "dest" ⟨false, false, false⟩).error? (diskTwoClasses "A.php") = none ∧
        p.decisions.length = 2 ∧
        p.decisions.all fun entry => entry.2.finalTarget p.lead ⟨false, false, false⟩ == ("A.php" : Text) := by
    decide +kernel
  cases hrun : (writeLayout p "dest" ⟨false, false, false⟩).run (diskTwoClasses "A.php") with
  | error e d' =>
    rw [DiskTask.error?, hrun] at hnone
    cases hnone
  | ok report d' =>
    obtain ⟨deliveries, -, hdelivers, hnodup, hwritten, hperm, -⟩ := writeLayout_conserves hrun
    obtain ⟨entry, hentry⟩ := List.exists_mem_of_length_pos (by rw [hlength]; decide : 0 < p.decisions.length)
    refine ⟨report, d', rfl, hnodup, (hwritten _).mpr ⟨entry, hentry, ?_⟩, deliveries,
      hdelivers.length_eq.symm.trans hlength, hperm⟩
    exact beq_iff_eq.mp (List.all_eq_true.mp hall entry hentry)

end NamespaceMigration
