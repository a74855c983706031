import Mathlib.Data.List.Basic
import NamespaceMigration.Disk.Basic
import NamespaceMigration.Proofs.Fallible

/-! Where paths lead on disks with the same entries. A path that leads to something on a disk leads there
on every disk that has more. -/
namespace NamespaceMigration
namespace Disk

variable {d d' : Disk}

theorem entry?_nil (d : Disk) : d.entry? [] = some .directory := rfl

theorem entry?_of_ne_nil {p : Place} (h : p ≠ []) : d.entry? p = d.entries.lookup p := by
  rw [Disk.entry?, if_neg (by simpa using h)]

theorem lookup_filter_ne (entries : List (Place × DiskEntry)) (p q : Place) :
    (entries.filter (·.1 ≠ p)).lookup q = if q = p then none else entries.lookup q := by
  induction entries with
  | nil => simp
  | cons entry entries ih =>
    obtain ⟨k, e⟩ := entry
    by_cases hk : k = p
    · rw [List.filter_cons_of_neg (by simpa using hk), ih, List.lookup_cons]
      subst hk
      split_ifs with hq
      · rfl
      · rw [beq_eq_false_iff_ne.mpr hq]
    · rw [List.filter_cons_of_pos (by simpa using hk), List.lookup_cons, List.lookup_cons, ih]
      by_cases hq : q = k
      · subst hq
        simp [hk]
      · rw [beq_eq_false_iff_ne.mpr hq]

theorem entry?_erase_of_ne_nil (d : Disk) (p : Place) {q : Place} (hq : q ≠ []) :
    Disk.entry? (d.erase p) q = if q = p then none else d.entry? q := by
  rw [entry?_of_ne_nil hq, entry?_of_ne_nil hq]
  exact lookup_filter_ne d.entries p q

theorem entry?_erase (d : Disk) {p : Place} (hp : p ≠ []) (q : Place) :
    Disk.entry? (d.erase p) q = if q = p then none else d.entry? q := by
  by_cases hq : q = []
  · subst hq
    rw [if_neg (Ne.symm hp)]
    rfl
  · exact entry?_erase_of_ne_nil d p hq

/-- Whatever the one disk has, the other has too. -/
structure Within (d' d : Disk) : Prop where
  home : d'.home = d.home
  entry : ∀ p e, d'.entry? p = some e → d.entry? p = some e

theorem Within.refl (d : Disk) : d.Within d := ⟨rfl, fun _ _ h => h⟩

theorem within_erase (h : d'.Within d) {p : Place} (hp : p ≠ []) : (d'.erase p).Within d := by
  refine ⟨h.home, fun q e hq => ?_⟩
  rw [entry?_erase d' hp] at hq
  split_ifs at hq
  exact h.entry q e hq

section Follow

variable {last' last : Bool} {e : DiskEntry} {q : Place}

/-- How a path to an entry goes on if links at its end are treated in another way. -/
def SameEnd (last' last : Bool) (e : DiskEntry) : Prop :=
  last' = last ∨ last = true ∧ ∀ target, e ≠ .link target

theorem followSteps_within (h : d'.Within d) (hend : SameEnd last' last e)
    {expand' expand : Place → List PathPart → Except IoError Place}
    (hexpand : ∀ place steps, expand' place steps = .ok q → expand place steps = .ok q)
    (hq : d'.entry? q = some e) {place : Place} {steps : List PathPart}
    (hfollow : d'.followSteps last' expand' place steps = .ok q) :
    d.followSteps last expand place steps = .ok q := by
  induction steps generalizing place with
  | nil => exact hfollow
  | cons step rest ih =>
    cases step with
    | root | here | up =>
      rw [followSteps] at hfollow ⊢
      exact ih hfollow
    | named name =>
      rw [followSteps] at hfollow ⊢
      cases hentry : d'.entry? (place ++ [name]) with
      | none =>
        rw [hentry] at hfollow
        dsimp only at hfollow
        split_ifs at hfollow
        cases hfollow
        rw [hentry] at hq
        cases hq
      | some found =>
        rw [hentry] at hfollow
        rw [h.entry _ _ hentry]
        cases found with
        | directory => exact ih hfollow
        | file content => exact hfollow
        | link target =>
          dsimp only at hfollow ⊢
          rcases hend with rfl | ⟨rfl, hlink⟩
          · split_ifs at hfollow ⊢
            · exact hfollow
            · exact hexpand _ _ hfollow
          · rw [if_neg (by simp)]
            split_ifs at hfollow with hat hempty
            · cases hfollow
              rw [hentry] at hq
              exact absurd (Option.some.inj hq).symm (hlink target)
            · rw [if_neg hempty]
              exact hexpand _ _ hfollow

theorem follow_within (h : d'.Within d) (hend : SameEnd last' last e) (hq : d'.entry? q = some e)
    {links : Nat} {place : Place} {steps : List PathPart}
    (hfollow : d'.follow last' links place steps = .ok q) :
    d.follow last links place steps = .ok q := by
  induction links generalizing place steps with
  | zero =>
    refine followSteps_within h hend (fun place steps herror => ?_) hq hfollow
    cases herror
  | succ links ih => exact followSteps_within h hend (fun _ _ => ih) hq hfollow

/-- What a path leads to, it leads to on a disk that has more. -/
theorem find_within (h : d'.Within d) (hend : SameEnd last' last e) {path : Text}
    (hfind : d'.find last' path = .ok (q, e)) : d.find last path = .ok (q, e) := by
  obtain ⟨place, hplace, hentry⟩ := bind_eq_ok hfind
  have hq : place = q ∧ d'.entry? q = some e := by
    split at hentry
    · rename_i hsome
      cases hentry
      exact ⟨rfl, hsome⟩
    · cases hentry
  obtain ⟨rfl, hq⟩ := hq
  have hlocate : d.locate last path = .ok place := by
    rw [locate] at hplace ⊢
    split_ifs at hplace ⊢
    rw [← h.home]
    exact follow_within h hend hq hplace
  rw [find, hlocate, ok_bind, h.entry _ _ hq]

end Follow

theorem read_of_find {path : Text} {place : Place} {content : Bytes}
    (h : d.find false path = .ok (place, .file content)) : d.read path = .ok content := by
  have hend : SameEnd false true (.file content) := Or.inr ⟨rfl, fun _ heq => nomatch heq⟩
  have hfind := find_within (Within.refl d) hend h
  rw [read, hfind, ok_bind]

theorem remove_eq_ok {path : Text} (h : d.remove path = .ok d') :
    ∃ place e, d.find false path = .ok (place, e) ∧ e ≠ .directory ∧ d' = d.erase place := by
  obtain ⟨⟨place, e⟩, hfind, h⟩ := bind_eq_ok h
  refine ⟨place, e, hfind, ?_⟩
  cases e with
  | directory => cases h
  | file | link =>
    cases h
    exact ⟨DiskEntry.noConfusion, rfl⟩

theorem entry?_of_find {last : Bool} {path : Text} {place : Place} {e : DiskEntry}
    (h : d.find last path = .ok (place, e)) : d.entry? place = some e := by
  obtain ⟨place', -, h⟩ := bind_eq_ok h
  split at h
  · rename_i hentry
    cases h
    exact hentry
  · cases h

end Disk
end NamespaceMigration
