import Mathlib.Data.List.Nodup
import NamespaceMigration.Proofs.Rewriting.Replacing

/-! Edits that are made at once. In the order of their places, an edit is made exactly if it ends inside the
text and does not begin before the end of the last one that was made. Edits that share no byte are all made,
whatever the order in which they are given. -/
namespace NamespaceMigration

namespace Text

/-- Between two characters of the text, or at one of its ends. -/
def IsBoundary (t : Text) (offset : Nat) : Prop := ∃ a b, t = a ++ b ∧ byteSize a = offset

theorem append_splitAtByte (n : Nat) (t : Text) : (splitAtByte n t).1 ++ (splitAtByte n t).2 = t := by
  induction t generalizing n with
  | nil => rfl
  | cons c t ih =>
    rw [splitAtByte]
    split_ifs
    · exact congrArg (c :: ·) (ih _)
    · rfl

theorem isBoundary_iff {t : Text} {offset : Nat} :
    t.IsBoundary offset ↔ byteSize (splitAtByte offset t).1 = offset := by
  constructor
  · rintro ⟨a, b, rfl, rfl⟩
    rw [splitAtByte_byteSize]
  · exact fun h => ⟨_, _, (append_splitAtByte offset t).symm, h⟩

instance (t : Text) (offset : Nat) : Decidable (t.IsBoundary offset) := decidable_of_iff _ isBoundary_iff.symm

end Text

namespace TextEdit

/-- The edits by the starts of their ranges, then by the ends. Those of one range keep their order. -/
structure Sorts (edits sorted : List TextEdit) : Prop where
  perm : sorted.Perm edits
  ordered : sorted.Pairwise fun a b => le a b
  stable : ∀ range, sorted.filter (·.range == range) = edits.filter (·.range == range)

theorem sorts_mergeSort (edits : List TextEdit) : Sorts edits (edits.mergeSort le) where
  perm := List.mergeSort_perm edits le
  ordered := List.pairwise_mergeSort le_trans' le_total' edits
  stable := filter_mergeSort edits

theorem range_eq_of_le {a b : TextEdit} (h : le a b) (h' : le b a) : a.range = b.range := by
  obtain ⟨⟨start, stop⟩, text⟩ := a
  obtain ⟨⟨start', stop'⟩, text'⟩ := b
  simp only [le, Bool.or_eq_true, decide_eq_true_eq, Bool.and_eq_true, beq_iff_eq] at h h'
  simp only [TextRange.mk.injEq]
  omega

/-- There is one such order. -/
theorem eq_of_ordered {es es' : List TextEdit} (hperm : es.Perm es')
    (h : es.Pairwise fun a b => le a b) (h' : es'.Pairwise fun a b => le a b)
    (hstable : ∀ range, es.filter (·.range == range) = es'.filter (·.range == range)) : es = es' := by
  induction es generalizing es' with
  | nil => exact hperm.nil_eq
  | cons a es ih =>
    cases es' with
    | nil => exact absurd hperm.symm.nil_eq (List.cons_ne_nil a es).symm
    | cons b es' =>
      rw [List.pairwise_cons] at h h'
      have hrange : a.range = b.range := by
        rcases List.mem_cons.mp (hperm.subset List.mem_cons_self) with hab | ha
        · rw [hab]
        · rcases List.mem_cons.mp (hperm.symm.subset List.mem_cons_self) with hba | hb
          · rw [hba]
          · exact range_eq_of_le (h.1 b hb) (h'.1 a ha)
      have hhead := hstable a.range
      rw [List.filter_cons_of_pos (by simp), List.filter_cons_of_pos (by simp [hrange])] at hhead
      obtain ⟨rfl, -⟩ := List.cons.inj hhead
      congr 1
      apply ih ((List.perm_cons a).mp hperm) h.2 h'.2
      intro range
      have hrest := hstable range
      simp only [List.filter_cons] at hrest
      split at hrest
      · exact List.tail_eq_of_cons_eq hrest
      · exact hrest

theorem Sorts.eq {edits sorted sorted' : List TextEdit} (h : Sorts edits sorted)
    (h' : Sorts edits sorted') : sorted = sorted' :=
  eq_of_ordered (h.perm.trans h'.perm.symm) h.ordered h'.ordered fun range =>
    (h.stable range).trans (h'.stable range).symm

/-- The edits that are picked from a list, one after the other: those that end within `size` and do not begin
before the end of the last one that was picked, which is `cursor` at first. -/
inductive Picks (size : Nat) : Nat → List TextEdit → List TextEdit → Prop
  | nil {cursor : Nat} : Picks size cursor [] []
  | pick {cursor : Nat} {e : TextEdit} {es picked : List TextEdit} :
      cursor ≤ e.range.start → e.range.stop ≤ size → Picks size e.range.stop es picked →
        Picks size cursor (e :: es) (e :: picked)
  | skip {cursor : Nat} {e : TextEdit} {es picked : List TextEdit} :
      e.range.start < cursor ∨ size < e.range.stop → Picks size cursor es picked →
        Picks size cursor (e :: es) picked

namespace Picks

variable {size cursor : Nat} {es picked picked' : List TextEdit}

theorem exists_picks (size cursor : Nat) (es : List TextEdit) : ∃ picked, Picks size cursor es picked := by
  induction es generalizing cursor with
  | nil => exact ⟨[], .nil⟩
  | cons e es ih =>
    by_cases hskip : e.range.start < cursor ∨ size < e.range.stop
    · obtain ⟨picked, hpicked⟩ := ih cursor
      exact ⟨picked, .skip hskip hpicked⟩
    · obtain ⟨picked, hpicked⟩ := ih e.range.stop
      exact ⟨e :: picked, .pick (by omega) (by omega) hpicked⟩

theorem eq (h : Picks size cursor es picked) (h' : Picks size cursor es picked') : picked = picked' := by
  induction h generalizing picked' with
  | nil =>
    cases h'
    rfl
  | pick hstart hstop _ ih =>
    cases h' with
    | pick _ _ h' => rw [ih h']
    | skip hskip _ => omega
  | skip hskip _ ih =>
    cases h' with
    | pick hstart hstop _ => omega
    | skip _ h' => exact ih h'

theorem all (hsize : ∀ e ∈ es, e.range.stop ≤ size) (hcursor : ∀ e ∈ es, cursor ≤ e.range.start)
    (hafter : es.Pairwise fun a b => a.range.stop ≤ b.range.start) : Picks size cursor es es := by
  induction es generalizing cursor with
  | nil => exact .nil
  | cons e es ih =>
    rw [List.forall_mem_cons] at hsize hcursor
    rw [List.pairwise_cons] at hafter
    exact .pick hcursor.1 hsize.1 (ih hsize.2 hafter.1 hafter.2)

/-- What is picked replaces parts of the text, and all else is kept. -/
theorem replaces {t done left : Text} (ht : t = done ++ left)
    (hlies : ∀ e ∈ es, e.range.stop ≤ Text.byteSize t → e.LiesIn t)
    (h : Picks (Text.byteSize t) (Text.byteSize done) es picked) :
    Replaces (Text.byteSize done) picked left
      (applyFrom (Text.byteSize t) (Text.byteSize done) left es) := by
  generalize hcursor : Text.byteSize done = cursor at h
  induction h generalizing done left with
  | nil => exact .nil left
  | @pick cursor e es picked hstart hstop _ ih =>
    subst hcursor
    rw [List.forall_mem_cons] at hlies
    obtain ⟨c, old, b, rfl, hrange, hdone, happly⟩ :=
      (hlies.1 hstop).applyFrom_ahead ht es hstart hstop
    have hsize : Text.byteSize (done ++ c ++ old) = e.range.stop := by rw [hrange]
    rw [happly]
    exact .pick hrange (hsize ▸ ih hdone hlies.2 hsize)
  | skip hskip _ ih =>
    subst hcursor
    rw [List.forall_mem_cons] at hlies
    rw [applyFrom, if_pos hskip]
    exact ih ht hlies.2 rfl

end Picks

theorem liesIn_of_boundaries {t : Text} {e : TextEdit} (hle : e.range.start ≤ e.range.stop)
    (hstart : t.IsBoundary e.range.start) (hstop : t.IsBoundary e.range.stop) : e.LiesIn t := by
  obtain ⟨a, x, rfl, ha⟩ := hstart
  obtain ⟨d, b, hsplit, hd⟩ := hstop
  rw [← ha, ← hd] at hle
  obtain ⟨old, rfl, rfl⟩ := eq_append_of_byteSize_le hsplit hle
  refine ⟨a, old, b, (List.append_assoc a old b).symm, ?_⟩
  rw [← Text.byteSize_append, ha, hd]

/-- Edits of no byte. -/
def IsInsert (e : TextEdit) : Prop := e.range.start = e.range.stop

/-- Two edits at no common place: they share no byte, and are not both inserts at one offset. -/
structure Separate (a b : TextEdit) : Prop where
  apart : a.Apart b
  inserts : ¬(a.IsInsert ∧ b.IsInsert ∧ a.range.start = b.range.start)

instance (a b : TextEdit) : Decidable (a.Separate b) :=
  decidable_of_iff ((a.range.stop ≤ b.range.start ∨ b.range.stop ≤ a.range.start) ∧
      ¬(a.range.start = a.range.stop ∧ b.range.start = b.range.stop ∧ a.range.start = b.range.start))
    ⟨fun h => ⟨h.1, h.2⟩, fun h => ⟨h.apart, h.inserts⟩⟩

theorem Separate.symm {a b : TextEdit} (h : a.Separate b) : b.Separate a where
  apart := h.apart.symm
  inserts := fun ⟨hb, ha, hsame⟩ => h.inserts ⟨ha, hb, hsame.symm⟩

theorem Separate.range_ne {a b : TextEdit} (h : a.Separate b) (hle : a.range.start ≤ a.range.stop) :
    a.range ≠ b.range := by
  intro hrange
  have hapart := h.apart
  rw [Apart, ← hrange] at hapart
  have hinsert : a.range.start = a.range.stop := by omega
  exact h.inserts ⟨hinsert, by rw [IsInsert, ← hrange, hinsert], by rw [hrange]⟩

theorem mergeSort_eq_of_perm {edits edits' : List TextEdit} (hperm : edits'.Perm edits)
    (hranges : (edits.map (·.range)).Nodup) : edits'.mergeSort le = edits.mergeSort le := by
  have hsorts := sorts_mergeSort edits
  have hsorts' := sorts_mergeSort edits'
  apply List.Perm.eq_of_pairwise _ hsorts'.ordered hsorts.ordered
  · exact (hsorts'.perm.trans hperm).trans hsorts.perm.symm
  · intro a b ha hb hle hle'
    have ha' : a ∈ edits := (hsorts'.perm.trans hperm).subset ha
    exact List.inj_on_of_nodup_map hranges ha' (hsorts.perm.subset hb) (range_eq_of_le hle hle')

theorem nodup_ranges {edits : List TextEdit} (hle : ∀ e ∈ edits, e.range.start ≤ e.range.stop)
    (h : edits.Pairwise Separate) : (edits.map (·.range)).Nodup := by
  rw [List.Nodup, List.pairwise_map]
  exact h.imp_of_mem fun {a b} ha _ hseparate => hseparate.range_ne (hle a ha)

theorem picks_all {size : Nat} {edits : List TextEdit}
    (hle : ∀ e ∈ edits, e.range.start ≤ e.range.stop) (hsize : ∀ e ∈ edits, e.range.stop ≤ size)
    (h : edits.Pairwise Separate) : Picks size 0 (edits.mergeSort le) (edits.mergeSort le) := by
  have hsorts := sorts_mergeSort edits
  have hseparate : (edits.mergeSort le).Pairwise Separate :=
    hsorts.perm.symm.pairwise h Separate.symm
  apply Picks.all
  · exact fun e he => hsize e (hsorts.perm.subset he)
  · exact fun _ _ => Nat.zero_le _
  · exact (hsorts.ordered.and hseparate).imp_of_mem fun {a b} _ hb hab =>
      stop_le_of_apart hab.2.apart hab.1 (hle b (hsorts.perm.subset hb))

/-- Edits of parts of a text that come one after the other are all made, in whatever order they are given. -/
theorem applyAll_inOrder {t : Text} {es edits : List TextEdit} (hperm : edits.Perm es)
    (hlies : ∀ e ∈ es, e.LiesIn t) (hparts : ∀ e ∈ es, e.range.start < e.range.stop)
    (hafter : es.Pairwise fun a b => a.range.stop ≤ b.range.start) : Replaces 0 es t (applyAll edits t) := by
  have hsorted : es.Pairwise fun a b => le a b := by
    apply hafter.imp_of_mem
    intro a b ha _ hab
    have hpart := hparts a ha
    simp only [le, Bool.or_eq_true, decide_eq_true_eq]
    exact Or.inl (by omega)
  have hseparate : es.Pairwise Separate := by
    apply hafter.imp_of_mem
    intro a b ha _ hab
    have hpart := hparts a ha
    exact ⟨Or.inl hab, fun hinserts => absurd hinserts.1 (Nat.ne_of_lt hpart)⟩
  have hranges := nodup_ranges (fun e he => (hlies e he).start_le) hseparate
  rw [applyAll, mergeSort_eq_of_perm hperm hranges, List.mergeSort_of_pairwise hsorted]
  apply Picks.replaces (show t = [] ++ t from rfl) (fun e he _ => hlies e he)
  exact Picks.all (fun e he => (hlies e he).stop_le) (fun _ _ => Nat.zero_le _) hafter

/-- Edits are made at once: those that are picked in the order of their ranges replace parts of the text.
Separate edits within the text are all picked, in whatever order they are given. -/
theorem applyAll_simultaneous {t : Text} {edits : List TextEdit}
    (h : ∀ e ∈ edits, e.range.start ≤ e.range.stop ∧
      (e.range.stop ≤ Text.byteSize t → t.IsBoundary e.range.start ∧ t.IsBoundary e.range.stop)) :
    ∃ sorted picked, (∀ l, Sorts edits l ↔ l = sorted) ∧
      (∀ l, Picks (Text.byteSize t) 0 sorted l ↔ l = picked) ∧
      Replaces 0 picked t (applyAll edits t) ∧
      ((∀ e ∈ edits, e.range.stop ≤ Text.byteSize t) → edits.Pairwise Separate →
        picked = sorted ∧ ∀ edits', edits'.Perm edits → applyAll edits' t = applyAll edits t) := by
  have hsorts := sorts_mergeSort edits
  have hle : ∀ e ∈ edits, e.range.start ≤ e.range.stop := fun e he => (h e he).1
  obtain ⟨picked, hpicked⟩ := Picks.exists_picks (Text.byteSize t) 0 (edits.mergeSort le)
  refine ⟨edits.mergeSort le, picked, fun l => ?_, fun l => ?_, ?_, fun hsize hseparate => ?_⟩
  · constructor
    · exact fun hl => hl.eq hsorts
    · rintro rfl
      exact hsorts
  · constructor
    · exact fun hl => hl.eq hpicked
    · rintro rfl
      exact hpicked
  · apply Picks.replaces (show t = [] ++ t from rfl) _ hpicked
    intro e he hstop
    have hbounds := h e (hsorts.perm.subset he)
    exact liesIn_of_boundaries hbounds.1 (hbounds.2 hstop).1 (hbounds.2 hstop).2
  · constructor
    · exact hpicked.eq (picks_all hle hsize hseparate)
    · intro edits' hperm
      rw [applyAll, applyAll, mergeSort_eq_of_perm hperm (nodup_ranges hle hseparate)]

/-- An insert before the first character, which is replaced as well, and a replacement of the last one. -/
def accentedEdits : List TextEdit :=
  [⟨⟨3, 5⟩, "e".toList⟩, ⟨⟨0, 2⟩, "E".toList⟩, insert 0 "L'".toList]

theorem accented_simultaneous : (∀ e ∈ accentedEdits, e.range.start ≤ e.range.stop ∧
      (e.range.stop ≤ Text.byteSize "été".toList →
        Text.IsBoundary "été".toList e.range.start ∧ Text.IsBoundary "été".toList e.range.stop)) ∧
    (∀ e ∈ accentedEdits, e.range.stop ≤ Text.byteSize "été".toList) ∧ accentedEdits.Pairwise Separate ∧
    applyAll accentedEdits.reverse "été".toList = applyAll accentedEdits "été".toList := by
  have hbounds : ∀ e ∈ accentedEdits, e.range.start ≤ e.range.stop ∧
      (e.range.stop ≤ Text.byteSize "été".toList →
        Text.IsBoundary "été".toList e.range.start ∧ Text.IsBoundary "été".toList e.range.stop) := by
    decide +kernel
  have hsize : ∀ e ∈ accentedEdits, e.range.stop ≤ Text.byteSize "été".toList := by decide +kernel
  have hseparate : accentedEdits.Pairwise Separate := by decide +kernel
  obtain ⟨_, _, -, -, -, hall⟩ := applyAll_simultaneous hbounds
  exact ⟨hbounds, hsize, hseparate, (hall hsize hseparate).2 _ (List.reverse_perm _)⟩

end TextEdit
end NamespaceMigration
