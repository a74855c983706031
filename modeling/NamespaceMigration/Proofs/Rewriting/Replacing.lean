import NamespaceMigration.Adaptation.Qualified
import NamespaceMigration.Proofs.Rewriting.Comments
import NamespaceMigration.Proofs.Rewriting.Edits

/-! Replacing parts of a text, one after the other: the references of a comment, which come in order and do not
overlap, and edits. What comes between the parts is kept, in order. An edit is dropped only if it overlaps one
that comes before it. -/
namespace NamespaceMigration

/-- A text that begins at an offset, references in it, and the text with another name for each of them. -/
inductive Filled (rename : Text → Text) : Nat → List DocReference → Text → Text → Prop
  | nil {offset : Nat} (t : Text) : Filled rename offset [] t t
  | cons {offset : Nat} (a name : Text) {rs : List DocReference} {t u : Text} :
      Filled rename (offset + Text.byteSize a + Text.byteSize name) rs t u →
        Filled rename offset
          (⟨⟨offset + Text.byteSize a, offset + Text.byteSize a + Text.byteSize name⟩, name⟩ :: rs)
          (a ++ name ++ t) (a ++ rename name ++ u)

namespace Filled

variable {rename : Text → Text} {offset : Nat} {rs rs' : List DocReference} {t t' u u' : Text}

theorem before (x : Text) (h : Filled rename (offset + Text.byteSize x) rs t u) :
    Filled rename offset rs (x ++ t) (x ++ u) := by
  cases h with
  | nil => exact .nil _
  | cons a name h =>
    rw [Nat.add_assoc offset, ← Text.byteSize_append] at h ⊢
    rw [← List.append_assoc, ← List.append_assoc, ← List.append_assoc, ← List.append_assoc]
    exact .cons (x ++ a) name h

theorem append (h : Filled rename offset rs t u)
    (h' : Filled rename (offset + Text.byteSize t) rs' t' u') :
    Filled rename offset (rs ++ rs') (t ++ t') (u ++ u') := by
  induction h with
  | nil t => exact before t h'
  | cons a name h ih =>
    rw [Text.byteSize_append, Text.byteSize_append, ← Nat.add_assoc, ← Nat.add_assoc] at h'
    rw [List.append_assoc _ _ t', List.append_assoc _ _ u']
    exact .cons a name (ih h')

theorem behind (h : Filled rename offset rs t u) (y : Text) : Filled rename offset rs (t ++ y) (u ++ y) := by
  have happend := append h (.nil y)
  rwa [List.append_nil] at happend

theorem ranges (h : Filled rename offset rs t u) :
    (∀ r ∈ rs, offset ≤ r.range.start ∧ r.range.start ≤ r.range.stop) ∧
      rs.Pairwise fun a b => a.range.start ≤ b.range.start ∧ a.range.stop ≤ b.range.stop := by
  induction h with
  | nil => exact ⟨List.forall_mem_nil _, .nil⟩
  | cons a name h ih =>
    refine ⟨List.forall_mem_cons.mpr ⟨⟨Nat.le_add_right _ _, Nat.le_add_right _ _⟩, fun r hr => ?_⟩,
      List.pairwise_cons.mpr ⟨fun r hr => ?_, ih.2⟩⟩
    · have hle := ih.1 r hr
      omega
    · have hle := ih.1 r hr
      dsimp only
      omega

theorem apart (h : Filled rename offset rs t u) :
    rs.Pairwise fun a b => a.range.stop ≤ b.range.start := by
  induction h with
  | nil => exact .nil
  | cons a name h ih => exact List.pairwise_cons.mpr ⟨fun r hr => (h.ranges.1 r hr).1, ih⟩

variable {rename? : Text → Option Text}

/-- The edits that give references other names, if they get some. -/
def edits (rename? : Text → Option Text) (rs : List DocReference) : List TextEdit :=
  rs.filterMap fun r => (rename? r.name).map fun new => ⟨r.range, new⟩

theorem exists_of_mem_edits {e : TextEdit} (h : e ∈ edits rename? rs) : ∃ r ∈ rs, e.range = r.range := by
  obtain ⟨r, hr, hnew⟩ := List.mem_filterMap.mp h
  obtain ⟨new, -, rfl⟩ := Option.map_eq_some_iff.mp hnew
  exact ⟨r, hr, rfl⟩

theorem applyFrom_edits {size : Nat} (h : Filled (fun name => (rename? name).getD name) offset rs t u)
    (hsize : offset + Text.byteSize t ≤ size) : TextEdit.applyFrom size offset t (edits rename? rs) = u := by
  induction h with
  | nil => rfl
  | @cons offset a name rs t u h ih =>
    rw [Text.byteSize_append, Text.byteSize_append] at hsize
    have hrest := ih (by omega)
    have hlater : ∀ e ∈ edits rename? rs, offset + Text.byteSize a + Text.byteSize name ≤ e.range.start := by
      intro e he
      obtain ⟨r, hr, hrange⟩ := exists_of_mem_edits he
      rw [hrange]
      exact (h.ranges.1 r hr).1
    rw [List.append_assoc, List.append_assoc, edits, List.filterMap_cons]
    cases hnew : rename? name with
    | none =>
      rw [Option.map_none]
      change TextEdit.applyFrom _ _ _ (edits rename? rs) = _
      rw [← List.append_assoc, TextEdit.applyFrom_append, Text.byteSize_append, ← Nat.add_assoc, hrest,
        List.append_assoc]
      · rfl
      · rw [Text.byteSize_append, ← Nat.add_assoc]
        exact hlater
    | some new =>
      rw [Option.map_some]
      change TextEdit.applyFrom _ _ _ (_ :: edits rename? rs) = _
      rw [TextEdit.applyFrom_append a _ (List.forall_mem_cons.mpr ⟨Nat.le_refl _, fun e he =>
        Nat.le_trans (Nat.le_add_right _ _) (hlater e he)⟩), TextEdit.applyFrom, if_neg (by dsimp only; omega)]
      dsimp only
      rw [Nat.sub_self, Text.splitAtByte_zero, Nat.add_sub_cancel_left, Text.splitAtByte_byteSize, hrest]
      rfl

theorem applyAll_edits (h : Filled (fun name => (rename? name).getD name) 0 rs t u) :
    TextEdit.applyAll (edits rename? rs) t = u := by
  have hsorted : (edits rename? rs).Pairwise fun a b => TextEdit.le a b := by
    refine h.ranges.2.filterMap _ fun a b hab x hx y hy => ?_
    obtain ⟨-, -, rfl⟩ := Option.map_eq_some_iff.mp hx
    obtain ⟨-, -, rfl⟩ := Option.map_eq_some_iff.mp hy
    simp only [TextEdit.le, Bool.or_eq_true, decide_eq_true_eq, Bool.and_eq_true, beq_iff_eq]
    omega
  rw [TextEdit.applyAll, List.mergeSort_of_pairwise hsorted]
  exact applyFrom_edits h (Nat.le_of_eq (Nat.zero_add _))

end Filled

/-- A text that begins at an offset, edits of parts of it in order, and the text that they make. -/
inductive Replaces : Nat → List TextEdit → Text → Text → Prop
  | nil {offset : Nat} (t : Text) : Replaces offset [] t t
  | cons {offset : Nat} (a old new : Text) {es : List TextEdit} {t u : Text} :
      Replaces (offset + Text.byteSize a + Text.byteSize old) es t u →
        Replaces offset
          (⟨⟨offset + Text.byteSize a, offset + Text.byteSize a + Text.byteSize old⟩, new⟩ :: es)
          (a ++ old ++ t) (a ++ new ++ u)

namespace Replaces

variable {offset : Nat} {es es' : List TextEdit} {t t' u u' : Text}

theorem before (x : Text) (h : Replaces (offset + Text.byteSize x) es t u) :
    Replaces offset es (x ++ t) (x ++ u) := by
  cases h with
  | nil => exact .nil _
  | cons a old new h =>
    rw [Nat.add_assoc offset, ← Text.byteSize_append] at h ⊢
    rw [← List.append_assoc, ← List.append_assoc, ← List.append_assoc, ← List.append_assoc]
    exact .cons (x ++ a) old new h

theorem append (h : Replaces offset es t u) (h' : Replaces (offset + Text.byteSize t) es' t' u') :
    Replaces offset (es ++ es') (t ++ t') (u ++ u') := by
  induction h with
  | nil t => exact before t h'
  | cons a old new h ih =>
    rw [Text.byteSize_append, Text.byteSize_append, ← Nat.add_assoc, ← Nat.add_assoc] at h'
    rw [List.append_assoc _ _ t', List.append_assoc _ _ u']
    exact .cons a old new (ih h')

theorem single (old new : Text) :
    Replaces offset [⟨⟨offset, offset + Text.byteSize old⟩, new⟩] old new := by
  simpa [Text.byteSize] using (.cons [] old new (.nil []) : Replaces offset
    [⟨⟨offset + Text.byteSize [], offset + Text.byteSize [] + Text.byteSize old⟩, new⟩] _ _)

theorem pick {done c old b : Text} {e : TextEdit}
    (hrange : e.range = ⟨Text.byteSize (done ++ c), Text.byteSize (done ++ c ++ old)⟩)
    (h : Replaces (Text.byteSize (done ++ c ++ old)) es b u) :
    Replaces (Text.byteSize done) (e :: es) (c ++ old ++ b) (c ++ e.text ++ u) := by
  obtain ⟨range, new⟩ := e
  obtain rfl : range = _ := hrange
  rw [Text.byteSize_append _ old, Text.byteSize_append] at h ⊢
  exact .cons c old new h

theorem shift (n : Nat) (h : Replaces offset es t u) :
    Replaces (offset + n) (es.map fun e => ⟨e.range.shift n, e.text⟩) t u := by
  induction h with
  | nil => exact .nil _
  | @cons offset a old new es t u h ih =>
    have hplace : offset + n + Text.byteSize a = offset + Text.byteSize a + n := by omega
    have hstop : offset + Text.byteSize a + n + Text.byteSize old =
        offset + Text.byteSize a + Text.byteSize old + n := by omega
    have hcons : Replaces (offset + n) _ (a ++ old ++ t) (a ++ new ++ u) :=
      .cons a old new (by rw [hplace, hstop]; exact ih)
    rwa [hplace, hstop] at hcons

end Replaces

/-- One text becomes the other, and all that changes is in ranges of some sort. -/
def Touches (P : TextRange → Prop) (t u : Text) : Prop :=
  ∃ edits, Replaces 0 edits t u ∧ ∀ e ∈ edits, P e.range

namespace TextEdit

/-- Edits that share no byte. -/
def Apart (a b : TextEdit) : Prop := a.range.stop ≤ b.range.start ∨ b.range.stop ≤ a.range.start

theorem Apart.symm {a b : TextEdit} (h : a.Apart b) : b.Apart a := Or.symm h

/-- An edit of a part of a text. -/
def LiesIn (e : TextEdit) (t : Text) : Prop :=
  ∃ a old b, t = a ++ old ++ b ∧
    e.range = ⟨Text.byteSize a, Text.byteSize a + Text.byteSize old⟩

theorem LiesIn.start_le {e : TextEdit} {t : Text} (h : e.LiesIn t) : e.range.start ≤ e.range.stop := by
  obtain ⟨a, old, b, -, hrange⟩ := h
  rw [hrange]
  exact Nat.le_add_right _ _

theorem LiesIn.stop_le {e : TextEdit} {t : Text} (h : e.LiesIn t) : e.range.stop ≤ Text.byteSize t := by
  obtain ⟨a, old, b, rfl, hrange⟩ := h
  rw [hrange, Text.byteSize_append, Text.byteSize_append]
  exact Nat.le_add_right _ _

theorem stop_le_of_apart {a b : TextEdit} (h : a.Apart b) (hle : le a b)
    (hb : b.range.start ≤ b.range.stop) : a.range.stop ≤ b.range.start := by
  simp only [le, Bool.or_eq_true, decide_eq_true_eq, Bool.and_eq_true, beq_iff_eq] at hle
  rcases h with h | h <;> omega

theorem eq_of_byteSize_eq {a b x y : Text} (h : a ++ x = b ++ y)
    (hsize : Text.byteSize a = Text.byteSize b) : a = b ∧ x = y := by
  have hsplit := congrArg (Text.splitAtByte (Text.byteSize a)) h
  rw [Text.splitAtByte_byteSize, hsize, Text.splitAtByte_byteSize] at hsplit
  exact Prod.mk.inj hsplit

theorem LiesIn.applyFrom_ahead {e : TextEdit} {t done left : Text} {size : Nat} (h : e.LiesIn t)
    (ht : t = done ++ left) (edits : List TextEdit) (hstart : Text.byteSize done ≤ e.range.start)
    (hstop : e.range.stop ≤ size) :
    ∃ c old b, left = c ++ old ++ b ∧
      e.range = ⟨Text.byteSize (done ++ c), Text.byteSize (done ++ c ++ old)⟩ ∧
      t = done ++ c ++ old ++ b ∧
      applyFrom size (Text.byteSize done) left (e :: edits) =
        c ++ e.text ++ applyFrom size (Text.byteSize (done ++ c ++ old)) b edits := by
  obtain ⟨a, old, b, hsplit, hrange⟩ := h
  obtain ⟨c, rfl, hleft, happly⟩ := TextEdit.applyFrom_ahead ht edits hsplit hrange hstart hstop
  exact ⟨c, old, b, hleft, by rw [hrange, Text.byteSize_append _ old], hsplit, happly⟩

/-- Sorted edits that are applied to what is left of a text replace parts of it. One that is dropped
begins in what is done, or in a part that an edit before it replaces. -/
theorem applyFrom_replaces {t done left : Text} (ht : t = done ++ left) {edits : List TextEdit}
    (hedits : ∀ e ∈ edits, e.LiesIn t) : ∃ made dropped, (made ++ dropped).Perm edits ∧
      Replaces (Text.byteSize done) made left
        (applyFrom (Text.byteSize t) (Text.byteSize done) left edits) ∧
      ∀ e ∈ dropped, e.range.start < Text.byteSize done ∨
        ∃ e', [e', e].Sublist edits ∧ e.range.start < e'.range.stop := by
  induction edits generalizing done left with
  | nil => exact ⟨[], [], .nil, .nil left, List.forall_mem_nil _⟩
  | cons e edits ih =>
    rw [List.forall_mem_cons] at hedits
    have hbound := hedits.1.stop_le
    by_cases hskip : e.range.start < Text.byteSize done ∨ Text.byteSize t < e.range.stop
    · obtain ⟨made, dropped, hperm, hreplaces, hdropped⟩ := ih ht hedits.2
      rw [applyFrom, if_pos hskip]
      refine ⟨made, e :: dropped, List.perm_middle.trans (hperm.cons e), hreplaces, ?_⟩
      refine List.forall_mem_cons.mpr ⟨Or.inl (by omega), fun d hd => ?_⟩
      refine (hdropped d hd).imp_right ?_
      rintro ⟨e', hsublist, hlt⟩
      exact ⟨e', hsublist.cons e, hlt⟩
    · obtain ⟨c, old, b, rfl, hrange, hdone, happly⟩ :=
        hedits.1.applyFrom_ahead ht edits (by omega) hbound
      obtain ⟨made, dropped, hperm, hreplaces, hdropped⟩ := ih hdone hedits.2
      rw [happly]
      refine ⟨e :: made, dropped, hperm.cons e, .pick hrange hreplaces, fun d hd => Or.inr ?_⟩
      rcases hdropped d hd with hlt | ⟨e', hsublist, hlt⟩
      · refine ⟨e, List.Sublist.cons_cons e (List.singleton_sublist.mpr ?_), by rw [hrange]; exact hlt⟩
        exact hperm.subset (List.mem_append_right _ hd)
      · exact ⟨e', hsublist.cons e, hlt⟩

/-- Edits of parts of a text replace these parts. One that is apart from all others is never dropped. -/
theorem applyAll_replaces {t : Text} {edits : List TextEdit} (hedits : ∀ e ∈ edits, e.LiesIn t)
    {P : TextEdit → Prop} (hapart : edits.Pairwise fun a b => P a ∨ P b → a.Apart b) :
    ∃ made dropped, (made ++ dropped).Perm edits ∧ (∀ e ∈ dropped, ¬P e) ∧
      Replaces 0 made t (applyAll edits t) := by
  have hperm := List.mergeSort_perm edits le
  have hsorted := List.pairwise_mergeSort le_trans' le_total' edits
  have hapart' : (edits.mergeSort le).Pairwise fun a b => P a ∨ P b → a.Apart b :=
    hperm.symm.pairwise hapart fun {a b} h hP => (h hP.symm).symm
  have hlies : ∀ e ∈ edits.mergeSort le, e.LiesIn t := fun e he => hedits e (hperm.subset he)
  obtain ⟨made, dropped, hsame, hreplaces, hdropped⟩ :=
    applyFrom_replaces (show t = [] ++ t from rfl) hlies
  refine ⟨made, dropped, hsame.trans hperm, fun e he hP => ?_, hreplaces⟩
  rcases hdropped e he with hlt | ⟨e', hsublist, hlt⟩
  · exact absurd hlt (Nat.not_lt_zero _)
  · have hpair := hapart'.sublist hsublist
    have hle := hsorted.sublist hsublist
    rw [List.pairwise_pair] at hpair hle
    have hstop := stop_le_of_apart (hpair (Or.inr hP)) hle
      (hlies e (hsame.subset (List.mem_append_right _ he))).start_le
    omega

end TextEdit

/-- The range of an edit. -/
def IsEdited (edits : List TextEdit) (range : TextRange) : Prop := ∃ e ∈ edits, e.range = range

/-- Edits that are all made, and change nothing but ranges of some sort. -/
structure MakesAll (P : TextRange → Prop) (edits : List TextEdit) (t u : Text) : Prop where
  apart : edits.Pairwise TextEdit.Apart
  /-- None is dropped. -/
  made : ∃ made, made.Perm edits ∧ Replaces 0 made t u
  touches : Touches P t u

namespace TextEdit

/-- An edit of a text that itself only makes edits of ranges of some sort. -/
def EditsWithin (P : TextRange → Prop) (t : Text) (e : TextEdit) : Prop :=
  ∀ a old b, t = a ++ old ++ b → e.range = ⟨Text.byteSize a, Text.byteSize a + Text.byteSize old⟩ →
    ∃ inner, Replaces (Text.byteSize a) inner old e.text ∧ ∀ e' ∈ inner, P e'.range

theorem editsWithin_of_range {P : TextRange → Prop} {t : Text} {e : TextEdit} (h : P e.range) :
    e.EditsWithin P t := by
  intro a old b _ hrange
  exact ⟨_, .single old e.text, List.forall_mem_singleton.mpr (hrange ▸ h)⟩

end TextEdit

/-- Replacements that are made of replacements. -/
theorem Replaces.touches {P : TextRange → Prop} {t done left u : Text} (ht : t = done ++ left)
    {edits : List TextEdit} (h : Replaces (Text.byteSize done) edits left u)
    (hedits : ∀ e ∈ edits, e.EditsWithin P t) :
    ∃ inner, Replaces (Text.byteSize done) inner left u ∧ ∀ e ∈ inner, P e.range := by
  generalize hoffset : Text.byteSize done = offset at h
  induction h generalizing done with
  | nil left => exact ⟨[], .nil left, List.forall_mem_nil _⟩
  | @cons offset a old new es left u h ih =>
    subst hoffset
    rw [List.forall_mem_cons] at hedits
    have hsplit : t = (done ++ a) ++ old ++ left := by simp [ht]
    have hsize : Text.byteSize (done ++ a ++ old) =
        Text.byteSize done + Text.byteSize a + Text.byteSize old := by
      rw [Text.byteSize_append, Text.byteSize_append]
    obtain ⟨later, hlater, hranges⟩ := ih hsplit hedits.2 hsize
    obtain ⟨inner, hinner, hranges'⟩ := hedits.1 (done ++ a) old left hsplit (by rw [Text.byteSize_append])
    rw [Text.byteSize_append] at hinner
    refine ⟨inner ++ later, ?_, List.forall_mem_append.mpr ⟨hranges', hranges⟩⟩
    rw [List.append_assoc, List.append_assoc]
    exact .before a (hinner.append hlater)

namespace Filled

theorem replaces {rename? : Text → Option Text} {offset : Nat} {rs : List DocReference} {t u : Text}
    (h : Filled (fun name => (rename? name).getD name) offset rs t u) :
    Replaces offset (edits rename? rs) t u := by
  induction h with
  | nil => exact .nil _
  | @cons offset a name rs t u h ih =>
    rw [edits, List.filterMap_cons]
    cases hnew : rename? name with
    | none =>
      rw [Nat.add_assoc, ← Text.byteSize_append] at ih
      exact .before (a ++ name) ih
    | some new => exact .cons a name new ih

end Filled

end NamespaceMigration
