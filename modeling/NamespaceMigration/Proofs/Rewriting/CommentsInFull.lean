import NamespaceMigration.Proofs.Rewriting.MethodsInFull

/-! Comments with names in full. Lines keep their ends, so a comment is filled line by line, and no name in
it is left to be written in full. -/
namespace NamespaceMigration

/-- The last character of a text with names in full, if no name has it. -/
theorem Retold.getLast? {t u : Text} {c : Char} (h : Retold t u) (hc : ¬IsNameSign c)
    (hlast : u.getLast? = some c) : t.getLast? = some c := by
  induction h with
  | nil => exact hlast
  | @cons d t u h ih =>
    rw [List.getLast?_cons, Option.some.injEq] at hlast ⊢
    cases hu : u.getLast? with
    | none =>
      rw [List.getLast?_eq_none_iff] at hu
      subst hu
      cases h
      exact hlast
    | some e =>
      rw [hu] at hlast
      rw [ih (hu.trans (congrArg some hlast))]
      rfl
  | @name d x y t u hd hx hy h ih =>
    cases hu : u.getLast? with
    | none =>
      rw [List.getLast?_eq_none_iff] at hu
      rw [hu, List.append_nil] at hlast
      have hsigns : ∀ e ∈ '\\' :: y, IsNameSign e := List.forall_mem_cons.mpr ⟨Or.inr rfl, hy⟩
      exact absurd (hsigns c (List.mem_of_getLast? hlast)) hc
    | some e =>
      rw [List.getLast?_cons, List.getLast?_append, hu] at hlast
      rw [List.getLast?_cons, List.getLast?_append, ih (hu.trans hlast)]
      rfl

namespace DocComment

open Lexer (isNameChar)

def isLineEnd (c : Char) : Bool := c == '\n' || c == '\r'

/-- The lines of a text that begins at an offset, without their ends. -/
def linesAt (offset : Nat) (t : Text) : List Line :=
  (linesFrom offset [] t).map fun l => { l with text := Text.trimEnd isLineEnd l.text }

theorem linesFrom_append {offset : Nat} {current x : Text} (hx : '\n' ∉ x) (t : Text) :
    linesFrom offset current (x ++ '\n' :: t) = ⟨offset, current.reverse ++ (x ++ ['\n'])⟩ ::
      linesFrom (offset + Text.byteSize (current.reverse ++ (x ++ ['\n']))) [] t := by
  induction x generalizing current with
  | nil => rw [List.nil_append, linesFrom, if_pos rfl, List.reverse_cons]; rfl
  | cons c x ih =>
    rw [List.mem_cons, not_or] at hx
    rw [List.cons_append, linesFrom, if_neg (Ne.symm hx.1), ih hx.2, List.reverse_cons, List.append_assoc]
    rfl

theorem linesFrom_last {offset : Nat} {current x : Text} (hx : '\n' ∉ x) : linesFrom offset current x =
    if (current.reverse ++ x).isEmpty then [] else [⟨offset, current.reverse ++ x⟩] := by
  induction x generalizing current with
  | nil => rw [linesFrom, List.append_nil, List.isEmpty_reverse]
  | cons c x ih =>
    rw [List.mem_cons, not_or] at hx
    rw [linesFrom, if_neg (Ne.symm hx.1), ih hx.2, List.reverse_cons, List.append_assoc]
    rfl

theorem linesAt_append {offset : Nat} {x : Text} (hx : '\n' ∉ x) (t : Text) :
    linesAt offset (x ++ '\n' :: t) = ⟨offset, Text.trimEnd isLineEnd (x ++ ['\n'])⟩ ::
      linesAt (offset + Text.byteSize (x ++ ['\n'])) t := by
  rw [linesAt, linesFrom_append hx]
  rfl

theorem linesAt_last {offset : Nat} {x : Text} (hx : '\n' ∉ x) (hne : x ≠ []) :
    linesAt offset x = [⟨offset, Text.trimEnd isLineEnd x⟩] := by
  rw [linesAt, linesFrom_last hx, List.reverse_nil, List.nil_append, List.isEmpty_eq_false_iff.mpr hne]
  rfl

section Filled

variable {rename : Text → Text} (hr : WritesInFull rename) (templates : List Text)
include hr

/-- The names of a line in full. -/
theorem line_filled (offset : Nat) {t : Text} (hblank : ∀ c ∈ methodBlank? t, isNameChar c = false) :
    ∃ u, LineFilled rename templates offset t u := by
  cases hplace : tagPlace? ⟨0, t⟩ with
  | none =>
    refine ⟨t, .same fun offset => ?_⟩
    have hnone : tagPlace? ⟨offset, t⟩ = none := hplace
    rw [lineReferences, hnone]
  | some place =>
    obtain ⟨before, tag, rest, hline⟩ := exists_tagLine hplace
    by_cases htag : isAnnotation tag
    · exact hline.annotation_filled hr htag
    · by_cases hmethod : normalizeTag tag = "method"
      · exact hline.method_filled hr htag hmethod hblank
      · by_cases htemplate : normalizeTag tag ∈ templateTags
        · exact hline.template_filled hr htag htemplate
        · by_cases htyped : normalizeTag tag ∈ typedTags
          · exact hline.typed_filled hr htag htyped
          · refine ⟨t, .same fun offset => ?_⟩
            rw [hline.references, if_neg htag, if_neg hmethod, if_neg (by rwa [List.contains_iff_mem]),
              if_neg (by rwa [List.contains_iff_mem])]

/-- The names of a line in full, with the end of the line. -/
theorem wholeLine_filled (offset : Nat) {t : Text}
    (hblank : ∀ c ∈ methodBlank? (Text.trimEnd isLineEnd t), isNameChar c = false) :
    ∃ u, Retold t u ∧
      Filled rename offset
        (lineReferences templates ⟨offset, Text.trimEnd isLineEnd t⟩) t u ∧
      (∀ offset', ∀ r ∈ lineReferences templates
        ⟨offset', Text.trimEnd isLineEnd u⟩, isWrittenInFull r.name) ∧
      templateIn (Text.trimEnd isLineEnd u) =
        templateIn (Text.trimEnd isLineEnd t) := by
  obtain ⟨ends, body, hsplit, hends, hstop⟩ := exists_run isLineEnd t.reverse
  have htrim : Text.trimEnd isLineEnd t = body.reverse := by
    rw [Text.trimEnd, hsplit, dropWhile_append hends hstop]
  have htext : t = body.reverse ++ ends.reverse := by
    rw [← List.reverse_reverse t, hsplit, List.reverse_append]
  obtain ⟨u, hu⟩ := line_filled hr templates offset hblank
  rw [htrim] at hu ⊢
  -- What a line with other names ends with, it ended with before, so its end stays apart.
  have hkept : Text.trimEnd isLineEnd (u ++ ends.reverse) = u := by
    rw [Text.trimEnd, List.reverse_append, List.reverse_reverse, dropWhile_append hends, List.reverse_reverse]
    intro c hc
    rw [List.head?_reverse] at hc
    by_contra hend
    rw [Bool.not_eq_false] at hend
    have hsign : ¬IsNameSign c := by
      rw [isLineEnd, Bool.or_eq_true, beq_iff_eq, beq_iff_eq] at hend
      rcases hend with rfl | rfl <;> decide
    have hlast := hu.retold.getLast? hsign hc
    rw [List.getLast?_reverse] at hlast
    rw [hstop c hlast] at hend
    cases hend
  refine ⟨u ++ ends.reverse, ?_, ?_, fun offset' => ?_, ?_⟩
  · rw [htext]
    exact hu.retold.append (.refl _)
  · rw [htext]
    exact hu.filled.behind _
  · rw [hkept]
    exact hu.full offset'
  · rw [hkept]
    exact hu.template

/-- The names of the lines of a text in full. -/
theorem linesAt_filled (offset : Nat) {t : Text}
    (hblank : ∀ l ∈ linesAt offset t, ∀ c ∈ methodBlank? l.text, isNameChar c = false) :
    ∃ u, Filled rename offset ((linesAt offset t).flatMap (lineReferences templates)) t u ∧
      ∀ offset', (∀ r ∈ (linesAt offset' u).flatMap (lineReferences templates), isWrittenInFull r.name) ∧
        ((linesAt offset' u).filterMap fun l => templateIn l.text) =
          (linesAt offset t).filterMap fun l => templateIn l.text := by
  induction hn : t.length using Nat.strong_induction_on generalizing t offset with
  | _ k ih =>
  subst hn
  obtain ⟨x, y, rfl, hx, hstop⟩ := exists_run (· != '\n') t
  have hplain : '\n' ∉ x := fun hmem => by
    have hne := hx '\n' hmem
    cases hne
  cases y with
  | nil =>
    rw [List.append_nil] at hblank ⊢
    by_cases hne : x = []
    · subst hne
      exact ⟨[], .nil _, fun offset' => ⟨List.forall_mem_nil _, rfl⟩⟩
    · rw [linesAt_last hplain hne] at hblank ⊢
      obtain ⟨u, hretold, hfilled, hfull, htemplate⟩ :=
        wholeLine_filled hr templates offset (hblank _ List.mem_cons_self)
      have hne' : u ≠ [] := by
        rintro rfl
        cases hretold
        exact hne rfl
      have hplain' : '\n' ∉ u := fun hmem => hplain (hretold.mem_of_not_sign (by decide) hmem)
      refine ⟨u, ?_, fun offset' => ?_⟩
      · rw [List.flatMap_singleton]
        exact hfilled
      · rw [linesAt_last hplain' hne', List.flatMap_singleton, List.filterMap_cons, List.filterMap_cons,
          htemplate]
        exact ⟨hfull offset', rfl⟩
  | cons c t =>
    have hc : c = '\n' := by simpa using hstop c rfl
    subst hc
    rw [linesAt_append hplain] at hblank ⊢
    obtain ⟨hhere, hlater⟩ := List.forall_mem_cons.mp hblank
    obtain ⟨u, hretold, hfilled, hfull, htemplate⟩ := wholeLine_filled hr templates offset hhere
    obtain ⟨x', rfl, hretold'⟩ := hretold.concat (by decide)
    have hplain' : '\n' ∉ x' := fun hmem => hplain (hretold'.mem_of_not_sign (by decide) hmem)
    obtain ⟨v, hfilled', hrest⟩ := ih t.length
      (by rw [List.length_append, List.length_cons]; omega) (offset + Text.byteSize (x ++ ['\n'])) hlater rfl
    refine ⟨x' ++ '\n' :: v, ?_, fun offset' => ?_⟩
    · have happend := hfilled.append hfilled'
      rwa [List.append_assoc, List.append_assoc] at happend
    · obtain ⟨hfull', htemplate'⟩ := hrest (offset' + Text.byteSize (x' ++ ['\n']))
      rw [linesAt_append hplain', List.flatMap_cons, List.filterMap_cons, List.filterMap_cons, htemplate,
        htemplate']
      exact ⟨List.forall_mem_append.mpr ⟨hfull offset', hfull'⟩, rfl⟩

theorem references_filled {t : Text} (hblank : ∀ l ∈ lines t, ∀ c ∈ methodBlank? l.text, isNameChar c = false) :
    ∃ u, Filled rename 0 (references t) t u ∧ ∀ r ∈ references u, isWrittenInFull r.name := by
  obtain ⟨u, hfilled, hrest⟩ := linesAt_filled hr (templateNames t) 0 hblank
  obtain ⟨hfull, htemplates⟩ := hrest 0
  refine ⟨u, hfilled, ?_⟩
  have hsame : templateNames u = templateNames t := htemplates
  rw [references, hsame]
  exact hfull

end Filled

end DocComment
end NamespaceMigration
