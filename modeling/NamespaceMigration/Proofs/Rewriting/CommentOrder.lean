import NamespaceMigration.Proofs.Rewriting.CommentsInFull
import NamespaceMigration.Proofs.Rewriting.Picking

/-! The references of a comment come in order and share no byte, whatever the comment says. So each of them
can get another name, and all else stays. -/
namespace NamespaceMigration

def withBackslash (name : Text) : Text := if isWrittenInFull name then name else '\\' :: name

theorem withBackslash_of_isNameStart {c : Char} (hc : Lexer.isNameStart c) (t : Text) :
    withBackslash (c :: t) = '\\' :: c :: t := by
  have hplain : isWrittenInFull (c :: t) = false := by
    rw [isWrittenInFull, beq_eq_false_iff_ne]
    rintro heq
    rw [Option.some.inj heq] at hc
    cases hc
  rw [withBackslash, hplain]
  rfl

theorem writesInFull_withBackslash : WritesInFull withBackslash where
  full _ := rfl
  name t ht := by
    obtain ⟨c, x, rfl⟩ := List.exists_cons_of_ne_nil ht.ne_nil
    exact ⟨c :: x, withBackslash_of_isNameStart ht.1 x, ht⟩
  word c t hc ht := ⟨c :: t, withBackslash_of_isNameStart hc t,
    List.forall_mem_cons.mpr ⟨Or.inl (Lexer.isNameChar_of_isNameStart hc), ht⟩⟩

namespace Filled

theorem renamed {rename : Text → Text} {offset : Nat} {rs : List DocReference} {t u : Text}
    (h : Filled rename offset rs t u) (other : Text → Text) : ∃ v, Filled other offset rs t v := by
  induction h with
  | nil t => exact ⟨t, .nil t⟩
  | cons a name h ih =>
    obtain ⟨v, hv⟩ := ih
    exact ⟨_, .cons a name hv⟩

end Filled

namespace DocComment

variable (templates : List Text) (offset : Nat)

theorem IsTagLine.method_inOrder {t before tag rest : Text} (h : IsTagLine t before tag rest)
    (htag : ¬ isAnnotation tag) (hmethod : normalizeTag tag = "method") :
    ∃ u, Filled withBackslash offset (lineReferences templates ⟨offset, t⟩) t u := by
  have hr := writesInFull_withBackslash
  rw [h.references_method htag hmethod]
  by_cases hopener : '(' ∈ rest
  · obtain ⟨result, name, blanks, inside, hsignature⟩ := exists_signature hopener
    obtain ⟨x, y, rfl, harguments⟩ := exists_arguments inside
    obtain ⟨result', hresult, -⟩ := namesFrom_filled hr templates (Or.inl rfl)
      (before ++ '@' :: tag).getLast? (before ++ '@' :: tag).getLast?
      (offset + Text.byteSize (before ++ '@' :: tag)) result (Or.inl rfl)
    obtain ⟨ps, -, -, -, hparameters, -⟩ := parameters_filled hr templates offset
      (before ++ '@' :: tag ++ (result ++ (name ++ blanks)) ++ ['(']) (List.splitOn_ne_nil ',' x) y
    rw [Text.join_splitOn] at hparameters
    rw [h.text]
    exact ⟨_, hsignature.filled (harguments x id) hresult hparameters⟩
  · rw [methodNames_of_not_mem hopener]
    exact ⟨t, .nil t⟩

/-- The references of a line come in order. -/
theorem lineReferences_inOrder (t : Text) :
    ∃ u, Filled withBackslash offset (lineReferences templates ⟨offset, t⟩) t u := by
  have hr := writesInFull_withBackslash
  cases hplace : tagPlace? ⟨0, t⟩ with
  | none =>
    have hnone : tagPlace? ⟨offset, t⟩ = none := hplace
    rw [lineReferences, hnone]
    exact ⟨t, .nil t⟩
  | some place =>
    obtain ⟨before, tag, rest, hline⟩ := exists_tagLine hplace
    have hfilled (h : ∃ u, LineFilled withBackslash templates offset t u) :
        ∃ u, Filled withBackslash offset (lineReferences templates ⟨offset, t⟩) t u := by
      obtain ⟨u, hu⟩ := h
      exact ⟨u, hu.filled⟩
    by_cases htag : isAnnotation tag
    · exact hfilled (hline.annotation_filled hr htag)
    · by_cases hmethod : normalizeTag tag = "method"
      · exact hline.method_inOrder templates offset htag hmethod
      · by_cases htemplate : normalizeTag tag ∈ templateTags
        · exact hfilled (hline.template_filled hr htag htemplate)
        · by_cases htyped : normalizeTag tag ∈ typedTags
          · exact hfilled (hline.typed_filled hr htag htyped)
          · rw [hline.references, if_neg htag, if_neg hmethod, if_neg (by rwa [List.contains_iff_mem]),
              if_neg (by rwa [List.contains_iff_mem])]
            exact ⟨t, .nil t⟩

theorem wholeLine_inOrder (t : Text) : ∃ u, Filled withBackslash offset
    (lineReferences templates ⟨offset, Text.trimEnd isLineEnd t⟩) t u := by
  obtain ⟨ends, hends⟩ := trimEnd_prefix isLineEnd t
  obtain ⟨u, hu⟩ := lineReferences_inOrder templates offset (Text.trimEnd isLineEnd t)
  refine ⟨u ++ ends, ?_⟩
  have hbehind := hu.behind ends
  rwa [hends] at hbehind

/-- The references of the lines of a text come in order. -/
theorem linesAt_inOrder (t : Text) :
    ∃ u, Filled withBackslash offset ((linesAt offset t).flatMap (lineReferences templates)) t u := by
  induction hn : t.length using Nat.strong_induction_on generalizing t offset with
  | _ n ih =>
  subst hn
  obtain ⟨x, y, rfl, hx, hstop⟩ := exists_run (· != '\n') t
  have hplain : '\n' ∉ x := fun hmem => by
    have hne := hx '\n' hmem
    cases hne
  cases y with
  | nil =>
    rw [List.append_nil]
    by_cases hne : x = []
    · subst hne
      exact ⟨[], .nil _⟩
    · rw [linesAt_last hplain hne, List.flatMap_singleton]
      exact wholeLine_inOrder templates offset x
  | cons c t =>
    obtain rfl : c = '\n' := by simpa using hstop c rfl
    rw [linesAt_append hplain, List.flatMap_cons]
    obtain ⟨u, hu⟩ := wholeLine_inOrder templates offset (x ++ ['\n'])
    obtain ⟨v, hv⟩ := ih t.length (by rw [List.length_append, List.length_cons]; omega)
      (offset + Text.byteSize (x ++ ['\n'])) t rfl
    have happend := hu.append hv
    rw [List.append_assoc] at happend
    exact ⟨u ++ v, happend⟩

theorem references_inOrder (comment : Text) (rename : Text → Text) :
    ∃ u, Filled rename 0 (references comment) comment u := by
  obtain ⟨u, hu⟩ := linesAt_inOrder (templateNames comment) 0 comment
  exact hu.renamed rename

theorem references_apart (comment : Text) :
    (references comment).Pairwise fun a b => a.range.stop ≤ b.range.start := by
  obtain ⟨u, hu⟩ := references_inOrder comment id
  exact hu.apart

end DocComment

namespace DocReference

/-- The reference is what the text says between two of its characters. -/
structure IsPart (r : DocReference) (t : Text) : Prop where
  start : t.IsBoundary r.range.start
  stop : t.IsBoundary r.range.stop
  start_lt : r.range.start < r.range.stop
  name : r.range.of t = r.name

theorem isPart {comment : Text} {r : DocReference} (hr : r ∈ DocComment.references comment) :
    r.IsPart comment := by
  obtain ⟨⟨hne, -⟩, a, b, hcomment, -, hrange⟩ := DocComment.references_slice r hr
  have hbytes := Text.length_le_byteSize r.name
  have hlength := List.length_pos_of_ne_nil hne
  rw [List.append_assoc] at hcomment
  constructor
  · exact ⟨a, r.name ++ b, hcomment, by rw [hrange]⟩
  · exact ⟨a ++ r.name, b, by rw [hcomment, List.append_assoc], by rw [hrange, Text.byteSize_append]⟩
  · rw [hrange]
    dsimp only
    omega
  · rw [TextRange.of, hrange, hcomment, ← List.append_assoc]
    exact Text.slice_append a r.name b

end DocReference

namespace DocComment

/-- The references of a comment are parts of it, one after the other. Any of them can get other names, and
all else stays. -/
theorem references_exact (comment : Text) :
    (∀ r ∈ references comment, r.IsPart comment) ∧
    (references comment).Pairwise (fun a b => a.range.stop ≤ b.range.start) ∧
    ∀ chosen : List (DocReference × Text), (chosen.map Prod.fst).Sublist (references comment) →
      let es : List TextEdit := chosen.map fun c => ⟨c.1.range, c.2⟩
      ∀ edits, edits.Perm es → Replaces 0 es comment (TextEdit.applyAll edits comment) := by
  have hparts : ∀ r ∈ references comment, r.IsPart comment := fun _ => DocReference.isPart
  refine ⟨hparts, references_apart comment, ?_⟩
  intro chosen hchosen es edits hperm
  have hpart : ∀ e ∈ es, ∃ r ∈ references comment, e.range = r.range := by
    intro e he
    obtain ⟨c, hc, rfl⟩ := List.mem_map.mp he
    exact ⟨c.1, hchosen.subset (List.mem_map_of_mem hc), rfl⟩
  apply TextEdit.applyAll_inOrder hperm
  · intro e he
    obtain ⟨r, hr, hrange⟩ := hpart e he
    have hpart := hparts r hr
    apply TextEdit.liesIn_of_boundaries <;> rw [hrange]
    · exact Nat.le_of_lt hpart.start_lt
    · exact hpart.start
    · exact hpart.stop
  · intro e he
    obtain ⟨r, hr, hrange⟩ := hpart e he
    rw [hrange]
    exact (hparts r hr).start_lt
  · have hsub := (references_apart comment).sublist hchosen
    rw [List.pairwise_map] at hsub ⊢
    exact hsub

end DocComment

namespace Token

theorem docEdits_replaces (comment : Token) (rename : Text → Option Text) :
    Replaces 0 (comment.docEdits rename) comment.text
      (TextEdit.applyAll (comment.docEdits rename) comment.text) := by
  obtain ⟨u, hu⟩ := DocComment.references_inOrder comment.text fun name => (rename name).getD name
  have happlied : TextEdit.applyAll (comment.docEdits rename) comment.text = u := hu.applyAll_edits
  rw [happlied]
  exact hu.replaces

end Token
end NamespaceMigration
