import NamespaceMigration.Proofs.Lexing.Lookahead

/-! What a heredoc reads beyond its end: whether a character follows that its label could go on
with. -/
namespace NamespaceMigration
namespace Lexer

variable {gaps : Prop}

theorem takeWhile_eq_take (p : Char → Bool) (t : Text) : t.takeWhile p = t.take (runLength p t) :=
  (List.prefix_iff_eq_take.mp (List.takeWhile_prefix p))

theorem local_blanks : Local (runLength fun c => c == ' ' || c == '\t') :=
  local_runLength (by decide)

theorem dropLead?_append_of_starts {lead w : Text} (h : lead <+: w) (r : Text) :
    Text.dropLead? lead (w ++ r) = some (w.drop lead.length ++ r) := by
  obtain ⟨u, rfl⟩ := h
  rw [Text.dropLead?_eq_some_iff, List.drop_left, List.append_assoc]

/-- An end of a heredoc inside `w` is one whatever comes after. -/
theorem heredocEnd?_append {label : Text} (w : Text) {r r' : Text} (h : Agree gaps r r') {n : Nat}
    (hend : heredocEnd? label (w ++ r) = some n) (hn : n ≤ w.length) :
    heredocEnd? label (w ++ r') = some n := by
  simp only [heredocEnd?] at hend ⊢
  cases hd : Text.dropLead? label
      ((w ++ r).drop (runLength (fun c => c == ' ' || c == '\t') (w ++ r))) with
  | none => simp [hd] at hend
  | some after =>
    rw [hd] at hend
    dsimp only at hend
    split at hend
    · cases hend
    · rename_i hafter
      simp only [Option.some.injEq] at hend
      have hindent : runLength (fun c => c == ' ' || c == '\t') (w ++ r) ≤ w.length := by omega
      have hlen : (w.drop (runLength (fun c => c == ' ' || c == '\t') (w ++ r))).length =
          w.length - runLength (fun c => c == ' ' || c == '\t') (w ++ r) := List.length_drop
      rw [local_blanks w h hindent, List.drop_append_of_le_length hindent]
      rw [List.drop_append_of_le_length hindent] at hd
      generalize w.drop (runLength (fun c => c == ' ' || c == '\t') (w ++ r)) = v at hd hlen ⊢
      have hlabel : label <+: v :=
        List.prefix_of_prefix_length_le ⟨after, (Text.dropLead?_eq_some_iff.mp hd).symm⟩
          (List.prefix_append v r) (by omega)
      rw [dropLead?_append_of_starts hlabel, Option.some.injEq] at hd
      rw [dropLead?_append_of_starts hlabel]
      have hafter' : (v.drop label.length ++ r').head?.any isNameChar = false := by
        subst hd
        cases hv : v.drop label.length with
        | nil =>
          rw [hv] at hafter
          exact h.head_eq_false not_isNameChar_backslash (by simpa using hafter)
        | cons c u => simpa [hv] using hafter
      dsimp only
      rw [hafter', if_neg Bool.false_ne_true, hend]

/-- Whether a line ends a heredoc does not depend on the lines after it. -/
theorem heredocEnd?_newline {label : Text} (hlabel : '\n' ∉ label) (a x y : Text) :
    heredocEnd? label (a ++ '\n' :: x) = heredocEnd? label (a ++ '\n' :: y) := by
  have hrun (z : Text) : runLength (fun c => c == ' ' || c == '\t') (a ++ '\n' :: z) =
      runLength (fun c => c == ' ' || c == '\t') a := by
    induction a with
    | nil => rfl
    | cons c a ih =>
      cases hc : (c == ' ' || c == '\t') with
      | true => rw [List.cons_append, runLength_cons_of_pos hc, runLength_cons_of_pos hc, ih]
      | false => rw [List.cons_append, runLength_cons_of_neg hc, runLength_cons_of_neg hc]
  simp only [heredocEnd?, hrun]
  rw [List.drop_append_of_le_length (runLength_le _ a), List.drop_append_of_le_length (runLength_le _ a)]
  generalize a.drop (runLength (fun c => c == ' ' || c == '\t') a) = v
  by_cases hv : label <+: v
  · rw [dropLead?_append_of_starts hv, dropLead?_append_of_starts hv]
    cases v.drop label.length <;> rfl
  · have hnone (z : Text) : Text.dropLead? label (v ++ '\n' :: z) = none := by
      rw [Option.eq_none_iff_forall_ne_some]
      intro after hafter
      have hp : label <+: v ++ '\n' :: z := ⟨after, (Text.dropLead?_eq_some_iff.mp hafter).symm⟩
      rcases Nat.le_total label.length v.length with hle | hle
      · exact hv (List.prefix_of_prefix_length_le hp (List.prefix_append _ _) hle)
      · -- The label would go on over the line feed.
        obtain ⟨u, rfl⟩ := List.prefix_of_prefix_length_le (List.prefix_append v _) hp hle
        rw [List.prefix_append_right_inj] at hp
        cases u with
        | nil => exact hv (by simp)
        | cons c u =>
          obtain rfl := (List.cons_prefix_cons.mp hp).1
          simp at hlabel
    rw [hnone, hnone]

/-- The length of the end of a heredoc, where one may stand. -/
def heredocEndAt? (label : Text) (lineStart : Bool) (t : Text) : Option Nat :=
  if lineStart then heredocEnd? label t else none

theorem heredocBodyLength_cons (label : Text) (lineStart : Bool) (c : Char) (t : Text) :
    heredocBodyLength label lineStart (c :: t) =
      (heredocEndAt? label lineStart (c :: t)).getD (1 + heredocBodyLength label (c == '\n') t) := by
  rw [heredocBodyLength, heredocEndAt?]
  split <;> rename_i h <;> rw [h] <;> rfl

/-- A body that ends before the end of the text ends at the start of a line. -/
theorem newline_of_heredocBodyLength {label : Text} {lineStart : Bool} {b r : Text} (hr : r ≠ [])
    (hb : heredocBodyLength label lineStart (b ++ r) ≤ b.length) : lineStart ∨ '\n' ∈ b := by
  induction b generalizing lineStart with
  | nil =>
    obtain ⟨c, u, rfl⟩ := List.exists_cons_of_ne_nil hr
    rw [List.nil_append, heredocBodyLength_cons, heredocEndAt?] at hb
    cases lineStart with
    | true => exact Or.inl rfl
    | false =>
      simp only [Bool.false_eq_true, if_false, Option.getD_none, List.length_nil] at hb
      omega
  | cons c b ih =>
    cases lineStart with
    | true => exact Or.inl rfl
    | false =>
      rw [List.cons_append, heredocBodyLength_cons, heredocEndAt?, if_neg Bool.false_ne_true,
        Option.getD_none, List.length_cons] at hb
      have hrest : heredocBodyLength label (c == '\n') (b ++ r) ≤ b.length := by omega
      rcases ih hrest with hc | hmem
      · exact Or.inr (by simp [beq_iff_eq.mp hc])
      · exact Or.inr (List.mem_cons_of_mem c hmem)

theorem heredocBodyLength_append {label : Text} (hlabel : '\n' ∉ label) {lineStart : Bool} (b : Text)
    {r r' : Text} (h : Agree gaps r r') (hb : heredocBodyLength label lineStart (b ++ r) ≤ b.length) :
    heredocBodyLength label lineStart (b ++ r') = heredocBodyLength label lineStart (b ++ r) := by
  by_cases hr : r = []
  · subst hr
    rw [h.eq_nil]
  induction b generalizing lineStart with
  | nil =>
    obtain ⟨c, u, rfl⟩ := List.exists_cons_of_ne_nil hr
    rw [List.nil_append, heredocBodyLength_cons] at hb
    cases hend : heredocEndAt? label lineStart (c :: u) with
    | none =>
      rw [hend, Option.getD_none, List.length_nil] at hb
      omega
    | some n =>
      rw [hend, Option.getD_some, List.length_nil] at hb
      rw [List.nil_append, List.nil_append, heredocBodyLength_cons, hend, Option.getD_some]
      unfold heredocEndAt? at hend
      split at hend
      · rename_i hstart
        have hend' := heredocEnd?_append [] h hend hb
        rw [List.nil_append] at hend'
        obtain rfl : n = 0 := by omega
        cases hr' : r' with
        | nil => rfl
        | cons d u' =>
          rw [hr'] at hend'
          rw [heredocBodyLength_cons, heredocEndAt?, if_pos hstart, hend', Option.getD_some]
      · cases hend
  | cons c b ih =>
    rw [List.cons_append, heredocBodyLength_cons, List.length_cons] at hb
    rw [List.cons_append, List.cons_append, heredocBodyLength_cons, heredocBodyLength_cons]
    cases hend : heredocEndAt? label lineStart (c :: (b ++ r)) with
    | some n =>
      rw [hend, Option.getD_some] at hb
      have hend' : heredocEndAt? label lineStart (c :: (b ++ r')) = some n := by
        unfold heredocEndAt? at hend ⊢
        split at hend
        · rename_i hstart
          rw [if_pos hstart]
          exact heredocEnd?_append (c :: b) h hend hb
        · cases hend
      rw [hend']
      rfl
    | none =>
      rw [hend, Option.getD_none] at hb
      have hrest : heredocBodyLength label (c == '\n') (b ++ r) ≤ b.length := by omega
      have hend' : heredocEndAt? label lineStart (c :: (b ++ r')) = none := by
        unfold heredocEndAt? at hend ⊢
        split
        · rename_i hstart
          rw [if_pos hstart] at hend
          -- The body ends at the start of a later line, so this line is the same in both texts.
          have hmem : '\n' ∈ c :: b := by
            rcases newline_of_heredocBodyLength hr hrest with hc | hmem
            · simp [beq_iff_eq.mp hc]
            · exact List.mem_cons_of_mem c hmem
          obtain ⟨a, d, hcb⟩ := List.append_of_mem hmem
          rw [← List.cons_append, hcb, List.append_assoc, List.cons_append] at hend ⊢
          rw [heredocEnd?_newline hlabel a (d ++ r') (d ++ r), hend]
        · rfl
      rw [hend', Option.getD_none, Option.getD_none, ih hrest]

theorem newline_not_mem_heredocLabel (t : Text) : '\n' ∉ heredocLabel t := by
  intro h
  have hall := List.all_takeWhile (p := isNameChar)
    (l := (t.drop (heredocIndent t)).drop (heredocQuote t))
  exact absurd (List.all_eq_true.mp hall _ h) (by decide)

theorem heredocLabel_eq_take (t : Text) :
    heredocLabel t = (t.drop (heredocIndent t + heredocQuote t)).take
      (runLength isNameChar (t.drop (heredocIndent t + heredocQuote t))) := by
  rw [heredocLabel, List.drop_drop, takeWhile_eq_take]

/-- A heredoc inside `w` is one whatever comes after. -/
theorem heredocLength?_append (w : Text) {r r' : Text} (h : Agree gaps r r') {n : Nat}
    (hlen : heredocLength? (w ++ r) = some n) (hn : n ≤ w.length) :
    heredocLength? (w ++ r') = some n := by
  rw [heredocLength?_eq] at hlen ⊢
  split at hlen
  · cases hlen
  · rename_i hbody
    simp only [not_or, Decidable.not_not, List.isEmpty_iff] at hbody
    obtain ⟨hlabel, hbody⟩ := hbody
    simp only [Option.some.injEq] at hlen
    have hpos := List.length_pos_of_ne_nil hlabel
    have hhead : heredocHead (w ++ r) ≤ w.length := by omega
    have hsum := hhead
    rw [heredocHead] at hsum
    have hindent : heredocIndent (w ++ r') = heredocIndent (w ++ r) :=
      local_blanks w h (by change heredocIndent (w ++ r) ≤ w.length; omega)
    have hquote : heredocQuote (w ++ r') = heredocQuote (w ++ r) := by
      have hhead1 (s : Text) : ((w ++ s).drop (heredocIndent (w ++ r))).head? =
          (w.drop (heredocIndent (w ++ r))).head? := by
        rw [List.drop_append_of_le_length (by omega)]
        obtain ⟨c, u, hu⟩ := List.exists_cons_of_length_pos
          (show 0 < (w.drop (heredocIndent (w ++ r))).length by rw [List.length_drop]; omega)
        rw [hu]
        rfl
      rw [heredocQuote, heredocQuote, hindent, hhead1 r', hhead1 r]
    have hrun : (heredocLabel (w ++ r)).length = runLength isNameChar
        (w.drop (heredocIndent (w ++ r) + heredocQuote (w ++ r)) ++ r) := by
      rw [heredocLabel, List.drop_drop, List.drop_append_of_le_length (by omega)]
      rfl
    have hsame : heredocLabel (w ++ r') = heredocLabel (w ++ r) := by
      have hdrop : (w.drop (heredocIndent (w ++ r) + heredocQuote (w ++ r))).length =
        w.length - (heredocIndent (w ++ r) + heredocQuote (w ++ r)) := List.length_drop
      rw [heredocLabel_eq_take, heredocLabel_eq_take, hindent, hquote,
        List.drop_append_of_le_length (by omega), List.drop_append_of_le_length (by omega),
        local_runLength not_isNameChar_backslash _ h (by omega), ← hrun,
        List.take_append_of_le_length (by omega), List.take_append_of_le_length (by omega)]
    have hhead' : heredocHead (w ++ r') = heredocHead (w ++ r) := by
      rw [heredocHead, heredocHead, hindent, hquote, hsame]
    rw [hhead', hsame, List.drop_append_of_le_length hhead]
    rw [List.drop_append_of_le_length hhead] at hlen hbody
    have hb : heredocBodyLength (heredocLabel (w ++ r)) false (w.drop (heredocHead (w ++ r)) ++ r) ≤
        (w.drop (heredocHead (w ++ r))).length := by
      rw [List.length_drop]
      omega
    have hbody' : '\n' ∈ w.drop (heredocHead (w ++ r)) ++ r' := by
      by_cases hr : r = []
      · subst hr
        rwa [h.eq_nil]
      · rcases newline_of_heredocBodyLength hr hb with hf | hmem
        · cases hf
        · exact List.mem_append_left r' hmem
    rw [if_neg (by simp only [List.isEmpty_iff, hlabel, hbody', not_true_eq_false, or_self,
      not_false_eq_true]), heredocBodyLength_append (newline_not_mem_heredocLabel _) _ h hb, hlen]

/-- Two texts agree, and a quote after the blanks at the start of one text stands in the other one too, and
so does the name that may follow it, with one more character. A line feed of the second text is in the first
too. -/
structure SameQuoted (r r' : Text) : Prop where
  agree : Agree False r r'
  quoted : ∀ (u : Text) (q : Char) (y : Text), r = u ++ q :: y →
    (u.all fun c => c == ' ' || c == '\t') → q = '\x27' ∨ q = '\x22' →
    ∃ w z z', y = w ++ z ∧ r' = u ++ q :: (w ++ z') ∧
      ('\n' ∈ z' → '\n' ∈ z) ∧ (runLength isNameChar y < w.length ∨ z' = z)
  newline : '\n' ∈ r' → '\n' ∈ r

/-- Without a heredoc in one text there is none in the other. -/
theorem heredocLength?_eq_none {r r' : Text} (hq : SameQuoted r r')
    (hnone : heredocLength? r = none) : heredocLength? r' = none := by
  obtain ⟨u, v, v', rfl, rfl, hv, hall, hv1, hv2⟩ :=
    hq.agree.exists_run (p := fun c => c == ' ' || c == '\t') (by
      intro c hc
      rcases (by simpa using hc : c = ' ' ∨ c = '\t') with rfl | rfl <;> decide)
  rw [heredocLength?_eq, heredocHead, heredocLabel, heredocQuote, heredocIndent, runLength_append hall hv1,
    List.drop_left] at hnone
  rw [heredocLength?_eq, heredocHead, heredocLabel, heredocQuote, heredocIndent, runLength_append hall hv2,
    List.drop_left]
  have hskip (s : Text) (n : Nat) : (u ++ s).drop (u.length + n) = s.drop n := by simp
  cases hquote : v.head?.any (fun c => c == '\x27' || c == '\x22') with
  | false =>
    rw [hv.head_eq_false (p := fun c => c == '\x27' || c == '\x22') (by decide) hquote]
    rw [hquote] at hnone
    simp only [Bool.false_eq_true, if_false, Nat.add_zero, List.drop_zero, hskip, ite_eq_left_iff,
      reduceCtorEq, imp_false, Decidable.not_not] at hnone ⊢
    rcases hnone with hlabel | hbody
    · refine Or.inl ?_
      rw [List.isEmpty_iff_length_eq_zero] at hlabel ⊢
      rw [← runLength, runLength_eq_zero_iff] at hlabel ⊢
      exact hv.head_eq_false not_isNameChar_backslash hlabel
    · -- The label has no line feed, so there is none at all.
      refine Or.inr fun hmem => hbody ?_
      have hmem : '\n' ∈ u ++ v :=
        hq.newline (List.mem_append_right u (List.mem_of_mem_drop hmem))
      have hblank : '\n' ∉ u := fun hu => absurd (List.all_eq_true.mp hall _ hu) (by decide)
      replace hmem := (List.mem_append.mp hmem).resolve_left hblank
      rw [← List.prefix_iff_eq_append.mp (List.takeWhile_prefix (l := v) isNameChar),
        List.mem_append] at hmem
      rcases hmem with hmem | hmem
      · exact absurd (List.all_eq_true.mp List.all_takeWhile _ hmem) (by decide)
      · exact hmem
  | true =>
    obtain ⟨q, y, rfl⟩ : ∃ q y, v = q :: y :=
      List.exists_cons_of_ne_nil (by rintro rfl; simp at hquote)
    have hquote : q = '\x27' ∨ q = '\x22' := by simpa using hquote
    obtain ⟨w, z, z', rfl, hr', hz, hw⟩ := hq.quoted u q y rfl hall hquote
    obtain rfl := List.append_cancel_left hr'
    have hhead (s : Text) : (q :: s).head?.any (fun c => c == '\x27' || c == '\x22') = true := by
      simpa using hquote
    simp only [hhead, if_true, Nat.add_assoc, hskip, List.drop_one, List.tail_cons,
      ite_eq_left_iff, reduceCtorEq, imp_false, Decidable.not_not] at hnone ⊢
    rcases hw with hw | rfl
    · -- The label and the character after it lie in `w`.
      have hne : (w.takeWhile isNameChar).length ≠ w.length := by
        intro hall
        rw [runLength, List.takeWhile_append, if_pos hall, List.length_append] at hw
        omega
      have hlt : (w.takeWhile isNameChar).length < w.length := by
        have := (List.takeWhile_prefix (l := w) isNameChar).length_le
        omega
      have hlabel (s : Text) : (w ++ s).takeWhile isNameChar = w.takeWhile isNameChar := by
        rw [List.takeWhile_append, if_neg hne]
      have hbody (s : Text) : (q :: (w ++ s)).drop (1 + ((w.takeWhile isNameChar).length + 1)) =
          w.drop ((w.takeWhile isNameChar).length + 1) ++ s := by
        rw [Nat.add_comm 1, List.drop_succ_cons, List.drop_append_of_le_length hlt]
      rw [hlabel, hbody] at hnone
      rw [hlabel, hbody]
      refine hnone.imp_right fun hnone hmem => hnone ?_
      rw [List.mem_append] at hmem ⊢
      exact hmem.imp_right hz
    · exact hnone

end Lexer
end NamespaceMigration
