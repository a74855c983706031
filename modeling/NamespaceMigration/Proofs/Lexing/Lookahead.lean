import NamespaceMigration.Proofs.Lexing.Agreement

/-! What each scanner of code reads beyond its token: nothing that differs between two texts that
agree. -/
namespace NamespaceMigration
namespace Lexer

variable {gaps : Prop}

theorem local_digits : Local (runLength isDigitOrBar) := local_runLength (by decide)

def signLength (t : Text) : Nat := if t.head?.any (fun c => c == '+' || c == '-') then 1 else 0

def signedDigits (t : Text) : Nat := runLength isDigitOrBar (t.drop (signLength t))

theorem exponentLength_cons (e : Char) (t : Text) :
    exponentLength (e :: t) =
      if e = 'e' ∨ e = 'E' then
        if signedDigits t = 0 then 0 else 1 + signLength t + signedDigits t
      else 0 := by
  rw [exponentLength]
  unfold signedDigits signLength
  split
  · dsimp only
    generalize runLength isDigitOrBar (t.drop _) = digits
    cases digits <;> rfl
  · rfl

theorem signLength_cons_of_sign {c : Char} (h : c = '+' ∨ c = '-') (t : Text) :
    signLength (c :: t) = 1 := by
  rcases h with rfl | rfl <;> rfl

/-- Signs and digits before two texts that agree are the same, if there is room for them. -/
theorem signedDigits_append (w : Text) {r r' : Text} (h : Agree gaps r r')
    (hw : signedDigits (w ++ r) = 0 ∨ signLength (w ++ r) + signedDigits (w ++ r) ≤ w.length) :
    signLength (w ++ r') = signLength (w ++ r) ∧ signedDigits (w ++ r') = signedDigits (w ++ r) := by
  have hsame {s : Nat} (v : Text) (hs : v.length + s = w.length)
      (hd : runLength isDigitOrBar (v ++ r) = 0 ∨ s + runLength isDigitOrBar (v ++ r) ≤ w.length) :
      runLength isDigitOrBar (v ++ r') = runLength isDigitOrBar (v ++ r) :=
    local_digits v h (by omega)
  cases w with
  | cons c w =>
    have hsign : signLength (c :: w ++ r') = signLength (c :: w ++ r) := rfl
    refine ⟨hsign, ?_⟩
    unfold signedDigits at hw ⊢
    rw [hsign]
    by_cases hc : c = '+' ∨ c = '-'
    · rw [List.cons_append, signLength_cons_of_sign hc] at hw ⊢
      exact hsame w rfl hw
    · have h0 : signLength (c :: w ++ r) = 0 := by simpa [signLength] using hc
      rw [h0] at hw ⊢
      exact hsame (c :: w) rfl hw
  | nil =>
    rw [List.nil_append] at hw
    rw [List.nil_append, List.nil_append]
    have h0 : signedDigits r = 0 := by
      rw [List.length_nil] at hw
      omega
    cases hs : r.head?.any (fun c => c == '+' || c == '-') with
    | false =>
      have hs' := h.head_eq_false (p := fun c => c == '+' || c == '-') (by decide) hs
      have h1 : signLength r = 0 := by simp [signLength, hs]
      have h2 : signLength r' = 0 := by simp [signLength, hs']
      unfold signedDigits at h0 ⊢
      rw [h1, List.drop_zero] at h0
      rw [h1, h2, List.drop_zero, List.drop_zero]
      exact ⟨rfl, local_digits [] h (by rw [List.nil_append, h0]; exact Nat.zero_le _)⟩
    | true =>
      obtain ⟨c, u, rfl⟩ : ∃ c u, r = c :: u :=
        List.exists_cons_of_ne_nil (by rintro rfl; simp at hs)
      have hc : c = '+' ∨ c = '-' := by simpa [Bool.or_eq_true] using hs
      obtain ⟨u', rfl, hu⟩ := h.of_cons (c := c) (by rcases hc with rfl | rfl <;> decide)
        (by rcases hc with rfl | rfl <;> decide) (by rcases hc with rfl | rfl <;> decide)
        (by rcases hc with rfl | rfl <;> decide) (fun _ => by rcases hc with rfl | rfl <;> decide)
      unfold signedDigits at h0 ⊢
      rw [signLength_cons_of_sign hc, List.drop_one, List.tail_cons] at h0
      rw [signLength_cons_of_sign hc, signLength_cons_of_sign hc, List.drop_one, List.tail_cons,
        List.drop_one, List.tail_cons]
      exact ⟨rfl, local_digits [] hu (by rw [List.nil_append, h0]; exact Nat.zero_le _)⟩

/-- An exponent before two texts that agree is the same. -/
theorem exponentLength_cons_append (e : Char) (w : Text) {r r' : Text} (h : Agree gaps r r')
    (hw : exponentLength (e :: (w ++ r)) ≤ 1 + w.length) :
    exponentLength (e :: (w ++ r')) = exponentLength (e :: (w ++ r)) := by
  rw [exponentLength_cons] at hw
  rw [exponentLength_cons, exponentLength_cons]
  by_cases he : e = 'e' ∨ e = 'E'
  · rw [if_pos he] at hw
    have hroom : signedDigits (w ++ r) = 0 ∨
        signLength (w ++ r) + signedDigits (w ++ r) ≤ w.length := by
      by_cases h0 : signedDigits (w ++ r) = 0
      · exact Or.inl h0
      · rw [if_neg h0] at hw
        exact Or.inr (by omega)
    obtain ⟨hs, hd⟩ := signedDigits_append w h hroom
    rw [hs, hd]
  · rw [if_neg he, if_neg he]

theorem local_exponentLength : Local exponentLength := by
  intro w gaps r r' h hw
  cases w with
  | cons e w => exact exponentLength_cons_append e w h (by simpa [Nat.add_comm] using hw)
  | nil =>
    have h0 : exponentLength r = 0 := by simpa using hw
    rw [List.nil_append, List.nil_append, h0]
    cases h with
    | nil => rfl
    | @cons e r r' h =>
      rw [← h0]
      exact exponentLength_cons_append e [] h (by simp [h0])
    | name => rfl
    | full => rfl
    | comment => rfl
    | stop hc => rcases isStop_iff.mp hc with rfl | rfl <;> rfl
    | gap _ hc => rcases isGap_iff.mp hc with rfl | rfl | rfl | rfl | rfl <;> rfl

/-- What a decimal number has after its whole part: a fraction or an exponent. -/
def fractionLength : Text → Nat
  | [] => 0
  | c :: u =>
    if c = '.' then
      1 + runLength isDigitOrBar u + exponentLength (u.drop (runLength isDigitOrBar u))
    else exponentLength (c :: u)

theorem decimalLength_eq (t : Text) :
    decimalLength t =
      runLength isDigitOrBar t + fractionLength (t.drop (runLength isDigitOrBar t)) := by
  simp only [decimalLength]
  split
  · rename_i u hu
    rw [hu, fractionLength, if_pos rfl]
    omega
  · rename_i hu
    cases hd : t.drop (runLength isDigitOrBar t) with
    | nil => rfl
    | cons c u =>
      have hc : c ≠ '.' := by
        rintro rfl
        exact hu u hd
      rw [fractionLength, if_neg hc]

theorem local_fractionLength : Local fractionLength := by
  intro w gaps r r' h hw
  cases w with
  | cons c w =>
    simp only [List.cons_append, fractionLength, List.length_cons] at hw ⊢
    by_cases hc : c = '.'
    · rw [if_pos hc] at hw
      rw [if_pos hc, if_pos hc]
      have hrun : runLength isDigitOrBar (w ++ r) ≤ w.length := by omega
      have hrest : (w.drop (runLength isDigitOrBar (w ++ r))).length =
          w.length - runLength isDigitOrBar (w ++ r) := List.length_drop
      rw [local_digits w h hrun]
      rw [List.drop_append_of_le_length hrun] at hw
      rw [List.drop_append_of_le_length hrun, List.drop_append_of_le_length hrun,
        local_exponentLength _ h (by omega)]
    · rw [if_neg hc] at hw
      rw [if_neg hc, if_neg hc]
      exact local_exponentLength (c :: w) h hw
  | nil =>
    have h0 : fractionLength r = 0 := by simpa using hw
    rw [List.nil_append, List.nil_append, h0]
    have hdot : ∀ c u, fractionLength (c :: u) = 0 →
        c ≠ '.' ∧ fractionLength (c :: u) = exponentLength (c :: u) := by
      intro c u hcu
      rw [fractionLength] at hcu ⊢
      split_ifs at hcu ⊢ with hc
      · omega
      · exact ⟨hc, rfl⟩
    cases h with
    | nil => rfl
    | @cons c r r' h =>
      obtain ⟨hc, he⟩ := hdot c r h0
      have := local_exponentLength [] (.cons c h) (by rw [List.nil_append, ← he, h0]; simp)
      rw [fractionLength, if_neg hc, ← h0, he]
      exact this
    | name => rfl
    | full => rfl
    | comment => rfl
    | stop hc => rcases isStop_iff.mp hc with rfl | rfl <;> rfl
    | gap _ hc => rcases isGap_iff.mp hc with rfl | rfl | rfl | rfl | rfl <;> rfl

theorem local_decimalLength : Local decimalLength := by
  intro w gaps r r' h hw
  rw [decimalLength_eq] at hw
  have hrun : runLength isDigitOrBar (w ++ r) ≤ w.length := by omega
  have hrest : (w.drop (runLength isDigitOrBar (w ++ r))).length =
      w.length - runLength isDigitOrBar (w ++ r) := List.length_drop
  rw [List.drop_append_of_le_length hrun] at hw
  rw [decimalLength_eq, decimalLength_eq, local_digits w h hrun, List.drop_append_of_le_length hrun,
    List.drop_append_of_le_length hrun, local_fractionLength _ h (by omega)]

/-- A number that starts with a zero may go on as hexadecimal or binary. -/
def basedLength? : Text → Option Nat
  | [] => none
  | c :: t =>
    if (c = 'x' ∨ c = 'X') ∧ t.head?.any isHexOrBar then some (2 + runLength isHexOrBar t)
    else if (c = 'b' ∨ c = 'B') ∧ t.head?.any isBitOrBar then some (2 + runLength isBitOrBar t)
    else none

theorem numberLength_cons (c : Char) (t : Text) :
    numberLength (c :: t) =
      if c = '0' then (basedLength? t).getD (decimalLength (c :: t)) else decimalLength (c :: t) := by
  by_cases hc : c = '0'
  · subst hc
    rw [if_pos rfl]
    cases t with
    | nil => rfl
    | cons d t =>
      rw [numberLength, basedLength?]
      split_ifs <;> rfl
  · rw [if_neg hc]
    unfold numberLength
    split
    · rename_i hu
      simp only [List.cons.injEq] at hu
      exact absurd hu.1 hc
    · rfl

/-- A digit of some base comes after two texts that agree alike, or is outside both. -/
theorem basedLength?_append (w : Text) {r r' : Text} (h : Agree gaps r r')
    (hw : (basedLength? (w ++ r)).getD 0 ≤ 1 + w.length) :
    basedLength? (w ++ r') = basedLength? (w ++ r) := by
  have hhex : Local (runLength isHexOrBar) := local_runLength (by decide)
  have hbit : Local (runLength isBitOrBar) := local_runLength (by decide)
  have hhead {p : Char → Bool} (hp : p '\\' = false) (v : Text)
      (hv : v = [] → r.head?.any p = false) :
      (v ++ r').head?.any p = (v ++ r).head?.any p := by
    cases v with
    | cons d v => rfl
    | nil => rw [List.nil_append, List.nil_append, hv rfl, h.head_eq_false hp (hv rfl)]
  have hpos {p : Char → Bool} (hp : r.head?.any p) : 1 ≤ runLength p r := by
    have := mt runLength_eq_zero_iff.mp (by simp [hp] : ¬r.head?.any p = false)
    omega
  cases w with
  | cons c w =>
    simp only [List.cons_append, basedLength?, List.length_cons] at hw ⊢
    have hx : c = 'x' ∨ c = 'X' →
        (w ++ r').head?.any isHexOrBar = (w ++ r).head?.any isHexOrBar := by
      intro hc
      refine hhead (by decide) w fun hnil => ?_
      subst hnil
      cases hp : r.head?.any isHexOrBar with
      | false => rfl
      | true =>
        have := hpos hp
        rw [List.nil_append, if_pos ⟨hc, hp⟩, Option.getD_some, List.length_nil] at hw
        omega
    have hb : c = 'b' ∨ c = 'B' →
        (w ++ r').head?.any isBitOrBar = (w ++ r).head?.any isBitOrBar := by
      intro hc
      refine hhead (by decide) w fun hnil => ?_
      subst hnil
      cases hp : r.head?.any isBitOrBar with
      | false => rfl
      | true =>
        have := hpos hp
        have hne : ¬((c = 'x' ∨ c = 'X') ∧ r.head?.any isHexOrBar) := by
          rcases hc with rfl | rfl <;> simp
        rw [List.nil_append, if_neg hne, if_pos ⟨hc, hp⟩, Option.getD_some, List.length_nil] at hw
        omega
    by_cases hcx : (c = 'x' ∨ c = 'X') ∧ (w ++ r).head?.any isHexOrBar
    · rw [if_pos hcx, Option.getD_some] at hw
      rw [if_pos hcx, if_pos ⟨hcx.1, (hx hcx.1).trans hcx.2⟩, hhex w h (by omega)]
    · rw [if_neg hcx] at hw
      rw [if_neg hcx, if_neg fun h' => hcx ⟨h'.1, (hx h'.1).symm.trans h'.2⟩]
      by_cases hcb : (c = 'b' ∨ c = 'B') ∧ (w ++ r).head?.any isBitOrBar
      · rw [if_pos hcb, Option.getD_some] at hw
        rw [if_pos hcb, if_pos ⟨hcb.1, (hb hcb.1).trans hcb.2⟩, hbit w h (by omega)]
      · rw [if_neg hcb, if_neg fun h' => hcb ⟨h'.1, (hb h'.1).symm.trans h'.2⟩]
  | nil =>
    rw [List.nil_append, List.nil_append]
    rw [List.nil_append, List.length_nil] at hw
    have hnone : basedLength? r = none := by
      cases hb : basedLength? r with
      | none => rfl
      | some n =>
        cases r with
        | nil => simp [basedLength?] at hb
        | cons c r =>
          rw [hb, Option.getD_some] at hw
          rw [basedLength?] at hb
          split_ifs at hb <;> simp only [Option.some.injEq] at hb <;> omega
    rw [hnone]
    cases h with
    | nil => rfl
    | @cons c r r' h =>
      have hx : ¬((c = 'x' ∨ c = 'X') ∧ r.head?.any isHexOrBar) := by
        intro hx
        simp [basedLength?, hx] at hnone
      have hb : ¬((c = 'b' ∨ c = 'B') ∧ r.head?.any isBitOrBar) := by
        intro hb
        rw [basedLength?, if_neg hx, if_pos hb] at hnone
        simp at hnone
      have hx' : ¬((c = 'x' ∨ c = 'X') ∧ r'.head?.any isHexOrBar) := by
        rintro ⟨hc, hr'⟩
        have := h.head_eq_false (p := isHexOrBar) (by decide) (by simpa using fun hr => hx ⟨hc, hr⟩)
        simp [this] at hr'
      have hb' : ¬((c = 'b' ∨ c = 'B') ∧ r'.head?.any isBitOrBar) := by
        rintro ⟨hc, hr'⟩
        have := h.head_eq_false (p := isBitOrBar) (by decide) (by simpa using fun hr => hb ⟨hc, hr⟩)
        simp [this] at hr'
      rw [basedLength?, if_neg hx', if_neg hb']
    | name => rfl
    | full => rfl
    | comment => rfl
    | stop hc => rcases isStop_iff.mp hc with rfl | rfl <;> rfl
    | gap _ hc => rcases isGap_iff.mp hc with rfl | rfl | rfl | rfl | rfl <;> rfl

theorem numberLength_append (c : Char) (w : Text) {r r' : Text} (h : Agree gaps r r')
    (hw : numberLength (c :: (w ++ r)) ≤ 1 + w.length) :
    numberLength (c :: (w ++ r')) = numberLength (c :: (w ++ r)) := by
  have hdec (hd : decimalLength (c :: (w ++ r)) ≤ 1 + w.length) :
      decimalLength (c :: (w ++ r')) = decimalLength (c :: (w ++ r)) :=
    local_decimalLength (c :: w) h (by simpa [Nat.add_comm] using hd)
  rw [numberLength_cons] at hw
  rw [numberLength_cons, numberLength_cons]
  by_cases hc : c = '0'
  · rw [if_pos hc] at hw
    rw [if_pos hc, if_pos hc]
    cases hb : basedLength? (w ++ r) with
    | some n =>
      rw [hb, Option.getD_some] at hw
      rw [basedLength?_append w h (by rwa [hb, Option.getD_some]), hb]
      rfl
    | none =>
      rw [hb, Option.getD_none] at hw
      rw [basedLength?_append w h (by simp [hb]), hb, Option.getD_none, Option.getD_none, hdec hw]
  · rw [if_neg hc] at hw
    rw [if_neg hc, if_neg hc, hdec hw]

theorem quotedLength?_cons (quote c : Char) (t : Text) :
    quotedLength? quote (c :: t) =
      if c = quote then some 1
      else if c = '\\' then (quotedLength? quote t.tail).map (· + 2)
      else (quotedLength? quote t).map (· + 1) := by
  cases t with
  | nil => simp [quotedLength?]
  | cons d t => simp [quotedLength?]

theorem quotedLength?_pos {quote : Char} {t : Text} {n : Nat} (h : quotedLength? quote t = some n) :
    0 < n := by
  cases t with
  | nil => simp [quotedLength?] at h
  | cons c t =>
    rw [quotedLength?_cons] at h
    split_ifs at h
    · simp only [Option.some.injEq] at h
      omega
    · obtain ⟨m, -, rfl⟩ := Option.map_eq_some_iff.mp h
      omega
    · obtain ⟨m, -, rfl⟩ := Option.map_eq_some_iff.mp h
      omega

/-- A string that is closed inside `w` is closed there whatever comes after. -/
theorem quotedLength?_append {quote : Char} (w : Text) {r : Text} {n : Nat}
    (h : quotedLength? quote (w ++ r) = some n) (hn : n ≤ w.length) (r' : Text) :
    quotedLength? quote (w ++ r') = some n := by
  match w with
  | [] =>
    have := quotedLength?_pos h
    rw [List.length_nil] at hn
    omega
  | [c] =>
    rw [List.singleton_append, quotedLength?_cons] at h
    rw [List.singleton_append, quotedLength?_cons]
    split_ifs at h ⊢ with hc hb
    · exact h
    · obtain ⟨m, -, rfl⟩ := Option.map_eq_some_iff.mp h
      simp at hn
    · obtain ⟨m, hm, rfl⟩ := Option.map_eq_some_iff.mp h
      have := quotedLength?_pos hm
      simp only [List.length_singleton] at hn
      omega
  | c :: d :: w =>
    simp only [List.cons_append, List.length_cons] at h hn ⊢
    rw [quotedLength?_cons] at h ⊢
    split_ifs at h ⊢ with hc hb
    · exact h
    · obtain ⟨m, hm, rfl⟩ := Option.map_eq_some_iff.mp h
      rw [List.tail_cons] at hm ⊢
      rw [quotedLength?_append w hm (by omega) r', Option.map_some]
    · obtain ⟨m, hm, rfl⟩ := Option.map_eq_some_iff.mp h
      have := quotedLength?_append (d :: w) hm (by simpa using by omega) r'
      rw [← List.cons_append, this, Option.map_some]

theorem drop_unclosedLength (t : Text) :
    t.drop (unclosedLength t) = [] ∨ t.drop (unclosedLength t) = ['\\'] := by
  fun_induction unclosedLength t with
  | case1 => exact Or.inl rfl
  | case2 => exact Or.inr rfl
  | case3 d u ih => simpa [Nat.add_comm 2] using ih
  | case4 c t hc ih => simpa [Nat.add_comm 1] using ih

theorem Agree.eq_of_unclosed {w r r' : Text} (h : Agree gaps r r')
    (hw : unclosedLength (w ++ r) = w.length) : r' = r := by
  have hdrop := drop_unclosedLength (w ++ r)
  rw [hw, List.drop_left] at hdrop
  rcases hdrop with rfl | rfl
  · exact h.eq_nil
  · exact h.eq_backslash

theorem lineCommentLength_cons_eq_zero_iff {c : Char} {t : Text} :
    lineCommentLength (c :: t) = 0 ↔ c = '\n' ∨ c = '\r' ∨ (c = '?' ∧ t.head? = some '>') := by
  rw [lineCommentLength]
  split_ifs with hc
  · simpa using hc
  · simp only [hc, iff_false]
    omega

theorem lineCommentLength_cons_of_pos {c : Char} {t : Text} (h : lineCommentLength (c :: t) ≠ 0) :
    lineCommentLength (c :: t) = 1 + lineCommentLength t := by
  rw [Ne, lineCommentLength_cons_eq_zero_iff] at h
  rw [lineCommentLength, if_neg h]

theorem endTag_plain : ∀ c ∈ (['>'] : Text), isNameStart c = false ∧ c ≠ '\\' := by
  rw [List.forall_mem_singleton]
  decide

theorem local_lineCommentLength : Local lineCommentLength := by
  intro w gaps r r' h hw
  have htag (v : Text) : (v ++ r').head? = some '>' ↔ (v ++ r).head? = some '>' := by
    cases v with
    | cons d v => rfl
    | nil =>
      have := h.prefix_iff endTag_plain (Or.inl (by decide)) (Or.inl (by decide)) (.singleton _)
      simpa [List.singleton_prefix_iff_head?_eq_some] using this.symm
  induction w with
  | cons c w ih =>
    simp only [List.cons_append, List.length_cons] at hw ⊢
    have hiff : lineCommentLength (c :: (w ++ r')) = 0 ↔ lineCommentLength (c :: (w ++ r)) = 0 := by
      rw [lineCommentLength_cons_eq_zero_iff, lineCommentLength_cons_eq_zero_iff, htag]
    by_cases h0 : lineCommentLength (c :: (w ++ r)) = 0
    · rw [h0, hiff.mpr h0]
    · rw [lineCommentLength_cons_of_pos h0] at hw ⊢
      rw [lineCommentLength_cons_of_pos (mt hiff.mp h0), ih (by omega)]
  | nil =>
    have h0 : lineCommentLength r = 0 := by simpa using hw
    rw [List.nil_append, List.nil_append, h0]
    cases h with
    | nil => rfl
    | @cons c u u' hu =>
      rw [lineCommentLength_cons_eq_zero_iff] at h0 ⊢
      have := hu.prefix_iff endTag_plain (Or.inl (by decide)) (Or.inl (by decide)) (.singleton _)
      rw [List.singleton_prefix_iff_head?_eq_some, List.singleton_prefix_iff_head?_eq_some] at this
      rwa [← this]
    | name hc =>
      rw [lineCommentLength_cons_eq_zero_iff] at h0
      rcases h0 with rfl | rfl | ⟨rfl, -⟩ <;> simp [isNameStart] at hc
    | full => simp [lineCommentLength_cons_eq_zero_iff] at h0
    | comment => simp [lineCommentLength_cons_eq_zero_iff] at h0
    | stop hc =>
      rw [lineCommentLength_cons_eq_zero_iff] at h0
      rcases h0 with rfl | rfl | ⟨rfl, -⟩ <;> simp [isStop] at hc
    | gap _ hc =>
      rw [lineCommentLength_cons_eq_zero_iff] at h0 ⊢
      rcases h0 with rfl | rfl | ⟨rfl, -⟩
      · exact .inl rfl
      · exact .inr (.inl rfl)
      · simp [isGap, isSpace] at hc

/-- What is found inside `w` is found there whatever comes after. -/
theorem splitFirst?_append {needle : Text} (w : Text) {r before after : Text}
    (h : Text.splitFirst? needle (w ++ r) = some (before, after))
    (hw : before.length + needle.length ≤ w.length) (r' : Text) :
    ∃ after', Text.splitFirst? needle (w ++ r') = some (before, after') := by
  have hdrop {v u : Text} (hv : needle.length ≤ v.length) :
      (Text.dropLead? needle (v ++ u)).isSome ↔ needle <+: v := by
    rw [Option.isSome_iff_exists]
    simp only [Text.dropLead?_eq_some_iff]
    constructor
    · rintro ⟨x, hx⟩
      exact List.prefix_of_prefix_length_le ⟨x, hx.symm⟩ (List.prefix_append v u) hv
    · rintro ⟨x, rfl⟩
      exact ⟨x ++ u, by simp⟩
  induction w generalizing before with
  | nil =>
    obtain ⟨hb, hn⟩ : before.length = 0 ∧ needle.length = 0 := by
      rw [List.length_nil] at hw
      omega
    rw [List.length_eq_zero_iff] at hb hn
    subst hb hn
    cases r' with
    | nil => exact ⟨[], rfl⟩
    | cons c r' => exact ⟨c :: r', rfl⟩
  | cons c w ih =>
    rw [List.cons_append, Text.splitFirst?] at h
    rw [List.cons_append, Text.splitFirst?]
    have hlen : needle.length ≤ (c :: w).length := by omega
    have hsame : (Text.dropLead? needle (c :: (w ++ r'))).isSome ↔
        (Text.dropLead? needle (c :: (w ++ r))).isSome := by
      rw [← List.cons_append, ← List.cons_append, hdrop hlen, hdrop hlen]
    cases hd : Text.dropLead? needle (c :: (w ++ r)) with
    | some rest =>
      rw [hd] at h hsame
      obtain ⟨rest', hr'⟩ := Option.isSome_iff_exists.mp (hsame.mpr rfl)
      simp only [Option.some.injEq, Prod.mk.injEq] at h
      exact ⟨rest', by rw [hr', ← h.1]⟩
    | none =>
      rw [hd] at h hsame
      have hd' : Text.dropLead? needle (c :: (w ++ r')) = none := by
        rw [← Option.not_isSome_iff_eq_none]
        simpa using hsame
      simp only [Option.map_eq_some_iff, Prod.mk.injEq, Prod.exists] at h
      obtain ⟨b, a, hs, rfl, rfl⟩ := h
      simp only [List.length_cons] at hw
      obtain ⟨a', ha'⟩ := ih hs (by omega)
      exact ⟨a', by simp [hd', ha']⟩

theorem local_blockCommentLength : Local blockCommentLength := by
  intro w gaps r r' h hw
  unfold blockCommentLength at hw ⊢
  cases hs : Text.splitFirst? "*/" (w ++ r) with
  | some parts =>
    obtain ⟨before, after⟩ := parts
    rw [hs] at hw
    obtain ⟨after', hs'⟩ := splitFirst?_append w hs hw r'
    rw [hs']
  | none =>
    rw [hs] at hw
    have hr : r = [] := by
      rw [← List.length_eq_zero_iff]
      simp only [List.length_append] at hw
      omega
    subst hr
    rw [h.eq_nil, hs]

end Lexer
end NamespaceMigration
