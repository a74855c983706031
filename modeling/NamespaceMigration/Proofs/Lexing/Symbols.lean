import Mathlib.Data.List.Find
import NamespaceMigration.Proofs.Lexing.Heredoc

/-! What the scanner of code reads beyond a token. Two texts that agree are scanned alike after the
same token. -/
namespace NamespaceMigration
namespace Lexer

variable {gaps : Prop}

/-- A character that neither starts a name nor separates the segments of one. -/
def isPlainSign (c : Char) : Bool := !isNameStart c && c != '\\'

theorem symbols_plain : ∀ e ∈ symbols, e.1 = ['\\'] ∨
    (e.1.all isPlainSign ∧ (e.1.length ≤ 2 ∨ '/' ∉ e.1) ∧
      (e.1.length ≤ 1 ∨ e.1.all (!isStop ·)) ∧
      e.1.IsChain fun c d => isGap c → isSpace d) := by
  decide

theorem Agree.startsWith {r r' p : Text} (h : Agree gaps r r') (hp : p.all isPlainSign)
    (hlen : p.length ≤ 2 ∨ '/' ∉ p) (hstop : p.length ≤ 1 ∨ p.all (!isStop ·))
    (hgap : p.IsChain fun c d => isGap c → isSpace d) :
    Text.startsWith r' p = Text.startsWith r p := by
  have hplain : ∀ c ∈ p, isNameStart c = false ∧ c ≠ '\\' := by
    intro c hc
    have hsign := List.all_eq_true.mp hp c hc
    rw [isPlainSign, Bool.and_eq_true, Bool.not_eq_true', bne_iff_ne] at hsign
    exact hsign
  have hfree : p.length ≤ 1 ∨ ∀ c ∈ p, isStop c = false :=
    hstop.imp_right fun hall c hc => by simpa using List.all_eq_true.mp hall c hc
  have hiff := h.prefix_iff hplain hlen hfree hgap
  rw [Text.startsWith, Text.startsWith, Bool.eq_iff_iff, List.isPrefixOf_iff_prefix,
    List.isPrefixOf_iff_prefix, hiff]

theorem find?_symbols (c : Char) {r r' : Text} (h : Agree gaps r r') :
    (symbols.find? fun e => Text.startsWith (c :: r') e.1) =
      symbols.find? fun e => Text.startsWith (c :: r) e.1 := by
  refine List.find?_congr fun e he => ?_
  rcases symbols_plain e he with hb | ⟨hp, hlen, hstop, hgap⟩
  · rw [hb]
    rfl
  · exact (Agree.cons c h).startsWith hp hlen hstop hgap

theorem startsWith_eq_false {t p : Text} (h : ∀ u, t ≠ p ++ u) : Text.startsWith t p = false := by
  rw [Text.startsWith, Bool.eq_false_iff, Ne, List.isPrefixOf_iff_prefix]
  rintro ⟨u, hu⟩
  exact h u hu.symm

theorem afterQuestion_eq (t : Text) :
    afterQuestion t =
      if Text.startsWith t "->" then (.nullsafeArrow, 3)
      else if Text.startsWith t ">\r\n" then (.closeTag, 4)
      else if Text.startsWith t ">\n" then (.closeTag, 3)
      else if Text.startsWith t ">" then (.closeTag, 2)
      else (.question, 1) := by
  unfold afterQuestion
  split
  · rfl
  · rfl
  · rfl
  · rename_i u h1 h2
    rw [startsWith_eq_false (p := ">\r\n") fun v hv => h1 v (List.cons.inj hv).2,
      startsWith_eq_false (p := ">\n") fun v hv => h2 v (List.cons.inj hv).2]
    rfl
  · rename_i h1 _ _ h2
    rw [startsWith_eq_false (p := "->") h1, startsWith_eq_false (p := ">\r\n") fun v => h2 _,
      startsWith_eq_false (p := ">\n") fun v => h2 _, startsWith_eq_false (p := ">") h2]
    rfl

theorem Agree.afterQuestion {r r' : Text} (h : Agree gaps r r') :
    afterQuestion r' = afterQuestion r := by
  rw [afterQuestion_eq, afterQuestion_eq, h.startsWith (by decide) (by decide) (by decide) (by decide),
    h.startsWith (by decide) (by decide) (by decide) (by decide),
    h.startsWith (by decide) (by decide) (by decide) (by decide),
    h.startsWith (by decide) (by decide) (by decide) (by decide)]

/-- After a dot comes an ellipsis, an assignment, the fraction of a number, or nothing. -/
theorem afterDot_eq (t : Text) :
    afterDot t =
      if Text.startsWith t ".." then (.ellipsis, 3)
      else if Text.startsWith t "=" then (.operator, 2)
      else if t.head?.any Char.isDigit then (.number, fractionLength ('.' :: t))
      else (.operator, 1) := by
  unfold afterDot
  split
  · rfl
  · rfl
  · rename_i c u h1 h2
    rw [startsWith_eq_false (p := "..") fun v hv => h1 v (List.cons.inj hv).1 (List.cons.inj hv).2,
      startsWith_eq_false (p := "=") fun v hv => h2 (List.cons.inj hv).1]
    have hhead : (c :: u).head?.any Char.isDigit = c.isDigit := rfl
    rw [if_neg Bool.false_ne_true, if_neg Bool.false_ne_true, hhead]
    cases hc : c.isDigit with
    | true =>
      rw [if_pos rfl, if_pos rfl, fractionLength, if_pos rfl,
        runLength_cons_of_pos (p := isDigitOrBar) (by simp [isDigitOrBar, hc])]
    | false => rw [if_neg Bool.false_ne_true, if_neg Bool.false_ne_true]
  · rfl

/-- A dot before two texts that agree starts the same token, if there is room for it. -/
theorem afterDot_append (w : Text) {r r' : Text} (h : Agree gaps r r')
    (hw : (afterDot (w ++ r)).2 ≤ 1 + w.length) : afterDot (w ++ r') = afterDot (w ++ r) := by
  have hsame := h.append w
  rw [afterDot_eq] at hw
  rw [afterDot_eq, afterDot_eq, hsame.startsWith (by decide) (by decide) (by decide) (by decide),
    hsame.startsWith (by decide) (by decide) (by decide) (by decide)]
  split
  · rfl
  · rename_i h1
    rw [if_neg h1] at hw
    split
    · rfl
    · rename_i h2
      rw [if_neg h2] at hw
      cases hd : (w ++ r).head?.any Char.isDigit with
      | true =>
        rw [hd, if_pos rfl] at hw
        have hd' : (w ++ r').head?.any Char.isDigit = true := by
          cases w with
          | cons c w => exact hd
          | nil =>
            -- The digit would belong to the token.
            have hrun : runLength isDigitOrBar r ≠ 0 := by
              rw [Ne, runLength_eq_zero_iff]
              obtain ⟨c, u, rfl⟩ : ∃ c u, r = c :: u :=
                List.exists_cons_of_ne_nil (by rintro rfl; simp at hd)
              have hc : c.isDigit := by simpa using hd
              simp [isDigitOrBar, hc]
            rw [List.nil_append, fractionLength, if_pos rfl, List.length_nil] at hw
            dsimp only at hw
            omega
        rw [hd', if_pos rfl, if_pos rfl]
        have := local_fractionLength ('.' :: w) h (by simpa [Nat.add_comm] using hw)
        rw [← List.cons_append, this, List.cons_append]
      | false =>
        rw [hsame.head_eq_false (by decide) hd, if_neg Bool.false_ne_true, if_neg Bool.false_ne_true]

/-- A token is no shorter than the symbol that it starts with. -/
theorem length_le_afterSymbol {e : Text × TokenKind} (he : e ∈ symbols) (t : Text) :
    e.1.length ≤ (afterSymbol e.1 e.2 t).2 := by
  obtain ⟨-, hone⟩ := symbols_length e he
  unfold afterSymbol
  split
  · split <;> dsimp only <;> omega
  · dsimp only
    omega
  · dsimp only
    omega
  · rename_i hk
    have := (afterQuestion_bounds t).1
    have := hone (by simp [hk])
    omega
  · rename_i hk
    have := hone (by simp [hk])
    split <;> dsimp only <;> omega
  · rename_i hk
    have := hone (by simp [hk])
    split <;> dsimp only <;> omega
  · split
    · rename_i hdot
      have := (afterDot_bounds t).1
      have := hone (by simp [hdot])
      omega
    · dsimp only
      omega

theorem head?_append_of_pos {p : Char → Bool} {w r : Text} (h : (w ++ r).head?.any p)
    (hw : 0 < w.length) (r' : Text) : (w ++ r').head?.any p = true := by
  obtain ⟨c, u, rfl⟩ := List.exists_cons_of_length_pos hw
  exact h

theorem nameLength_pos_of_head {t : Text} (h : t.head?.any isNameStart) : 0 < nameLength t := by
  obtain ⟨c, u, rfl⟩ : ∃ c u, t = c :: u := List.exists_cons_of_ne_nil (by rintro rfl; simp at h)
  exact nameLength_pos (by simpa using h) u

theorem runLength_pos_of_head {t : Text} (h : t.head?.any isNameStart) :
    0 < runLength isNameChar t := by
  obtain ⟨c, u, rfl⟩ : ∃ c u, t = c :: u := List.exists_cons_of_ne_nil (by rintro rfl; simp at h)
  rw [runLength_cons_of_pos (isNameChar_of_isNameStart (by simpa using h))]
  omega

/-- After a symbol the same token goes on in two texts that agree. A heredoc that is none needs a
look at a quote. -/
theorem afterSymbol_append {e : Text × TokenKind} (he : e ∈ symbols) (w : Text) {r r' : Text}
    (h : Agree gaps r r') {kind : TokenKind} (hq : kind = .error → SameQuoted r r')
    (hw : afterSymbol e.1 e.2 (w ++ r) = (kind, e.1.length + w.length)) :
    afterSymbol e.1 e.2 (w ++ r') = (kind, e.1.length + w.length) := by
  obtain ⟨-, hone⟩ := symbols_length e he
  unfold afterSymbol at hw ⊢
  split at hw
  · cases hlen : heredocLength? (w ++ r) with
    | some n =>
      rw [hlen] at hw
      simp only [Prod.mk.injEq, Nat.add_left_cancel_iff] at hw
      rw [heredocLength?_append w h hlen (by omega)]
      simpa using hw
    | none =>
      rw [hlen] at hw
      simp only [Prod.mk.injEq] at hw
      obtain rfl : w = [] := List.eq_nil_of_length_eq_zero (by omega)
      rw [List.nil_append] at hlen ⊢
      rw [heredocLength?_eq_none (hq hw.1.symm) hlen]
      simpa using hw
  · simp only [Prod.mk.injEq, Nat.add_left_cancel_iff] at hw
    rw [local_lineCommentLength w h (by omega), hw.2, hw.1]
  · simp only [Prod.mk.injEq, Nat.add_left_cancel_iff] at hw
    have htake (s : Text) : (e.1 ++ (w ++ s)).take (e.1.length + w.length) = e.1 ++ w := by
      rw [← List.append_assoc, List.take_left' (by simp)]
    obtain ⟨hkind, hlen⟩ := hw
    rw [hlen, htake] at hkind
    dsimp only
    rw [local_blockCommentLength w h (by omega), hlen, htake, hkind]
  · rw [(h.append w).afterQuestion, hw]
  · rename_i hk
    rw [hone (by simp [hk])] at hw ⊢
    cases hd : (w ++ r).head?.any isNameStart with
    | true =>
      rw [hd, if_pos rfl] at hw
      simp only [Prod.mk.injEq, Nat.add_left_cancel_iff] at hw
      rw [head?_append_of_pos hd (by
        have := nameLength_pos_of_head hd
        omega), if_pos rfl,
        local_nameLength w h (by omega), hw.2, hw.1]
    | false =>
      rw [hd, if_neg Bool.false_ne_true] at hw
      rw [(h.append w).head_eq_false (by decide) hd, if_neg Bool.false_ne_true, hw]
  · rename_i hk
    rw [hone (by simp [hk])] at hw ⊢
    cases hd : (w ++ r).head?.any isNameStart with
    | true =>
      rw [hd, if_pos rfl] at hw
      simp only [Prod.mk.injEq, Nat.add_left_cancel_iff] at hw
      rw [head?_append_of_pos hd (by
        have := runLength_pos_of_head hd
        omega), if_pos rfl,
        local_runLength not_isNameChar_backslash w h (by omega), hw.2, hw.1]
    | false =>
      rw [hd, if_neg Bool.false_ne_true] at hw
      rw [(h.append w).head_eq_false (by decide) hd, if_neg Bool.false_ne_true, hw]
  · split
    · rename_i hdot
      rw [if_pos hdot] at hw
      have hlen : e.1.length = 1 := hone (by simp [hdot])
      rw [afterDot_append w h (by rw [hw, hlen]), hw]
    · rename_i hdot
      rw [if_neg hdot] at hw
      exact hw

/-- A token of code is the same token before all texts that agree with what follows it. -/
theorem scanCode_append {last : Option TokenKind} {w r r' : Text} (hne : w ≠ []) (h : Agree gaps r r')
    {kind : TokenKind} (hq : kind = .error → SameQuoted r r') (hw : scanCode last (w ++ r) = (kind, w.length)) :
    scanCode last (w ++ r') = (kind, w.length) := by
  obtain ⟨c, v, rfl⟩ := List.exists_cons_of_ne_nil hne
  rw [List.cons_append, List.length_cons, scanCode] at hw
  rw [List.cons_append, List.length_cons, scanCode]
  by_cases hspace : isSpace c
  · rw [if_pos hspace] at hw ⊢
    simp only [Prod.mk.injEq] at hw
    rw [local_runLength (by decide) v h (by omega), hw.1, hw.2]
  rw [if_neg hspace] at hw ⊢
  by_cases hname : isNameStart c
  · rw [if_pos hname] at hw ⊢
    simp only [Prod.mk.injEq] at hw
    obtain ⟨hkind, hlen⟩ := hw
    have hsame := local_nameLength (c :: v) h (by rw [List.cons_append, List.length_cons]; omega)
    have htake (s : Text) : (c :: (v ++ s)).take (v.length + 1) = c :: v := by
      rw [List.take_succ_cons, List.take_left]
    rw [List.cons_append, List.cons_append, hlen] at hsame
    rw [hlen, htake] at hkind
    dsimp only
    rw [hsame, htake, hkind]
  rw [if_neg hname] at hw ⊢
  by_cases hdigit : c.isDigit
  · rw [if_pos hdigit] at hw ⊢
    simp only [Prod.mk.injEq] at hw
    rw [numberLength_append c v h (by omega), hw.1, hw.2]
  rw [if_neg hdigit] at hw ⊢
  by_cases hquote : c = '\x27' ∨ c = '\x22' ∨ c = '\x60'
  · rw [if_pos hquote] at hw ⊢
    cases hlen : quotedLength? c (v ++ r) with
    | some n =>
      rw [hlen] at hw
      simp only [Prod.mk.injEq] at hw
      rw [quotedLength?_append v hlen (by omega)]
      simpa using hw
    | none =>
      rw [hlen] at hw
      simp only [Prod.mk.injEq] at hw
      rw [h.eq_of_unclosed (w := v) (by omega), hlen]
      simpa using hw
  rw [if_neg hquote] at hw ⊢
  rw [find?_symbols c (h.append v)]
  cases hfind : symbols.find? fun e => Text.startsWith (c :: (v ++ r)) e.1 with
  | none =>
    rw [hfind] at hw
    exact hw
  | some e =>
    rw [hfind] at hw
    have he := List.mem_of_find?_eq_some hfind
    have hstart : e.1 <+: c :: v ++ r := by simpa [Text.startsWith] using List.find?_some hfind
    have hlen := length_le_afterSymbol he ((c :: (v ++ r)).drop e.1.length)
    dsimp only at hw ⊢
    rw [hw] at hlen
    obtain ⟨u, hu⟩ := List.prefix_of_prefix_length_le hstart (List.prefix_append _ r) hlen
    have hdrop (s : Text) : (c :: (v ++ s)).drop e.1.length = u ++ s := by
      rw [← List.cons_append, ← hu, List.append_assoc, List.drop_left]
    have hsum : v.length + 1 = e.1.length + u.length := by
      rw [← List.length_cons, ← hu, List.length_append]
    rw [hdrop, hsum] at hw
    rw [hdrop, hsum]
    exact afterSymbol_append he u h hq hw

end Lexer
end NamespaceMigration
