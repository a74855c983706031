import Mathlib.Data.List.Basic
import NamespaceMigration.Token.Lexer

/-! Every scanner takes at least one character of a text, and no more than there are. -/
namespace NamespaceMigration
namespace Lexer

theorem runLength_le (p : Char → Bool) (t : Text) : runLength p t ≤ t.length :=
  (List.takeWhile_prefix p).length_le

theorem runLength_cons_of_pos {p : Char → Bool} {c : Char} (h : p c) (t : Text) :
    runLength p (c :: t) = 1 + runLength p t := by
  simp [runLength, h, Nat.add_comm]

theorem runLength_cons_of_neg {p : Char → Bool} {c : Char} (h : p c = false) (t : Text) :
    runLength p (c :: t) = 0 := by
  simp [runLength, h]

theorem nameLength_le (t : Text) : nameLength t ≤ t.length := by
  fun_induction nameLength t with grind

theorem nameLength_pos {c : Char} (h : isNameStart c) (t : Text) : 0 < nameLength (c :: t) := by
  simp only [nameLength, isNameChar, h, Bool.true_or, if_true]
  omega

theorem exponentLength_le (t : Text) : exponentLength t ≤ t.length := by
  cases t with
  | nil => simp [exponentLength]
  | cons e t =>
    simp only [exponentLength]
    split
    · split
      · omega
      · rename_i hne
        have hrun := runLength_le isDigitOrBar
          (t.drop (if t.head?.any (fun c => c == '+' || c == '-') then 1 else 0))
        rw [List.length_drop] at hrun
        have hpos := Nat.pos_of_ne_zero hne
        simp only [List.length_cons]
        omega
    · omega

theorem decimalLength_le (t : Text) : decimalLength t ≤ t.length := by
  simp only [decimalLength]
  have hw := runLength_le isDigitOrBar t
  split
  · rename_i u hu
    have hlen : u.length + 1 = t.length - runLength isDigitOrBar t := by
      rw [← List.length_drop, hu, List.length_cons]
    have hf := runLength_le isDigitOrBar u
    have he := exponentLength_le (u.drop (runLength isDigitOrBar u))
    rw [List.length_drop] at he
    omega
  · rename_i u hu
    have he := exponentLength_le (t.drop (runLength isDigitOrBar t))
    rw [List.length_drop] at he
    omega

theorem decimalLength_pos {c : Char} (h : c.isDigit) (t : Text) : 0 < decimalLength (c :: t) := by
  have : runLength isDigitOrBar (c :: t) = 1 + runLength isDigitOrBar t :=
    runLength_cons_of_pos (by simp [isDigitOrBar, h]) t
  simp only [decimalLength]
  split <;> omega

theorem numberLength_le (t : Text) : numberLength t ≤ t.length := by
  unfold numberLength
  split
  · rename_i c u
    have hx := runLength_le isHexOrBar u
    have hb := runLength_le isBitOrBar u
    have hd := decimalLength_le ('0' :: c :: u)
    simp only [List.length_cons] at *
    split_ifs <;> omega
  · exact decimalLength_le t

theorem numberLength_pos {c : Char} (h : c.isDigit) (t : Text) : 0 < numberLength (c :: t) := by
  unfold numberLength
  split
  · split_ifs
    · omega
    · omega
    · exact decimalLength_pos (by decide) _
  · exact decimalLength_pos h t

theorem quotedLength?_le {quote : Char} {t : Text} {n : Nat} (h : quotedLength? quote t = some n) :
    n ≤ t.length := by
  fun_induction quotedLength? quote t generalizing n with
    simp only [reduceCtorEq, Option.some.injEq, Option.map_eq_some_iff] at h
  | case2 => simp [← h]
  | case4 head u hq ih =>
    obtain ⟨m, hm, rfl⟩ := h
    have := ih hm
    simp only [List.length_cons]
    omega
  | case5 c t hq hc ih =>
    obtain ⟨m, hm, rfl⟩ := h
    have := ih hm
    simp only [List.length_cons]
    omega

theorem unclosedLength_le (t : Text) : unclosedLength t ≤ t.length := by
  fun_induction unclosedLength t with grind

theorem heredocEnd?_le {label t : Text} {n : Nat} (h : heredocEnd? label t = some n) :
    n ≤ t.length := by
  simp only [heredocEnd?] at h
  split at h
  · rename_i after hd
    have hlen := congrArg List.length (Text.dropLead?_eq_some_iff.mp hd)
    rw [List.length_drop, List.length_append] at hlen
    have hrun := runLength_le (fun c => c == ' ' || c == '\t') t
    split at h
    · simp at h
    · simp only [Option.some.injEq] at h
      omega
  · simp at h

theorem heredocBodyLength_le (label : Text) (lineStart : Bool) (t : Text) :
    heredocBodyLength label lineStart t ≤ t.length := by
  induction t generalizing lineStart with
  | nil => simp [heredocBodyLength]
  | cons c t ih =>
    simp only [heredocBodyLength]
    split
    · rename_i n hn
      split at hn
      · exact heredocEnd?_le hn
      · cases hn
    · have := ih (c == '\n')
      simp only [List.length_cons]
      omega

/-- The blanks before the label of a heredoc. -/
def heredocIndent (t : Text) : Nat := runLength (fun c => c == ' ' || c == '\t') t

/-- The length of a quote before the label of a heredoc. -/
def heredocQuote (t : Text) : Nat :=
  if (t.drop (heredocIndent t)).head?.any (fun c => c == '\x27' || c == '\x22') then 1 else 0

/-- The label of a heredoc, perhaps empty. -/
def heredocLabel (t : Text) : Text :=
  ((t.drop (heredocIndent t)).drop (heredocQuote t)).takeWhile isNameChar

/-- The length of what comes before the body of a heredoc. -/
def heredocHead (t : Text) : Nat :=
  heredocIndent t + heredocQuote t + (heredocLabel t).length + heredocQuote t

theorem heredocLength?_eq (t : Text) :
    heredocLength? t =
      if (heredocLabel t).isEmpty ∨ '\n' ∉ t.drop (heredocHead t) then none
      else some (heredocHead t +
        heredocBodyLength (heredocLabel t) false (t.drop (heredocHead t))) := rfl

theorem heredocLength?_le {t : Text} {n : Nat} (h : heredocLength? t = some n) : n ≤ t.length := by
  rw [heredocLength?_eq] at h
  split at h
  · simp at h
  · rename_i hbody
    simp only [not_or, Decidable.not_not] at hbody
    have hpos := List.length_pos_of_mem hbody.2
    have hle := heredocBodyLength_le (heredocLabel t) false (t.drop (heredocHead t))
    rw [List.length_drop] at hpos hle
    simp only [Option.some.injEq] at h
    omega

theorem lineCommentLength_le (t : Text) : lineCommentLength t ≤ t.length := by
  fun_induction lineCommentLength t with grind

theorem blockCommentLength_le (t : Text) : blockCommentLength t ≤ t.length := by
  simp only [blockCommentLength]
  split
  · rename_i before after h
    have hlen := congrArg List.length (Text.splitFirst?_append h)
    simp only [List.length_append] at hlen
    have : ("*/" : Text).length = 2 := rfl
    omega
  · exact Nat.le_refl _

theorem afterQuestion_bounds (t : Text) :
    0 < (afterQuestion t).2 ∧ (afterQuestion t).2 ≤ 1 + t.length := by
  unfold afterQuestion
  split <;> simp only [List.length_cons] <;> omega

theorem afterDot_bounds (t : Text) : 0 < (afterDot t).2 ∧ (afterDot t).2 ≤ 1 + t.length := by
  unfold afterDot
  split
  · simp only [List.length_cons]; omega
  · simp only [List.length_cons]; omega
  · rename_i c t _ _
    split
    · have hrun := runLength_le isDigitOrBar t
      have he := exponentLength_le ((c :: t).drop (1 + runLength isDigitOrBar t))
      simp only [List.length_drop, List.length_cons] at he ⊢
      omega
    · simp only [List.length_cons]; omega
  · simp

theorem symbols_length : ∀ e ∈ symbols, 0 < e.1.length ∧
    (e.2 = .question ∨ e.2 = .backslash ∨ e.2 = .dollar ∨ e.1 = "." → e.1.length = 1) := by
  decide

theorem afterSymbol_bounds {e : Text × TokenKind} (he : e ∈ symbols) (t : Text) :
    0 < (afterSymbol e.1 e.2 t).2 ∧ (afterSymbol e.1 e.2 t).2 ≤ e.1.length + t.length := by
  obtain ⟨hpos, hone⟩ := symbols_length e he
  unfold afterSymbol
  split
  · split
    · rename_i n hn
      have := heredocLength?_le hn
      dsimp only
      omega
    · dsimp only
      omega
  · have := lineCommentLength_le t
    dsimp only
    omega
  · have := blockCommentLength_le t
    dsimp only
    omega
  · rename_i hk
    have := afterQuestion_bounds t
    have := hone (by simp [hk])
    omega
  · rename_i hk
    have := nameLength_le t
    have := hone (by simp [hk])
    split <;> dsimp only <;> omega
  · rename_i hk
    have := runLength_le isNameChar t
    have := hone (by simp [hk])
    split <;> dsimp only <;> omega
  · split
    · rename_i hdot
      have := afterDot_bounds t
      have := hone (by simp [hdot])
      omega
    · dsimp only
      omega

theorem scanCode_bounds (last : Option TokenKind) {t : Text} (ht : t ≠ []) :
    0 < (scanCode last t).2 ∧ (scanCode last t).2 ≤ t.length := by
  obtain ⟨c, t, rfl⟩ := List.exists_cons_of_ne_nil ht
  rw [scanCode]
  split_ifs with hspace hname hdigit hquote
  · have := runLength_le isSpace t
    simp only [List.length_cons]
    omega
  · exact ⟨nameLength_pos hname t, nameLength_le _⟩
  · exact ⟨numberLength_pos hdigit t, numberLength_le _⟩
  · split
    · rename_i n hn
      have := quotedLength?_le hn
      simp only [List.length_cons]
      omega
    · have := unclosedLength_le t
      simp only [List.length_cons]
      omega
  · split
    · rename_i symbol kind hfind
      have he := List.mem_of_find?_eq_some hfind
      have hstart : symbol <+: c :: t := by
        simpa [Text.startsWith] using List.find?_some hfind
      have hafter := afterSymbol_bounds he ((c :: t).drop symbol.length)
      have := hstart.length_le
      rw [List.length_drop] at hafter
      dsimp only at hafter
      omega
    · simp

theorem openTagLength?_bounds {t : Text} {n : Nat} (h : openTagLength? t = some n) :
    0 < n ∧ n ≤ t.length := by
  unfold openTagLength? at h
  split_ifs at h with hecho htag
  · have hlen := (List.isPrefixOf_iff_prefix.mp hecho).length_le
    have : ("<?=" : Text).length = 3 := rfl
    cases h
    omega
  · have htag' : ("<?" : Text) <+: t := by simpa [Text.startsWith] using htag
    have hlen := htag'.length_le
    have : ("<?" : Text).length = 2 := rfl
    dsimp only at h
    generalize htl : (if Text.eqIgnoreCase (t.take 5) "<?php" = true then 5 else 2) = tag at h
    have hdrop := List.length_drop (i := tag) (l := t)
    split at h
    · rename_i hu
      rw [hu] at hdrop
      simp only [List.length_cons, Option.some.injEq] at hdrop h
      omega
    · rename_i hu
      rw [hu] at hdrop
      simp only [List.length_cons] at hdrop
      split at h
      · simp only [Option.some.injEq] at h
        omega
      · simp at h
    · split at h
      · rename_i hlong
        have hfive := congrArg List.length (beq_iff_eq.mp hlong)
        simp only [Text.toLowerAscii, List.length_map, List.length_take] at hfive
        have : ("<?php" : Text).length = 5 := rfl
        rw [if_pos hlong] at htl
        simp only [Option.some.injEq] at h
        omega
      · simp at h

theorem htmlLength_le (t : Text) : htmlLength t ≤ t.length := by
  induction t with
  | nil => simp [htmlLength]
  | cons c t ih =>
    simp only [htmlLength, List.length_cons]
    split_ifs <;> omega

theorem scanHtml_bounds {t : Text} (ht : t ≠ []) :
    0 < (scanHtml t).2 ∧ (scanHtml t).2 ≤ t.length := by
  unfold scanHtml
  split
  · rename_i n hn
    exact openTagLength?_bounds hn
  · rename_i hn
    obtain ⟨c, t, rfl⟩ := List.exists_cons_of_ne_nil ht
    refine ⟨?_, htmlLength_le _⟩
    simp only [htmlLength, hn, Option.isSome_none, Bool.false_eq_true, if_false]
    omega

theorem State.scan_bounds (s : State) {t : Text} (ht : t ≠ []) :
    0 < (s.scan t).2 ∧ (s.scan t).2 ≤ t.length := by
  unfold State.scan
  split
  · exact scanHtml_bounds ht
  · exact scanCode_bounds _ ht
  · exact ⟨List.length_pos_of_ne_nil ht, Nat.le_refl _⟩

end Lexer
end NamespaceMigration
