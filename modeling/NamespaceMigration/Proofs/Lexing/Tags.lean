import NamespaceMigration.Proofs.Lexing.Symbols

/-! What the scanner of text outside code reads beyond a token. An opening tag looks at the line feed
that may follow it, and text looks no further than the bracket of the next tag. -/
namespace NamespaceMigration
namespace Lexer

variable {gaps : Prop}

/-- The length of the blank that an opening tag takes with it. -/
def tagBlank? : Text → Option Nat
  | [] => none
  | c :: t => if c = '\r' ∧ t.head? = some '\n' then some 2 else if isSpace c then some 1 else none

/-- Whether a text starts with the long tag. -/
def isLongTag (t : Text) : Bool := Text.eqIgnoreCase (t.take 5) "<?php"

theorem openTagLength?_eq (t : Text) :
    openTagLength? t =
      if Text.startsWith t "<?=" then some 3
      else if Text.startsWith t "<?" then
        if isLongTag t then
          if t.drop 5 = [] then some 5 else (tagBlank? (t.drop 5)).map (5 + ·)
        else (tagBlank? (t.drop 2)).map (2 + ·)
      else none := by
  have hcr {c : Char} {v : Text} (h : ∀ u, c = '\r' → v = '\n' :: u → False) :
      tagBlank? (c :: v) = if isSpace c then some 1 else none := by
    refine if_neg ?_
    rintro ⟨rfl, hv⟩
    obtain ⟨u, rfl⟩ := List.head?_eq_some_iff.mp hv
    exact h u rfl rfl
  have hlong : Text.eqIgnoreCase (t.take 5) "<?php" = isLongTag t := rfl
  unfold openTagLength?
  simp only [hlong]
  cases Text.startsWith t "<?=" with
  | true => rfl
  | false =>
    cases Text.startsWith t "<?" with
    | false => rfl
    | true =>
      cases isLongTag t with
      | true =>
        simp only [if_true, Bool.false_eq_true, if_false, Bool.not_true]
        split
        · rename_i u hu
          rw [hu]
          rfl
        · rename_i c v h hu
          rw [hu, if_neg (List.cons_ne_nil c v), hcr h]
          split <;> rfl
        · rename_i hu
          rw [hu, if_pos rfl]
      | false =>
        simp only [if_true, Bool.false_eq_true, if_false, Bool.not_true]
        split
        · rename_i u hu
          rw [hu]
          rfl
        · rename_i c v h hu
          rw [hu, hcr h]
          split <;> rfl
        · rename_i hu
          rw [hu]
          rfl

theorem tagBlank?_le {t : Text} {n : Nat} (h : tagBlank? t = some n) :
    (n = 1 ∨ n = 2) ∧ t.head?.any isSpace := by
  cases t with
  | nil => cases h
  | cons c t =>
    rw [tagBlank?] at h
    split_ifs at h with h1 h2
    · obtain ⟨rfl, -⟩ := h1
      exact ⟨Or.inr (Option.some.inj h).symm, rfl⟩
    · exact ⟨Or.inl (Option.some.inj h).symm, h2⟩

theorem tagBlank?_append (w : Text) {r r' : Text} (h : Agree gaps r r')
    (hw : tagBlank? (w ++ r) = some w.length) : tagBlank? (w ++ r') = some w.length := by
  match w with
  | [] => simpa using (tagBlank?_le hw).1
  | [c] =>
    rw [List.singleton_append, tagBlank?] at hw
    rw [List.singleton_append, tagBlank?]
    split_ifs at hw with h1 h2
    · simp at hw
    · rw [if_neg, if_pos h2, List.length_singleton]
      rintro ⟨hc, hr'⟩
      have hr : r.head?.any (· == '\n') = false := by
        rw [Option.any_eq_false]
        intro d hd
        rw [beq_eq_false_iff_ne]
        rintro rfl
        exact h1 ⟨hc, hd⟩
      have := h.head_eq_false (p := (· == '\n')) (by decide) hr
      simp [hr'] at this
  | c :: d :: w => exact hw

theorem startsWith_append {p w : Text} (h : p.length ≤ w.length) (r : Text) :
    Text.startsWith (w ++ r) p = Text.startsWith w p := by
  rw [Text.startsWith, Text.startsWith, Bool.eq_iff_iff, List.isPrefixOf_iff_prefix,
    List.isPrefixOf_iff_prefix]
  exact ⟨fun hp => List.prefix_of_prefix_length_le hp (List.prefix_append w r) h,
    fun hp => hp.trans (List.prefix_append w r)⟩

theorem isLongTag_append {w : Text} (h : 5 ≤ w.length) (r : Text) :
    isLongTag (w ++ r) = isLongTag w := by
  rw [isLongTag, isLongTag, List.take_append_of_le_length h]

theorem isLongTag_of_space {t : Text} (h : (t.drop 2).head?.any isSpace) : isLongTag t = false := by
  match t with
  | [] | [_] | [_, _] => simp at h
  | a :: b :: c :: t =>
    have hc : isSpace c := h
    have hp : c.toLower ≠ 'p' := by
      rcases (by simpa [isSpace] using hc : ((c = ' ' ∨ c = '\t') ∨ c = '\r') ∨ c = '\n') with
        ((rfl | rfl) | rfl) | rfl <;> decide
    rw [isLongTag, Text.eqIgnoreCase, beq_eq_false_iff_ne]
    intro heq
    exact hp (List.cons.inj (List.cons.inj (List.cons.inj heq).2).2).1

theorem three_le_openTagLength {t : Text} {n : Nat} (h : openTagLength? t = some n) : 3 ≤ n := by
  have hblank {k : Nat} {u : Text} (hk : 2 ≤ k) (hu : (tagBlank? u).map (k + ·) = some n) : 3 ≤ n := by
    obtain ⟨m, hm, rfl⟩ := Option.map_eq_some_iff.mp hu
    have := (tagBlank?_le hm).1
    omega
  rw [openTagLength?_eq] at h
  split_ifs at h
  · cases h
    omega
  · cases h
    omega
  · exact hblank (by omega) h
  · exact hblank (by omega) h

/-- An opening tag is one before all texts that agree with what follows it. -/
theorem openTagLength?_append {w r r' : Text} (h : Agree gaps r r')
    (hw : openTagLength? (w ++ r) = some w.length) : openTagLength? (w ++ r') = some w.length := by
  have hthree := three_le_openTagLength hw
  have hstart {p : Text} (hp : p.length ≤ 3) (s : Text) : Text.startsWith (w ++ s) p =
      Text.startsWith w p := startsWith_append (by omega) s
  have hblank {k : Nat} (hk : k ≤ w.length)
      (hu : (tagBlank? ((w ++ r).drop k)).map (k + ·) = some w.length) :
      tagBlank? ((w ++ r').drop k) = some (w.drop k).length := by
    obtain ⟨m, hm, hlen⟩ := Option.map_eq_some_iff.mp hu
    have hdrop : (w.drop k).length = w.length - k := List.length_drop
    rw [List.drop_append_of_le_length hk] at hm
    rw [List.drop_append_of_le_length hk]
    exact tagBlank?_append _ h (by rw [hm, hdrop, Option.some.injEq]; omega)
  rw [openTagLength?_eq, hstart (by decide), hstart (by decide)] at hw
  rw [openTagLength?_eq, hstart (by decide), hstart (by decide)]
  cases hecho : Text.startsWith w "<?=" with
  | true =>
    rw [hecho, if_pos rfl] at hw
    rwa [if_pos rfl]
  | false =>
    rw [hecho, if_neg Bool.false_ne_true] at hw
    rw [if_neg Bool.false_ne_true]
    cases htag : Text.startsWith w "<?" with
    | false =>
      rw [htag, if_neg Bool.false_ne_true] at hw
      cases hw
    | true =>
      rw [htag, if_pos rfl] at hw
      rw [if_pos rfl]
      cases hl : isLongTag (w ++ r) with
      | true =>
        rw [hl, if_pos rfl] at hw
        have hfive : 5 ≤ w.length := by
          split at hw
          · simp only [Option.some.injEq] at hw
            omega
          · obtain ⟨m, hm, hlen⟩ := Option.map_eq_some_iff.mp hw
            omega
        rw [isLongTag_append hfive] at hl
        rw [isLongTag_append hfive, hl, if_pos rfl]
        by_cases hnil : (w ++ r).drop 5 = []
        · rw [if_pos hnil] at hw
          rw [List.drop_append_of_le_length hfive, List.append_eq_nil_iff] at hnil
          obtain ⟨hnil, rfl⟩ := hnil
          rw [h.eq_nil, List.append_nil, if_pos hnil, hw]
        · rw [if_neg hnil] at hw
          have hb := hblank hfive hw
          rw [if_neg (by rintro hnil; simp [hnil, tagBlank?] at hb), hb, Option.map_some,
            List.length_drop]
          congr 1
          omega
      | false =>
        rw [hl, if_neg Bool.false_ne_true] at hw
        have hb := hblank (by omega) hw
        rw [isLongTag_of_space (tagBlank?_le hb).2, if_neg Bool.false_ne_true, hb, Option.map_some,
          List.length_drop]
        congr 1
        omega

theorem startsWith_bracket {p v : Text} (hp : '<' ∉ p.tail) (hv : v ≠ []) (x : Text) :
    Text.startsWith (v ++ '<' :: x) p = Text.startsWith v p := by
  rw [Text.startsWith, Text.startsWith, Bool.eq_iff_iff, List.isPrefixOf_iff_prefix,
    List.isPrefixOf_iff_prefix]
  refine ⟨fun h => ?_, fun h => h.trans (List.prefix_append v _)⟩
  rcases Nat.le_total p.length v.length with hle | hle
  · exact List.prefix_of_prefix_length_le h (List.prefix_append v _) hle
  · obtain ⟨u, rfl⟩ := List.prefix_of_prefix_length_le (List.prefix_append v _) h hle
    rw [List.prefix_append_right_inj] at h
    cases u with
    | nil => simp
    | cons c u =>
      obtain rfl := (List.cons_prefix_cons.mp h).1
      rw [List.tail_append_of_ne_nil hv] at hp
      simp at hp

theorem length_of_isLongTag {t : Text} (h : isLongTag t) : 5 ≤ t.length := by
  have hlen := congrArg List.length (beq_iff_eq.mp h)
  simp only [Text.toLowerAscii, List.length_map, List.length_take] at hlen
  have : ("<?php" : Text).length = 5 := rfl
  omega

theorem isLongTag_bracket {v : Text} (hv : v ≠ []) (x : Text) :
    isLongTag (v ++ '<' :: x) = isLongTag v := by
  rcases Nat.lt_or_ge v.length 5 with hlt | hge
  · have hshort : isLongTag v = false := by
      rw [Bool.eq_false_iff]
      intro h
      have := length_of_isLongTag h
      omega
    rw [hshort, isLongTag, Text.eqIgnoreCase, beq_eq_false_iff_ne]
    intro heq
    -- The bracket would stand inside the tag.
    obtain ⟨n, hn⟩ := Nat.exists_eq_add_of_lt hlt
    obtain ⟨a, u, rfl⟩ := List.exists_cons_of_ne_nil hv
    have hmem : '<' ∈ (Text.toLowerAscii ((a :: u ++ '<' :: x).take 5)).tail := by
      rw [hn, Nat.add_assoc, List.take_length_add_append, List.take_succ_cons, Text.toLowerAscii]
      simp only [List.cons_append, List.map_cons, List.tail_cons, List.map_append, List.mem_append,
        List.mem_cons]
      exact Or.inr (Or.inl rfl)
    rw [heq] at hmem
    exact absurd hmem (by decide)
  · exact isLongTag_append hge _

theorem tagBlank?_isSome (t : Text) : (tagBlank? t).isSome = t.head?.any isSpace := by
  cases t with
  | nil => rfl
  | cons c t =>
    rw [tagBlank?]
    split_ifs with h1 h2
    · rw [h1.1]
      rfl
    · exact h2.symm
    · simpa using h2

/-- Whether a tag starts in text does not depend on what comes after the bracket of the next tag. -/
theorem openTagLength?_bracket {v : Text} (hv : v ≠ []) (x y : Text) :
    (openTagLength? (v ++ '<' :: x)).isSome = (openTagLength? (v ++ '<' :: y)).isSome := by
  have hblank {k : Nat} (hk : k ≤ v.length) :
      (tagBlank? ((v ++ '<' :: x).drop k)).isSome = (tagBlank? ((v ++ '<' :: y).drop k)).isSome := by
    rw [tagBlank?_isSome, tagBlank?_isSome, List.drop_append_of_le_length hk,
      List.drop_append_of_le_length hk]
    cases v.drop k <;> rfl
  have hne {k : Nat} (hk : k ≤ v.length) (z : Text) : (v ++ '<' :: z).drop k ≠ [] := by
    rw [List.drop_append_of_le_length hk]
    simp
  rw [openTagLength?_eq, openTagLength?_eq, startsWith_bracket (by decide) hv,
    startsWith_bracket (by decide) hv, startsWith_bracket (by decide) hv,
    startsWith_bracket (by decide) hv, isLongTag_bracket hv, isLongTag_bracket hv]
  cases Text.startsWith v "<?=" with
  | true => rfl
  | false =>
    cases htag : Text.startsWith v "<?" with
    | false => rfl
    | true =>
      have htwo : 2 ≤ v.length := (List.isPrefixOf_iff_prefix.mp htag).length_le
      cases hl : isLongTag v with
      | true =>
        have hfive := length_of_isLongTag hl
        simp only [Bool.false_eq_true, if_false, if_true, hne hfive, Option.isSome_map, hblank hfive]
      | false => simp only [Bool.false_eq_true, if_false, if_true, Option.isSome_map, hblank htwo]

theorem htmlLength_bracket {v x y : Text} (h : htmlLength (v ++ '<' :: x) = v.length)
    (hy : (openTagLength? ('<' :: y)).isSome) : htmlLength (v ++ '<' :: y) = v.length := by
  induction v with
  | nil => rw [List.nil_append, htmlLength, if_pos hy, List.length_nil]
  | cons c v ih =>
    rw [List.cons_append, htmlLength, List.length_cons] at h
    rw [List.cons_append, htmlLength, List.length_cons, ← List.cons_append,
      openTagLength?_bracket (List.cons_ne_nil c v) y x, List.cons_append]
    split_ifs at h ⊢ with htag
    rw [ih (by omega)]
    omega

theorem htmlLength_stop {w r : Text} (h : htmlLength (w ++ r) = w.length) :
    r = [] ∨ (openTagLength? r).isSome := by
  induction w with
  | nil =>
    cases r with
    | nil => exact Or.inl rfl
    | cons c r =>
      rw [List.nil_append, htmlLength, List.length_nil] at h
      split_ifs at h with htag
      · exact Or.inr htag
      · omega
  | cons c w ih =>
    rw [List.cons_append, htmlLength, List.length_cons] at h
    split_ifs at h
    exact ih (by omega)

theorem exists_bracket {t : Text} (h : (openTagLength? t).isSome) : ∃ x, t = '<' :: x := by
  have htag : Text.startsWith t "<?" := by
    by_contra htag
    rw [openTagLength?_eq, if_neg htag] at h
    split at h
    · rename_i hecho
      have hpre : ("<?" : Text) <+: t :=
        (show ("<?" : Text) <+: "<?=" by decide).trans (List.isPrefixOf_iff_prefix.mp hecho)
      exact htag (List.isPrefixOf_iff_prefix.mpr hpre)
    · cases h
  obtain ⟨u, rfl⟩ := List.isPrefixOf_iff_prefix.mp htag
  exact ⟨'?' :: u, rfl⟩

/-- A token of text is the same token before all texts that agree with what follows it, if a tag
follows it in both or in neither. -/
theorem scanHtml_append {w r r' : Text} (hne : w ≠ []) (h : Agree gaps r r') {kind : TokenKind}
    (htag : kind = .inlineHtml → (openTagLength? r).isSome → (openTagLength? r').isSome)
    (hw : scanHtml (w ++ r) = (kind, w.length)) : scanHtml (w ++ r') = (kind, w.length) := by
  unfold scanHtml at hw ⊢
  cases ho : openTagLength? (w ++ r) with
  | some n =>
    rw [ho] at hw
    obtain ⟨hkind, rfl⟩ := Prod.mk.inj hw
    have hthree := three_le_openTagLength ho
    rw [startsWith_append (show ("<?=" : Text).length ≤ w.length from hthree)] at hkind
    rw [openTagLength?_append h ho]
    dsimp only
    rw [startsWith_append (show ("<?=" : Text).length ≤ w.length from hthree), hkind]
  | none =>
    rw [ho] at hw
    obtain ⟨hkind, hlen⟩ := Prod.mk.inj hw
    have htag := htag hkind.symm
    rcases htmlLength_stop hlen with rfl | hr
    · rw [h.eq_nil, ho]
      exact hw
    · obtain ⟨y, rfl⟩ := exists_bracket (htag hr)
      obtain ⟨x, rfl⟩ := exists_bracket hr
      have hsome := openTagLength?_bracket hne y x
      rw [ho, Option.isSome_none, Option.isSome_eq_false_iff, Option.isNone_iff_eq_none] at hsome
      rw [hsome]
      dsimp only
      rw [htmlLength_bracket hlen (htag hr), hkind]

end Lexer
end NamespaceMigration
