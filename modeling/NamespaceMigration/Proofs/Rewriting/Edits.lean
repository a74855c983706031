import Mathlib.Data.List.Basic
import NamespaceMigration.Proofs.Lexing.Pieces
import NamespaceMigration.Text.Range

/-! Edits of whole tokens. Each token is replaced by the first edit of its range, and a token without
an edit stays. -/
namespace NamespaceMigration

def Token.range (t : Token) : TextRange := ⟨t.offset, t.stop⟩

namespace Text

theorem splitAtByte_append (w t : Text) (n : Nat) :
    splitAtByte (byteSize w + n) (w ++ t) =
      (w ++ (splitAtByte n t).1, (splitAtByte n t).2) := by
  induction w with
  | nil => simp [byteSize]
  | cons c w ih =>
    have hsub : c.utf8Size + byteSize w + n - c.utf8Size = byteSize w + n := by omega
    rw [List.cons_append, byteSize, splitAtByte, if_pos (by omega), hsub, ih]
    rfl

theorem splitAtByte_zero (t : Text) : splitAtByte 0 t = ([], t) := by
  cases t with
  | nil => rfl
  | cons c t =>
    have := c.utf8Size_pos
    rw [splitAtByte, if_neg (by omega)]

theorem splitAtByte_byteSize (w t : Text) : splitAtByte (byteSize w) (w ++ t) = (w, t) := by
  have h := splitAtByte_append w t 0
  rwa [Nat.add_zero, splitAtByte_zero, List.append_nil] at h

theorem slice_append (u v w : Text) :
    slice (u ++ v ++ w) (byteSize u) (byteSize u + byteSize v) = v := by
  rw [slice, List.append_assoc, splitAtByte_byteSize, Nat.add_sub_cancel_left, splitAtByte_byteSize]

end Text

namespace TextEdit

/-- What comes in the place of a range: the text of the first edit of exactly that range. -/
def replacement? (edits : List TextEdit) (range : TextRange) : Option Text :=
  (edits.find? (·.range == range)).map (·.text)

/-- What comes before all edits stays. -/
theorem applyFrom_append {size cursor : Nat} (w left : Text) {edits : List TextEdit}
    (h : ∀ e ∈ edits, cursor + Text.byteSize w ≤ e.range.start) :
    applyFrom size cursor (w ++ left) edits =
      w ++ applyFrom size (cursor + Text.byteSize w) left edits := by
  induction edits with
  | nil => rfl
  | cons e edits ih =>
    rw [List.forall_mem_cons] at h
    obtain ⟨he, hedits⟩ := h
    rw [applyFrom, applyFrom]
    by_cases hsize : size < e.range.stop
    · rw [if_pos (Or.inr hsize), if_pos (Or.inr hsize), ih hedits]
    · have hsplit : e.range.start - cursor =
          Text.byteSize w + (e.range.start - (cursor + Text.byteSize w)) := by omega
      rw [if_neg (by omega), if_neg (by omega), hsplit, Text.splitAtByte_append]
      simp only [List.append_assoc]

theorem applyFrom_dropWhile (size cursor : Nat) (left : Text) (edits : List TextEdit) :
    applyFrom size cursor left (edits.dropWhile fun e => e.range.start < cursor) =
      applyFrom size cursor left edits := by
  induction edits with
  | nil => rfl
  | cons e edits ih =>
    by_cases h : e.range.start < cursor
    · rw [List.dropWhile_cons_of_pos (by simpa using h), ih, applyFrom, if_pos (Or.inl h)]
    · rw [List.dropWhile_cons_of_neg (by simpa using h)]

theorem find?_dropWhile {α : Type} {p q : α → Bool} {l : List α} (h : ∀ a ∈ l, p a → q a = false) :
    (l.dropWhile p).find? q = l.find? q := by
  induction l with
  | nil => rfl
  | cons a l ih =>
    rw [List.forall_mem_cons] at h
    cases hp : p a with
    | true =>
      rw [List.dropWhile_cons_of_pos hp, ih h.2,
        List.find?_cons_of_neg (by rw [h.1 hp]; exact Bool.false_ne_true)]
    | false => rw [List.dropWhile_cons_of_neg (by simpa using hp)]

theorem start_le_of_le {a b : TextEdit} (h : le a b) : a.range.start ≤ b.range.start := by
  simp only [le, Bool.or_eq_true, decide_eq_true_eq, Bool.and_eq_true, beq_iff_eq] at h
  omega

theorem le_start_of_mem_dropWhile {cursor : Nat} {edits : List TextEdit}
    (hsorted : edits.Pairwise fun a b => le a b) :
    ∀ e ∈ edits.dropWhile fun e => e.range.start < cursor, cursor ≤ e.range.start := by
  induction edits with
  | nil => simp
  | cons e edits ih =>
    rw [List.pairwise_cons] at hsorted
    by_cases h : e.range.start < cursor
    · rw [List.dropWhile_cons_of_pos (by simpa using h)]
      exact ih hsorted.2
    · rw [List.dropWhile_cons_of_neg (by simpa using h), List.forall_mem_cons]
      refine ⟨by omega, fun e' he' => ?_⟩
      have := start_le_of_le (hsorted.1 e' he')
      omega

end TextEdit

namespace Piece

theorem offset_le_of_mem_place {offset : Nat} {ps : List Piece} {token : Token}
    (h : token ∈ place offset ps) : offset ≤ token.offset := by
  induction ps generalizing offset with
  | nil => cases h
  | cons p ps ih =>
    rcases List.mem_cons.mp h with rfl | h
    · exact Nat.le_refl _
    · have := ih h
      omega

end Piece

namespace TextEdit

/-- Sorted edits of tokens replace these tokens. -/
theorem applyFrom_place {size offset : Nat} {ps : List Piece} (hne : ∀ p ∈ ps, p.2 ≠ [])
    (hsize : offset + Text.byteSize (Piece.print ps) ≤ size) {edits : List TextEdit}
    (hsorted : edits.Pairwise fun a b => le a b)
    (h : ∀ e ∈ edits, ∃ token ∈ Piece.place offset ps, e.range = token.range) :
    applyFrom size offset (Piece.print ps) edits =
      (Piece.place offset ps).flatMap fun token =>
        (replacement? edits token.range).getD token.text := by
  induction ps generalizing offset edits with
  | nil =>
    obtain rfl : edits = [] := List.eq_nil_iff_forall_not_mem.mpr fun e he => by
      obtain ⟨token, htoken, -⟩ := h e he
      cases htoken
    rfl
  | cons p ps ih =>
    rw [List.forall_mem_cons] at hne
    rw [Piece.print_cons, Text.byteSize_append] at hsize
    have hpos := List.length_pos_of_ne_nil hne.1
    have hbytes := Text.length_le_byteSize p.2
    let here : TextRange := ⟨offset, offset + Text.byteSize p.2⟩
    have hcases : ∀ e ∈ edits, e.range = here ∨
        ∃ token ∈ Piece.place (offset + Text.byteSize p.2) ps, e.range = token.range := by
      intro e he
      obtain ⟨token, htoken, hrange⟩ := h e he
      rcases List.mem_cons.mp htoken with rfl | htoken
      · exact Or.inl hrange
      · exact Or.inr ⟨token, htoken, hrange⟩
    have hafter {e : TextEdit} {token : Token} (hrange : e.range = token.range)
        (htoken : token ∈ Piece.place (offset + Text.byteSize p.2) ps) :
        offset + Text.byteSize p.2 ≤ e.range.start := by
      rw [hrange]
      exact Piece.offset_le_of_mem_place htoken
    rw [Piece.print_cons, Piece.place, List.flatMap_cons]
    change _ = (replacement? edits here).getD p.2 ++ _
    cases hfirst : edits.find? (·.range == here) with
    | none =>
      have hnone := List.find?_eq_none.mp hfirst
      have hrest : ∀ e ∈ edits, ∃ token ∈ Piece.place (offset + Text.byteSize p.2) ps,
          e.range = token.range := fun e he =>
        (hcases e he).resolve_left fun hrange => hnone e he (by simpa using hrange)
      rw [replacement?, hfirst, applyFrom_append, ih hne.2 (by omega) hsorted hrest]
      · rfl
      · intro e he
        obtain ⟨token, htoken, hrange⟩ := hrest e he
        exact hafter hrange htoken
    | some first =>
      obtain ⟨e, later, rfl⟩ : ∃ e later, edits = e :: later :=
        List.exists_cons_of_ne_nil (by rintro rfl; cases hfirst)
      rw [List.pairwise_cons] at hsorted
      -- The edit of the first token comes first.
      have he : e.range = here := by
        have hrange : first.range = here := by simpa using List.find?_some hfirst
        rcases List.mem_cons.mp (List.mem_of_find?_eq_some hfirst) with rfl | hmem
        · exact hrange
        · rcases hcases e (by simp) with he | ⟨token, htoken, hrange'⟩
          · exact he
          · have h1 := start_le_of_le (hsorted.1 first hmem)
            have h2 := hafter hrange' htoken
            rw [hrange] at h1
            change _ ≤ offset at h1
            omega
      let rest := later.dropWhile fun e => e.range.start < offset + Text.byteSize p.2
      have hrest : ∀ e ∈ rest, ∃ token ∈ Piece.place (offset + Text.byteSize p.2) ps,
          e.range = token.range := by
        intro e' he'
        have hstart := le_start_of_mem_dropWhile hsorted.2 e' he'
        refine (hcases e' (List.mem_cons_of_mem e ((List.dropWhile_sublist _).mem he'))).resolve_left ?_
        intro hrange
        rw [hrange] at hstart
        dsimp only [here] at hstart
        omega
      have hreplace : replacement? (e :: later) here = some e.text := by
        rw [replacement?, List.find?_cons_of_pos (by simpa using he)]
        rfl
      rw [applyFrom, he, if_neg (by dsimp only [here]; omega), hreplace]
      dsimp only [here]
      rw [Nat.sub_self, Text.splitAtByte_zero, Nat.add_sub_cancel_left, Text.splitAtByte_byteSize,
        ← applyFrom_dropWhile, ih hne.2 (by omega) (hsorted.2.sublist (List.dropWhile_sublist _)) hrest]
      rw [List.nil_append, Option.getD_some]
      congr 1
      refine List.flatMap_congr fun token htoken => ?_
      have hstart := Piece.offset_le_of_mem_place htoken
      have hne' : ∀ e' ∈ e :: later, (decide (e'.range.start < offset + Text.byteSize p.2)) = true →
          (e'.range == token.range) = false := by
        intro e' _ hlt
        rw [beq_eq_false_iff_ne]
        intro hrange
        rw [hrange, decide_eq_true_eq] at hlt
        change token.offset < _ at hlt
        omega
      have hsame : replacement? rest token.range = replacement? (e :: later) token.range := by
        rw [replacement?, replacement?, ← find?_dropWhile hne', List.dropWhile_cons_of_pos]
        rw [he, decide_eq_true_eq]
        dsimp only [here]
        omega
      rw [hsame]

theorem applyAll_single (u v w after : Text) :
    applyAll [⟨⟨Text.byteSize u, Text.byteSize u + Text.byteSize v⟩, w⟩] (u ++ (v ++ after)) = u ++ (w ++ after) := by
  have hsize : ¬Text.byteSize (u ++ (v ++ after)) < Text.byteSize u + Text.byteSize v := by
    rw [Text.byteSize_append, Text.byteSize_append]
    omega
  rw [applyAll, List.mergeSort_singleton, applyFrom, if_neg (by simpa using hsize)]
  simp only [Nat.sub_zero, Text.splitAtByte_byteSize, Nat.add_sub_cancel_left, applyFrom, List.append_assoc]

theorem le_trans' (a b c : TextEdit) (h1 : le a b) (h2 : le b c) : le a c := by
  simp only [le, Bool.or_eq_true, decide_eq_true_eq, Bool.and_eq_true, beq_iff_eq] at *
  omega

theorem le_total' (a b : TextEdit) : le a b || le b a := by
  simp only [le, Bool.or_eq_true, decide_eq_true_eq, Bool.and_eq_true, beq_iff_eq]
  omega

theorem filter_mergeSort (edits : List TextEdit) (range : TextRange) :
    (edits.mergeSort le).filter (·.range == range) = edits.filter (·.range == range) := by
  have hsorted : (edits.filter (·.range == range)).Pairwise fun a b => le a b := by
    refine List.pairwise_of_forall_mem_list fun a ha b hb => ?_
    have hrange : a.range = b.range := by
      rw [List.mem_filter, beq_iff_eq] at ha hb
      rw [ha.2, hb.2]
    simp [le, hrange]
  have hsub : (edits.filter (·.range == range)).Sublist
      ((edits.mergeSort le).filter (·.range == range)) := by
    have := List.sublist_mergeSort le_trans' le_total' hsorted (List.filter_sublist)
    simpa [List.filter_filter] using this.filter (·.range == range)
  exact (hsub.eq_of_length ((List.mergeSort_perm edits le).filter _).length_eq.symm).symm

theorem replacement?_mergeSort (edits : List TextEdit) (range : TextRange) :
    replacement? (edits.mergeSort le) range = replacement? edits range := by
  rw [replacement?, replacement?, ← List.head?_filter, ← List.head?_filter, filter_mergeSort]

theorem applyAll_place {t : Text} {edits : List TextEdit}
    (h : ∀ e ∈ edits, ∃ token ∈ Lexer.tokenize t, e.range = token.range) :
    applyAll edits t =
      (Lexer.tokenize t).flatMap fun token => (replacement? edits token.range).getD token.text := by
  have hsorted := List.pairwise_mergeSort le_trans' le_total' edits
  have hplace : applyFrom (Text.byteSize t) 0 (Piece.print (Lexer.pieces t)) (edits.mergeSort le) =
      (Piece.place 0 (Lexer.pieces t)).flatMap fun token =>
        (replacement? (edits.mergeSort le) token.range).getD token.text := by
    refine applyFrom_place (fun p hp => Lexer.pieces_ne_nil hp) ?_ hsorted fun e he => ?_
    · exact Nat.le_of_eq (by rw [Lexer.print_pieces, Nat.zero_add])
    · rw [← Lexer.tokenize_eq_place]
      exact h e (List.mem_mergeSort.mp he)
  rw [Lexer.print_pieces, ← Lexer.tokenize_eq_place] at hplace
  rw [applyAll, hplace]
  simp only [replacement?_mergeSort]

end TextEdit
end NamespaceMigration
