import Mathlib.Data.List.DropRight
import Mathlib.Data.List.Nodup
import NamespaceMigration.Plan.Project
import NamespaceMigration.Proofs.Bytes.Utf8

/-! Lines and columns by counting. The search among the starts of lines answers what counting the line feeds
before an offset answers, and so do the lines that are reported for bytes that are no text. -/
namespace NamespaceMigration

open Text (toUtf8)

theorem countP_eq_zero_of_ascending {a : Nat} {l : List Nat} (h : (a :: l).Pairwise (· < ·)) {p : Nat → Bool}
    (hp : ∀ b, a ≤ b → p b = false) : (a :: l).countP p = 0 := by
  rw [List.countP_eq_zero, List.forall_mem_cons]
  refine ⟨by rw [hp a (Nat.le_refl a)]; exact Bool.false_ne_true, fun b hb => ?_⟩
  rw [hp b (Nat.le_of_lt ((List.pairwise_cons.mp h).1 b hb))]
  exact Bool.false_ne_true

/-- Of ascending numbers those up to a bound come first. -/
theorem getElem_le_iff_lt_countP {l : List Nat} (h : l.Pairwise (· < ·)) (bound : Nat) {i : Nat} (hi : i < l.length) :
    l[i] ≤ bound ↔ i < l.countP (· ≤ bound) := by
  induction l generalizing i with
  | nil => cases hi
  | cons a l ih =>
    obtain ⟨ha, hl⟩ := List.pairwise_cons.mp h
    by_cases hle : a ≤ bound
    · rw [List.countP_cons_of_pos (by simpa using hle)]
      cases i with
      | zero => exact iff_of_true hle (Nat.succ_pos _)
      | succ i => exact (ih hl (Nat.lt_of_succ_lt_succ hi)).trans Nat.succ_lt_succ_iff.symm
    · have hnone : (a :: l).countP (· ≤ bound) = 0 :=
        countP_eq_zero_of_ascending h fun b hb => decide_eq_false (by omega)
      rw [hnone, iff_false_right (Nat.not_lt_zero i)]
      cases i with
      | zero => exact hle
      | succ i =>
        have hlater := ha _ (List.getElem_mem (Nat.lt_of_succ_lt_succ hi))
        rw [List.getElem_cons_succ]
        omega

namespace LineIndex

/-- The search finds a number that is there, and otherwise the place behind all smaller ones. -/
theorem searchFrom_eq {n fuel before : Nat} {left : List Nat} (h : left.Pairwise (· < ·)) (hfuel : left.length ≤ fuel) :
    searchFrom n fuel before left =
      if n ∈ left then .ok (before + left.countP (· < n)) else .error (before + left.countP (· < n)) := by
  induction fuel generalizing before left with
  | zero =>
    obtain rfl := List.eq_nil_of_length_eq_zero (Nat.le_zero.mp hfuel)
    rfl
  | succ fuel ih =>
    rw [searchFrom]
    split
    · rename_i hdrop
      obtain rfl : left = [] := by
        have hlength := List.drop_eq_nil_iff.mp hdrop
        exact List.eq_nil_of_length_eq_zero (by omega)
      rfl
    · rename_i middle after hdrop
      have hhalf : (left.take (left.length / 2)).length = left.length / 2 := List.length_take_of_le (by omega)
      have hsplit : left = left.take (left.length / 2) ++ middle :: after := by
        rw [← hdrop, List.take_append_drop]
      generalize left.take (left.length / 2) = front at hhalf hsplit
      rw [← hhalf]
      subst hsplit
      rw [List.length_append, List.length_cons] at hfuel hhalf
      obtain ⟨hfront, hback, hcross⟩ := List.pairwise_append.mp h
      obtain ⟨hmiddle, hafter⟩ := List.pairwise_cons.mp hback
      have hbefore (a : Nat) (ha : a ∈ front) : a < middle := hcross a ha middle List.mem_cons_self
      have hall (hle : middle ≤ n) : front.countP (· < n) = front.length := by
        rw [List.countP_eq_length]
        exact fun a ha => decide_eq_true (Nat.lt_of_lt_of_le (hbefore a ha) hle)
      have hnone (hle : n ≤ middle) : (middle :: after).countP (· < n) = 0 :=
        countP_eq_zero_of_ascending hback fun b hb => decide_eq_false (by omega)
      rw [List.countP_append]
      split
      · rename_i heq
        rw [if_pos (heq ▸ List.mem_append_right _ List.mem_cons_self), hall (Nat.le_of_eq heq),
          hnone (Nat.le_of_eq heq.symm), Nat.add_zero]
      · rename_i hne
        split
        · rename_i hlt
          have hmem : n ∈ front ++ middle :: after ↔ n ∈ after := by
            rw [List.mem_append, List.mem_cons, or_iff_right fun hn => (Nat.lt_asymm hlt (hbefore n hn)).elim,
              or_iff_right (Ne.symm hne)]
          rw [ih hafter (by omega), List.countP_cons_of_pos (by simpa using hlt), hall (Nat.le_of_lt hlt)]
          simp only [hmem, Nat.add_assoc, Nat.add_comm 1]
        · rename_i hlt
          have hmem : n ∈ front ++ middle :: after ↔ n ∈ front := by
            rw [List.mem_append, List.mem_cons, or_iff_left]
            rintro (rfl | hn)
            · exact hne rfl
            · exact hlt (hmiddle n hn)
          rw [ih hfront (by omega), hnone (Nat.le_of_not_lt hlt)]
          simp only [hmem, Nat.add_zero]

theorem startsAfter_append (offset : Nat) (s t : Text) :
    startsAfter offset (s ++ t) = startsAfter offset s ++ startsAfter (offset + Text.byteSize s) t := by
  induction s generalizing offset with
  | nil => rfl
  | cons c s ih =>
    have hnext : offset + c.utf8Size + Text.byteSize s = offset + Text.byteSize (c :: s) := by
      rw [Text.byteSize, Nat.add_assoc]
    rw [List.cons_append, startsAfter, startsAfter, ih, hnext]
    split <;> rfl

theorem length_startsAfter (offset : Nat) (t : Text) : (startsAfter offset t).length = t.count '\n' := by
  induction t generalizing offset with
  | nil => rfl
  | cons c t ih =>
    rw [startsAfter]
    split
    · rename_i hc
      rw [hc, List.count_cons_self, List.length_cons, ih]
    · rename_i hc
      rw [List.count_cons_of_ne hc, ih]

theorem startsAfter_bounds {offset : Nat} {t : Text} :
    ∀ start ∈ startsAfter offset t, offset < start ∧ start ≤ offset + Text.byteSize t := by
  induction t generalizing offset with
  | nil => exact List.forall_mem_nil _
  | cons c t ih =>
    have hpos := c.utf8Size_pos
    have hsize : Text.byteSize (c :: t) = c.utf8Size + Text.byteSize t := rfl
    have hrest : ∀ start ∈ startsAfter (offset + c.utf8Size) t,
        offset < start ∧ start ≤ offset + Text.byteSize (c :: t) := by
      intro start hstart
      have := ih start hstart
      omega
    rw [startsAfter]
    split
    · exact List.forall_mem_cons.mpr ⟨by omega, hrest⟩
    · exact hrest

theorem pairwise_startsAfter (offset : Nat) (t : Text) : (startsAfter offset t).Pairwise (· < ·) := by
  induction t generalizing offset with
  | nil => exact .nil
  | cons c t ih =>
    rw [startsAfter]
    split
    · exact .cons (fun start hstart => (startsAfter_bounds start hstart).1) (ih _)
    · exact ih _

theorem pairwise_starts (t : Text) : (ofSource t).starts.Pairwise (· < ·) :=
  .cons (fun start hstart => (startsAfter_bounds start hstart).1) (pairwise_startsAfter 0 t)

/-- In both cases of the search the line is the number of lines that start up to the offset. -/
theorem line_eq_countP (t : Text) (offset : Nat) : (ofSource t).line offset = (ofSource t).starts.countP (· ≤ offset) := by
  have hsplit : (ofSource t).starts.countP (· ≤ offset) =
      (ofSource t).starts.countP (· < offset) + (ofSource t).starts.count offset := by
    induction (ofSource t).starts with
    | nil => rfl
    | cons a l ih =>
      rw [List.countP_cons, List.countP_cons, List.count_cons, ih]
      rcases Nat.lt_trichotomy a offset with hlt | rfl | hlt
      · simp [Nat.le_of_lt hlt, hlt, Nat.ne_of_lt hlt, Nat.add_right_comm]
      · simp [Nat.add_assoc]
      · simp [Nat.not_le_of_lt hlt, Nat.not_lt_of_lt hlt, Nat.ne_of_gt hlt]
  rw [line, search, searchFrom_eq (pairwise_starts t) (Nat.le_refl _), hsplit, Nat.zero_add]
  by_cases hmem : offset ∈ (ofSource t).starts
  · rw [if_pos hmem, List.count_eq_one_of_mem ((pairwise_starts t).imp Nat.ne_of_lt) hmem]
  · rw [if_neg hmem, List.count_eq_zero_of_not_mem hmem]
    rfl

theorem line_append (before after : Text) :
    (ofSource (before ++ after)).line (Text.byteSize before) = before.count '\n' + 1 := by
  have hbefore : (startsAfter 0 before).countP (· ≤ Text.byteSize before) = before.count '\n' := by
    rw [← length_startsAfter 0 before, List.countP_eq_length]
    intro start hstart
    have := startsAfter_bounds start hstart
    exact decide_eq_true (by omega)
  have hafter : (startsAfter (0 + Text.byteSize before) after).countP (· ≤ Text.byteSize before) = 0 := by
    rw [List.countP_eq_zero]
    intro start hstart
    have := startsAfter_bounds start hstart
    simp only [decide_eq_true_eq]
    omega
  rw [line_eq_countP, ofSource, startsAfter_append, List.countP_cons_of_pos (by simp), List.countP_append, hbefore, hafter,
    Nat.add_zero]

end LineIndex

def lineFeed : UInt8 := 0x0A

/-- The offset of the line that an offset is on: behind the last line feed before it. -/
def Text.lineStart (t : Text) (offset : Nat) : Nat := (((toUtf8 t).take offset).rdropWhile (· != lineFeed)).length

theorem lineFeed_not_mem {c : Char} (h : c ≠ '\n') : lineFeed ∉ String.utf8EncodeChar c := by
  have hbyte {n : Nat} (hn : n < 256) (hne : n ≠ 10) : UInt8.ofNat n ≠ lineFeed := by
    intro heq
    have := congrArg UInt8.toNat heq
    rw [Text.toNat_ofNat_byte hn] at this
    exact hne this
  have hc : c.val.toNat ≠ 10 := fun hval => h (Char.toNat_inj.mp hval)
  unfold String.utf8EncodeChar
  dsimp only
  split_ifs
  all_goals
    simp only [List.mem_cons, List.not_mem_nil, or_false, not_or]
    repeat' apply And.intro
    all_goals exact Ne.symm (hbyte (by omega) (by omega))

namespace LineIndex

/-- Up to an offset as many lines start as there are line feeds before it. -/
theorem countP_startsAfter (start offset : Nat) (t : Text) :
    (startsAfter start t).countP (· ≤ offset) = ((toUtf8 t).take (offset - start)).count lineFeed := by
  induction t generalizing start with
  | nil => simp [startsAfter]
  | cons c t ih =>
    have hsub : offset - (start + c.utf8Size) = offset - start - c.utf8Size := by omega
    rw [startsAfter, Text.toUtf8_cons]
    split
    · rename_i hc
      subst hc
      have hnext : offset - (start + ('\n' : Char).utf8Size) = offset - start - 1 := hsub
      rw [List.countP_cons, ih, hnext]
      change _ = ((lineFeed :: toUtf8 t).take (offset - start)).count lineFeed
      cases hleft : offset - start with
      | zero =>
        have hle : ¬start + ('\n' : Char).utf8Size ≤ offset := by
          change ¬start + 1 ≤ offset
          omega
        rw [if_neg (by simpa using hle)]
        rfl
      | succ left =>
        have hle : start + ('\n' : Char).utf8Size ≤ offset := by
          change start + 1 ≤ offset
          omega
        rw [if_pos (by simpa using hle), List.take_succ_cons, List.count_cons_self]
        rfl
    · rename_i hc
      have hnone : ((String.utf8EncodeChar c).take (offset - start)).count lineFeed = 0 :=
        List.count_eq_zero_of_not_mem fun hmem => lineFeed_not_mem hc (List.mem_of_mem_take hmem)
      rw [ih, List.take_append, List.count_append, hnone, String.length_utf8EncodeChar, hsub, Nat.zero_add]

theorem line_eq_count (t : Text) (offset : Nat) :
    (ofSource t).line offset = ((toUtf8 t).take offset).count lineFeed + 1 := by
  rw [line_eq_countP]
  change (0 :: startsAfter 0 t).countP (· ≤ offset) = _
  rw [List.countP_cons_of_pos (by simp), countP_startsAfter, Nat.sub_zero]

theorem line_mono (t : Text) {p q : Nat} (h : p ≤ q) : (ofSource t).line p ≤ (ofSource t).line q := by
  rw [line_eq_countP, line_eq_countP]
  refine List.countP_mono_left fun start _ hle => decide_eq_true ?_
  exact Nat.le_trans (of_decide_eq_true hle) h

/-- The start of the line of an offset. It is on that line, and what is before it is not. -/
theorem exists_start (t : Text) (offset : Nat) : ∃ start,
    (ofSource t).starts[(ofSource t).line offset - 1]? = some start ∧ start ≤ offset ∧ start ≤ (toUtf8 t).length ∧
      (ofSource t).line start = (ofSource t).line offset ∧
      (0 < start → (ofSource t).line (start - 1) < (ofSource t).line start) := by
  have hpos : 0 < (ofSource t).line offset := by
    rw [line_eq_count]
    exact Nat.succ_pos _
  have hlast : (ofSource t).line offset - 1 < (ofSource t).line offset := Nat.sub_lt hpos Nat.one_pos
  have hlt : (ofSource t).line offset - 1 < (ofSource t).starts.length := by
    have := List.countP_le_length (p := (· ≤ offset)) (l := (ofSource t).starts)
    rw [← line_eq_countP] at this
    omega
  have hle (bound : Nat) : (ofSource t).starts[(ofSource t).line offset - 1] ≤ bound ↔
      (ofSource t).line offset - 1 < (ofSource t).line bound := by
    rw [line_eq_countP t bound]
    exact getElem_le_iff_lt_countP (pairwise_starts t) bound hlt
  have hmem : (ofSource t).starts[(ofSource t).line offset - 1] ∈ 0 :: startsAfter 0 t := List.getElem_mem hlt
  refine ⟨_, List.getElem?_eq_getElem hlt, ?_⟩
  generalize (ofSource t).starts[(ofSource t).line offset - 1] = start at hle hmem
  have hoffset : start ≤ offset := (hle offset).mpr hlast
  have hself := (hle start).mp (Nat.le_refl start)
  have hmono := line_mono t hoffset
  refine ⟨hoffset, ?_, by omega, fun hstart => ?_⟩
  · rw [Text.length_toUtf8]
    rcases List.mem_cons.mp hmem with rfl | hmem
    · exact Nat.zero_le _
    · have := (startsAfter_bounds start hmem).2
      omega
  · have hnot := mt (hle (start - 1)).mpr (by omega)
    omega

/-- The start of a line that is looked up is the place behind the last line feed. -/
theorem start_eq (t : Text) (offset : Nat) :
    (ofSource t).starts[(ofSource t).line offset - 1]? = some (t.lineStart offset) := by
  obtain ⟨start, hstart, hoffset, hsize, hline, hbefore⟩ := exists_start t offset
  rw [hstart, Text.lineStart]
  simp only [line_eq_count, Nat.add_right_cancel_iff, Nat.add_lt_add_iff_right] at hline hbefore
  have hsplit : (toUtf8 t).take offset = (toUtf8 t).take start ++ ((toUtf8 t).take offset).drop start := by
    conv_lhs => rw [← List.take_append_drop start ((toUtf8 t).take offset), List.take_take, Nat.min_eq_left hoffset]
  have hrest : ∀ b ∈ (((toUtf8 t).take offset).drop start).reverse, (b != lineFeed) = true := by
    intro b hb
    rw [hsplit, List.count_append] at hline
    have hnone := List.count_eq_zero.mp (show (((toUtf8 t).take offset).drop start).count lineFeed = 0 by omega)
    exact bne_iff_ne.mpr fun hfeed => hnone (hfeed ▸ List.mem_reverse.mp hb)
  rw [hsplit, List.rdropWhile, List.reverse_append, List.dropWhile_append_of_pos hrest, ← List.rdropWhile]
  cases start with
  | zero => rfl
  | succ last =>
    have hlast : (toUtf8 t).take (last + 1) = (toUtf8 t).take last ++ [(toUtf8 t)[last]] :=
      List.take_succ_eq_append_getElem hsize
    have hfeed : (toUtf8 t)[last] = lineFeed := by
      by_contra hne
      have hcount := hbefore (Nat.succ_pos last)
      rw [hlast, List.count_append, List.count_singleton, if_neg (by simpa using hne)] at hcount
      exact absurd hcount (Nat.lt_irrefl _)
    rw [hlast, List.rdropWhile_concat_neg _ _ _ (by simp [hfeed]), ← hlast, List.length_take_of_le hsize]

theorem position_eq (t : Text) (offset : Nat) : (ofSource t).position offset =
    ⟨((toUtf8 t).take offset).count lineFeed + 1, offset - t.lineStart offset⟩ := by
  rw [position, start_eq, line_eq_count]
  rfl

theorem position_lt (t : Text) {p q : Nat} (h : p < q) : (ofSource t).position p < (ofSource t).position q := by
  obtain ⟨start, hstart, hle, -⟩ := exists_start t p
  rcases Nat.lt_or_eq_of_le (line_mono t (Nat.le_of_lt h)) with hline | hline
  · exact .inl hline
  · refine .inr ⟨hline, ?_⟩
    change p - (ofSource t).starts[(ofSource t).line p - 1]?.getD 0 < q - (ofSource t).starts[(ofSource t).line q - 1]?.getD 0
    rw [← hline, hstart, Option.getD_some]
    omega

end LineIndex

namespace Position

theorem lt_irrefl (p : Position) : ¬p < p := by
  rintro (h | ⟨-, h⟩)
  · exact Nat.lt_irrefl _ h
  · exact Nat.lt_irrefl _ h

theorem lt_asymm {p q : Position} (h : p < q) : ¬q < p := by
  intro h'
  change p.line < q.line ∨ (p.line = q.line ∧ p.column < q.column) at h
  change q.line < p.line ∨ (q.line = p.line ∧ q.column < p.column) at h'
  omega

end Position

namespace LineIndex

theorem position_lt_iff (t : Text) (p q : Nat) : (ofSource t).position p < (ofSource t).position q ↔ p < q := by
  refine ⟨fun h => ?_, position_lt t⟩
  rcases Nat.lt_trichotomy p q with hlt | rfl | hlt
  · exact hlt
  · exact absurd h (Position.lt_irrefl _)
  · exact absurd h (Position.lt_asymm (position_lt t hlt))

/-- No line of the text starts behind the last offset that there is. -/
def Fits (t : Text) : Prop := lineFeed ∉ (toUtf8 t).drop SourceSpan.lastOffset

theorem fits_of_size {t : Text} (h : Text.byteSize t < Nat.pow 2 offsetBits) : Fits t := by
  rw [Fits, List.drop_of_length_le]
  · exact List.not_mem_nil
  · rw [Text.length_toUtf8, SourceSpan.lastOffset]
    omega

theorem keptOffset_of_fits {t : Text} (h : Fits t) : ∀ start ∈ startsAfter 0 t, keptOffset start = start := by
  have hall : (startsAfter 0 t).countP (· ≤ Text.byteSize t) = (startsAfter 0 t).length := by
    rw [List.countP_eq_length]
    intro start hstart
    have := (startsAfter_bounds start hstart).2
    exact decide_eq_true (by omega)
  have hcount : (startsAfter 0 t).countP (· ≤ SourceSpan.lastOffset) = (startsAfter 0 t).length := by
    rw [← hall, countP_startsAfter, countP_startsAfter, Nat.sub_zero, Nat.sub_zero, ← Text.length_toUtf8,
      List.take_length]
    conv_rhs => rw [← List.take_append_drop SourceSpan.lastOffset (toUtf8 t), List.count_append,
      List.count_eq_zero_of_not_mem h]
    rfl
  intro start hstart
  have hle := of_decide_eq_true (List.countP_eq_length.mp hcount start hstart)
  exact Nat.mod_eq_of_lt (Nat.lt_of_le_of_lt hle (by decide))

theorem ofText_eq_ofSource {t : Text} (h : Fits t) : ofText t = ofSource t := by
  rw [ofText, ofSource, List.map_congr_left (keptOffset_of_fits h), List.map_id']

end LineIndex

namespace SourceFile

theorem lines_parse {t : Text} (h : Text.byteSize t < Nat.pow 2 offsetBits) : (parse t).lines = .ofText t :=
  (LineIndex.ofText_eq_ofSource (LineIndex.fits_of_size h)).symm

end SourceFile

namespace FilePlan

/-- What is reported for bytes that are no text, at the end of the text that they begin with. -/
theorem errors_ofBytes (c : PlanConfig) (path : Text) {content : Bytes} (h : ∀ t, toUtf8 t ≠ content) :
    ∃ valid span, Text.IsValidPart valid content ∧ (ofBytes c path content).errors = [.ofBytes span] ∧
      span.startLine = (LineIndex.ofSource valid).line (Text.byteSize valid) ∧ span.endLine = span.startLine := by
  have hpart := Text.ofUtf8_isValidPart content
  have hnone : (Text.ofUtf8 content).2 ≠ [] := by
    intro hnil
    have hall := Text.toUtf8_ofUtf8 content
    rw [hnil, List.append_nil] at hall
    exact h _ hall
  have hplan : (ofBytes c path content).errors =
      [.ofBytes (invalidSpan (Text.ofUtf8 content).1 (Text.ofUtf8 content).2)] := by
    rw [ofBytes]
    split
    · rename_i heq
      exact absurd (congrArg Prod.snd heq) hnone
    · rename_i heq
      rw [heq]
  refine ⟨_, _, hpart, hplan, ?_, rfl⟩
  have hline := LineIndex.line_append (Text.ofUtf8 content).1 []
  rw [List.append_nil] at hline
  exact hline.symm

end FilePlan

/-- The lines and columns of a text, for every offset, also one past the end, are those that counting line feeds
gives, and they grow with the offset, if all lines start at offsets that there are. For bytes that are no text the
line that is reported, as a number and in the message, is counted in the text that they begin with, and is that of
the end of that text. -/
theorem LineIndex.position_by_counting :
    (∀ t, Fits t → ∀ offset, (ofText t).line offset = ((toUtf8 t).take offset).count lineFeed + 1 ∧
      (ofText t).position offset = ⟨(ofText t).line offset, offset - Text.lineStart t offset⟩) ∧
    (∀ t, Fits t → ∀ p q, (ofText t).position p < (ofText t).position q ↔ p < q) ∧
    ∀ c path content, (∀ t, toUtf8 t ≠ content) → ∃ valid span, Text.IsValidPart valid content ∧
      (FilePlan.ofBytes c path content).errors = [⟨.encoding, "Encoding error on line " ++
        Text.ofNat span.startLine ++ ", content is not valid UTF-8", some span⟩] ∧
      span.startLine = (toUtf8 valid).count lineFeed + 1 ∧ span.endLine = span.startLine ∧
      (Fits valid → span.startLine = (ofText valid).line (Text.byteSize valid)) := by
  refine ⟨fun t ht offset => ?_, fun t ht p q => ?_, fun c path content h => ?_⟩
  · rw [ofText_eq_ofSource ht]
    exact ⟨line_eq_count t offset, by rw [position_eq, line_eq_count]⟩
  · rw [ofText_eq_ofSource ht]
    exact position_lt_iff t p q
  · obtain ⟨valid, span, hpart, herrors, hline, hend⟩ := FilePlan.errors_ofBytes c path h
    refine ⟨valid, span, hpart, herrors, ?_, hend, fun hvalid => ?_⟩
    · rw [hline, line_eq_count, ← Text.length_toUtf8, List.take_length]
    · rw [hline, ofText_eq_ofSource hvalid]

/-- A second line that ends in the middle of a character. -/
theorem LineIndex.position_by_counting_cut : Fits "a\nb\n" ∧
    ((ofText "a\nb\n").position 3 < (ofText "a\nb\n").position 9 ↔ 3 < 9) ∧
    (∀ t, toUtf8 t ≠ [0x61, 0x0A, 0xC3, 0x28]) ∧
    ∃ valid span, Text.IsValidPart valid [0x61, 0x0A, 0xC3, 0x28] ∧
      (FilePlan.ofBytes (.ofLead "Acme") "a.php" [0x61, 0x0A, 0xC3, 0x28]).errors = [⟨.encoding,
        "Encoding error on line " ++ Text.ofNat span.startLine ++ ", content is not valid UTF-8", some span⟩] ∧
      span.startLine = (toUtf8 valid).count lineFeed + 1 ∧ span.endLine = span.startLine ∧
      (Fits valid → span.startLine = (ofText valid).line (Text.byteSize valid)) := by
  have hfits : Fits "a\nb\n" := fits_of_size (by decide)
  have h : ∀ t, toUtf8 t ≠ [0x61, 0x0A, 0xC3, 0x28] := by
    intro t ht
    have hread := Text.ofUtf8?_eq_some_iff.mpr ht
    have hnone : Text.ofUtf8? [0x61, 0x0A, 0xC3, 0x28] = none := by decide
    rw [hnone] at hread
    cases hread
  exact ⟨hfits, position_by_counting.2.1 _ hfits _ _, h,
    position_by_counting.2.2 (.ofLead "Acme") "a.php" _ h⟩

/-- One line that is as long as there are offsets, and an empty one after it. -/
def farLine : Text := List.replicate (Nat.pow 2 offsetBits) 'a' ++ ['\n']

theorem LineIndex.startsAfter_replicate (n offset : Nat) :
    startsAfter offset (List.replicate n 'a' ++ ['\n']) = [offset + n + 1] := by
  induction n generalizing offset with
  | zero => rfl
  | succ n ih =>
    rw [List.replicate_succ, List.cons_append, startsAfter, if_neg (by decide), ih]
    exact congrArg (fun start => [start]) (by change offset + 1 + n + 1 = offset + (n + 1) + 1; omega)

/-- The start of the second line goes round, to the second byte of the first one. -/
theorem LineIndex.farLine_miscounted :
    (ofText farLine).line 5 ≠ ((toUtf8 farLine).take 5).count lineFeed + 1 := by
  have hround : ofText farLine = ⟨[0, 1]⟩ := by
    rw [ofText, farLine, startsAfter_replicate]
    rfl
  have hexact : ofSource farLine = ⟨[0, 0 + Nat.pow 2 offsetBits + 1]⟩ := by
    rw [ofSource, farLine, startsAfter_replicate]
  rw [← line_eq_count, hround, hexact]
  decide

end NamespaceMigration
