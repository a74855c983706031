import NamespaceMigration.Proofs.Rewriting.InFull

/-! The lines of a comment with names in full. Every kind of tag is read as before, or not at all where a
name has grown into its tag, so a line with names in full has no other names. -/
namespace NamespaceMigration
namespace DocComment

open Lexer (isNameChar isNameStart nameLength IsName runLength)

theorem mem_blanks {c : Char} (h : isBlank c) : c ∈ [9, 10, 11, 12, 13, 0x20, 0x85, 0xA0, 0x1680, 0x2000,
    0x2001, 0x2002, 0x2003, 0x2004, 0x2005, 0x2006, 0x2007, 0x2008, 0x2009, 0x200A, 0x2028, 0x2029, 0x202F,
    0x205F, 0x3000].map Char.ofNat := by
  rw [← Char.ofNat_toNat c]
  refine List.mem_map_of_mem ?_
  simp only [isBlank, Bool.or_eq_true, Bool.and_eq_true, decide_eq_true_eq, beq_iff_eq] at h
  simp only [List.mem_cons, List.not_mem_nil, or_false]
  omega

theorem not_isAlphanumeric_of_isBlank {c : Char} (h : isBlank c) : isAlphanumeric c = false := by
  have hall : ([9, 10, 11, 12, 13, 0x20, 0x85, 0xA0, 0x1680, 0x2000, 0x2001, 0x2002, 0x2003, 0x2004,
      0x2005, 0x2006, 0x2007, 0x2008, 0x2009, 0x200A, 0x2028, 0x2029, 0x202F, 0x205F, 0x3000].map
      Char.ofNat).all (!isAlphanumeric ·) := by decide +kernel
  exact Bool.not_eq_eq_eq_not.mp (List.all_eq_true.mp hall c (mem_blanks h))

/-- A sign of the name of a tag. -/
def isTagSign (c : Char) : Bool := isAlphanumeric c || c == '_' || c == '\\' || c == '-'

theorem not_isTagSign_of_isBlank {c : Char} (h : isBlank c) : isTagSign c = false := by
  rw [isTagSign, not_isAlphanumeric_of_isBlank h]
  refine Bool.eq_false_iff.mpr fun hsign => ?_
  simp only [Bool.false_or, Bool.or_eq_true, beq_iff_eq] at hsign
  rcases hsign with (rfl | rfl) | rfl <;> cases h

theorem isNameSign_of_isTagSign {c : Char} (h : isTagSign c) (hdash : c ≠ '-') : IsNameSign c := by
  rw [isTagSign, isAlphanumeric] at h
  simp only [Bool.or_eq_true, Bool.and_eq_true, decide_eq_true_eq, beq_iff_eq, Char.isAlphanum] at h
  rcases h with ((((h | h) | ⟨h, -⟩) | rfl) | rfl) | rfl
  · exact Or.inl (by simp [isNameChar, isNameStart, h])
  · exact Or.inl (by simp [isNameChar, h])
  · exact Or.inl (by simp [isNameChar, isNameStart, h])
  · decide
  · decide
  · exact absurd rfl hdash

theorem runLength_append {p : Char → Bool} {x t : Text} (hx : ∀ c ∈ x, p c)
    (ht : ∀ c ∈ t.head?, p c = false) : runLength p (x ++ t) = x.length := by
  have hstop : t.takeWhile p = [] := by
    cases t with
    | nil => rfl
    | cons c t => exact List.takeWhile_cons_of_neg (by rw [ht c rfl]; exact Bool.false_ne_true)
  rw [runLength, List.takeWhile_append_of_pos hx, hstop, List.append_nil]

theorem takeWhile_append {p : Char → Bool} {x t : Text} (hx : ∀ c ∈ x, p c)
    (ht : ∀ c ∈ t.head?, p c = false) : (x ++ t).takeWhile p = x := by
  have hlength := runLength_append hx ht
  rw [runLength] at hlength
  rw [List.prefix_iff_eq_take.mp (List.takeWhile_prefix p), hlength, List.take_left]

theorem dropWhile_append {p : Char → Bool} {x t : Text} (hx : ∀ c ∈ x, p c)
    (ht : ∀ c ∈ t.head?, p c = false) : (x ++ t).dropWhile p = t := by
  have hall := List.takeWhile_append_dropWhile (p := p) (l := x ++ t)
  rw [takeWhile_append hx ht] at hall
  exact List.append_cancel_left hall

theorem exists_run (p : Char → Bool) (t : Text) : ∃ x y, t = x ++ y ∧ (∀ c ∈ x, p c) ∧
    ∀ c ∈ y.head?, p c = false := by
  refine ⟨t.takeWhile p, t.dropWhile p, List.takeWhile_append_dropWhile.symm, fun c hc =>
    List.mem_takeWhile_imp hc, fun c hc => ?_⟩
  have hhead := List.head?_dropWhile_not p t
  rw [hc] at hhead
  simpa using hhead

section Places

variable {templates : List Text} {offset : Nat} {a t : Text}

theorem skipBlanks_length : (⟨offset, a ++ t⟩ : Line).skipBlanks a.length = a.length + runLength isBlank t := by
  rw [Line.skipBlanks, List.drop_left]

theorem skipWord_length : (⟨offset, a ++ t⟩ : Line).skipWord a.length = a.length + runLength (!isBlank ·) t := by
  rw [Line.skipWord, List.drop_left]

theorem namesBetween_length (n : Nat) :
    namesBetween templates ⟨offset, a ++ t⟩ a.length (a.length + n) =
      namesFrom templates .outside a.getLast? (offset + Text.byteSize a) (t.take n) := by
  rw [namesBetween, Line.offsetAt, List.take_left, List.take_length_add_append, List.drop_left]

theorem typeEnd_length : typeEnd ⟨offset, a ++ t⟩ a.length = a.length + typeLength 0 none a.reverse t := by
  rw [typeEnd, List.take_left, List.drop_left]

end Places

theorem typeLength_le (depth : Int) (quote? : Option Char) (before t : Text) :
    typeLength depth quote? before t ≤ t.length := by
  induction t generalizing depth quote? before with
  | nil => exact Nat.le_refl _
  | cons c t ih =>
    have hle := ih (typeStep depth quote? c).1 (typeStep depth quote? c).2 (c :: before)
    rw [typeLength_cons, List.length_cons]
    split <;> omega

section Filled

variable {rename : Text → Text} (hr : WritesInFull rename) (templates : List Text)
include hr

/-- The names of a type in full. -/
theorem type_filled (offset : Nat) (a t : Text) : ∃ u,
    Filled rename (offset + Text.byteSize a)
      (namesBetween templates ⟨offset, a ++ t⟩ a.length (typeEnd ⟨offset, a ++ t⟩ a.length)) t u ∧
    Retold t u ∧ ∀ offset', ∀ r ∈ namesBetween templates ⟨offset', a ++ u⟩ a.length
      (typeEnd ⟨offset', a ++ u⟩ a.length), isWrittenInFull r.name := by
  obtain ⟨x, y, rfl, hlength⟩ : ∃ x y, t = x ++ y ∧ typeLength 0 none a.reverse t = x.length :=
    ⟨t.take _, t.drop _, (List.take_append_drop _ _).symm, by
      rw [List.length_take, Nat.min_eq_left (typeLength_le _ _ _ _)]⟩
  obtain ⟨u, hfilled, hretold, hfull⟩ := namesFrom_filled hr templates (Or.inl rfl) a.getLast?
    a.getLast? (offset + Text.byteSize a) x (Or.inl rfl)
  obtain ⟨v, w, rfl, hlength', hw⟩ := typeLength_retold hretold a.reverse a.reverse (fun _ h => absurd h (by simp)) id hlength
  refine ⟨v ++ w ++ y, ?_, hretold.append (.refl y), fun offset' => ?_⟩
  · rw [typeEnd_length, hlength, namesBetween_length, List.take_left]
    exact hfilled.behind y
  · rw [typeEnd_length, hlength', namesBetween_length, List.append_assoc, List.take_left]
    exact fun r hr => hfull _ r (namesFrom_before_blank (Or.inl rfl) hw r hr)

omit templates

omit hr in
theorem nestedAnnotations_name (offset : Nat) {x : Text} (hx : ∀ c ∈ x, IsNameSign c) (t : Text) :
    nestedAnnotations offset (x ++ t) = nestedAnnotations (offset + Text.byteSize x) t := by
  induction x generalizing offset with
  | nil => rfl
  | cons c x ih =>
    obtain ⟨hc, hx⟩ := List.forall_mem_cons.mp hx
    have hsign : c ≠ '@' := hc.ne (by decide)
    rw [List.cons_append, nestedAnnotations]
    rw [if_neg fun h => hsign h.1, ih _ hx, Text.byteSize, Nat.add_assoc]

omit hr in
theorem take_nameLength {n t : Text} (hn : IsWritten n) (ht : nameLength t = 0) :
    (n ++ t).take (nameLength (n ++ t)) = n := by
  obtain ⟨-, -, -, -, -, -, hlength⟩ := hn.shape
  rw [Lexer.nameLength_append_eq_length_iff.mpr ⟨hlength, ht⟩, List.take_left]

omit hr in
theorem IsWritten.sign {n : Text} (h : IsWritten n) : ∀ c ∈ n, IsNameSign c := by
  rcases h with h | ⟨u, rfl, hu⟩
  · exact h.sign
  · exact List.forall_mem_cons.mpr ⟨Or.inr rfl, hu.sign⟩

omit hr in
theorem isNameStart_of_isUpper {c : Char} (h : c.isUpper) : isNameStart c := by
  have halpha : c.isAlpha := by
    change (c.isUpper || c.isLower) = true
    rw [h, Bool.true_or]
  rw [isNameStart, halpha, Bool.true_or, Bool.true_or]

omit hr in
theorem isAnnotation_iff {tag : Text} :
    isAnnotation tag ↔ tag.head?.any (fun c => c.isUpper || c == '\\') ∧ '-' ∉ tag := by
  have heq : isAnnotation tag = (tag.head?.any (fun c => c.isUpper || c == '\\') && decide ('-' ∉ tag)) := rfl
  rw [heq, Bool.and_eq_true, decide_eq_true_eq]

omit hr in
/-- The name of an annotation at the start of a text. -/
theorem exists_annotation {t : Text} (h : isAnnotation (t.take (nameLength t))) :
    ∃ n rest, t = n ++ rest ∧ IsWritten n ∧ nameLength rest = 0 ∧ t.take (nameLength t) = n := by
  cases t with
  | nil => cases h
  | cons c t =>
    have hstart : isNameStart c ∨ c = '\\' ∧ t.head?.any isNameStart := by
      by_contra hnone
      have hzero : nameLength (c :: t) = 0 := by
        rw [Lexer.nameLength_cons_eq_zero_iff]
        refine ⟨?_, fun hsign => hnone (Or.inr hsign)⟩
        by_contra hname
        obtain ⟨k, hk⟩ : ∃ k, nameLength (c :: t) = k + 1 :=
          ⟨_, (Nat.succ_pred_eq_of_pos (Nat.pos_of_ne_zero fun hzero =>
            hname (Lexer.nameLength_cons_eq_zero_iff.mp hzero).1)).symm⟩
        rw [hk, List.take_succ_cons, isAnnotation_iff] at h
        simp only [List.head?_cons, Option.any_some, Bool.or_eq_true, beq_iff_eq] at h
        rcases h.1 with hupper | rfl
        · exact hnone (Or.inl (isNameStart_of_isUpper hupper))
        · exact hname Lexer.not_isNameChar_backslash
      rw [hzero] at h
      cases h
    obtain ⟨n, rest, hsplit, hname, hrest⟩ := exists_written hstart
    refine ⟨n, rest, hsplit, hname, hrest, ?_⟩
    rw [hsplit]
    exact take_nameLength hname hrest

/-- The annotations in the arguments of another one in full. -/
theorem nestedAnnotations_filled (offset : Nat) (t : Text) : ∃ u,
    Filled rename offset (nestedAnnotations offset t) t u ∧ Retold t u ∧ u.head? = t.head? ∧
      ∀ offset', ∀ r ∈ nestedAnnotations offset' u, isWrittenInFull r.name := by
  induction hn : t.length using Nat.strong_induction_on generalizing t offset with
  | _ k ih =>
  subst hn
  cases t with
  | nil => exact ⟨[], .nil _, .nil, rfl, fun _ => List.forall_mem_nil _⟩
  | cons c t =>
    by_cases hfound : c = '@' ∧ isAnnotation (t.take (nameLength t))
    · obtain ⟨rfl, hannotation⟩ := hfound
      obtain ⟨n, rest, rfl, hname, hrest, htake⟩ := exists_annotation hannotation
      obtain ⟨u, hfilled, hretold, -, hfull⟩ := ih rest.length
        (by rw [List.length_cons, List.length_append]; omega)
        (offset + '@'.utf8Size + Text.byteSize n) rest rfl
      obtain ⟨hnew, hnewfull⟩ := hname.inFull hr
      refine ⟨'@' :: (rename n ++ u), ?_, .cons '@' (hname.retold hr hretold), rfl, fun offset' => ?_⟩
      · rw [nestedAnnotations]
        rw [if_pos ⟨rfl, hannotation⟩, htake, nestedAnnotations_name _ hname.sign]
        exact Filled.cons ['@'] n hfilled
      · rw [nestedAnnotations]
        rw [take_nameLength hnew (hretold.nameLength hrest), nestedAnnotations_name _ hnew.sign]
        split
        · exact List.forall_mem_cons.mpr ⟨hnewfull, hfull _⟩
        · exact hfull _
    · obtain ⟨u, hfilled, hretold, hhead, hfull⟩ := ih t.length (Nat.lt_succ_self _)
        (offset + c.utf8Size) t rfl
      refine ⟨c :: u, ?_, .cons c hretold, rfl, fun offset' => ?_⟩
      · rw [nestedAnnotations]
        rw [if_neg hfound]
        exact Filled.before [c] hfilled
      · rw [nestedAnnotations]
        split
        · rename_i hnow
          refine List.forall_mem_cons.mpr ⟨?_, hfull _⟩
          -- An annotation that was none before starts with a backslash.
          obtain ⟨n, rest, hsplit, hname, hrest, htake⟩ := exists_annotation hnow.2
          obtain ⟨d, m, rfl, -, -, hstart, -⟩ := hname.shape
          rw [htake] at hnow ⊢
          rcases hstart with hstart | ⟨rfl, -⟩
          · exfalso
            obtain ⟨v, rfl⟩ : ∃ v, t = d :: v := by
              rw [hsplit] at hhead
              exact List.head?_eq_some_iff.mp hhead.symm
            obtain ⟨k, hk⟩ : ∃ k, nameLength (d :: v) = k + 1 :=
              ⟨_, (Nat.succ_pred_eq_of_pos (Lexer.nameLength_pos hstart v)).symm⟩
            refine hfound ⟨hnow.1, ?_⟩
            have hdash : '-' ∉ (d :: v).take (nameLength (d :: v)) := fun hmem =>
              absurd (Lexer.take_nameLength_all _ '-' hmem) (by decide)
            have hhere := hnow.2
            rw [isAnnotation_iff] at hhere ⊢
            rw [hk, List.take_succ_cons] at hdash ⊢
            exact ⟨hhere.1, hdash⟩
          · rfl
        · exact hfull _

end Filled

/-- A sign that may stand in front of a tag. -/
def isTagLead (c : Char) : Bool := isBlank c || c == '/' || c == '*'

/-- A line that starts with a tag. -/
structure IsTagLine (t before tag rest : Text) : Prop where
  text : t = (before ++ '@' :: tag) ++ rest
  before : ∀ c ∈ before, isTagLead c
  tag : ∀ c ∈ tag, isTagSign c
  stop : ∀ c ∈ rest.head?, isTagSign c = false

theorem exists_tagLine {l : Line} {place : Nat} (h : tagPlace? l = some place) :
    ∃ before tag rest, IsTagLine l.text before tag rest := by
  obtain ⟨before, t, htext, hbefore, hstop⟩ := exists_run isTagLead l.text
  have hlength : runLength isTagLead l.text = before.length := by
    rw [htext]
    exact runLength_append hbefore hstop
  have hsign : l.text[runLength isTagLead l.text]? = some '@' := by
    rw [tagPlace?] at h
    split at h
    · assumption
    · cases h
  rw [hlength, htext, List.getElem?_append_right (Nat.le_refl _), Nat.sub_self] at hsign
  cases t with
  | nil => cases hsign
  | cons c t =>
    cases hsign
    obtain ⟨tag, rest, rfl, htag, hrest⟩ := exists_run isTagSign t
    exact ⟨before, tag, rest, by rw [htext, List.append_assoc]; rfl, hbefore, htag, hrest⟩

namespace IsTagLine

variable {t before tag rest : Text} {templates : List Text} {offset : Nat}

theorem tagPlace? (h : IsTagLine t before tag rest) : tagPlace? ⟨offset, t⟩ = some before.length := by
  have hsplit : t = before ++ '@' :: (tag ++ rest) := by rw [h.text, List.append_assoc]; rfl
  have hlength : runLength (fun c => isBlank c || c == '/' || c == '*') t = before.length := by
    rw [hsplit]
    exact runLength_append h.before fun c hc => by cases hc; rfl
  rw [DocComment.tagPlace?]
  dsimp only
  rw [hlength, if_pos]
  rw [hsplit, List.getElem?_append_right (Nat.le_refl _), Nat.sub_self]
  rfl

theorem drop_place (h : IsTagLine t before tag rest) : t.drop (before.length + 1) = tag ++ rest := by
  have hsplit : t = (before ++ ['@']) ++ (tag ++ rest) := by rw [h.text]; simp
  have hlength : before.length + 1 = (before ++ ['@']).length := by simp
  rw [hsplit, hlength, List.drop_left]

theorem takeWhile_tag (h : IsTagLine t before tag rest) :
    (t.drop (before.length + 1)).takeWhile isTagSign = tag := by
  rw [h.drop_place]
  exact takeWhile_append h.tag h.stop

/-- What a line is read as, by its tag. -/
theorem references (h : IsTagLine t before tag rest) : lineReferences templates ⟨offset, t⟩ =
    if isAnnotation tag then
      ⟨⟨offset + Text.byteSize (before ++ ['@']), offset + Text.byteSize (before ++ '@' :: tag)⟩, tag⟩ ::
        nestedAnnotations (offset + Text.byteSize (before ++ '@' :: tag)) rest
    else if normalizeTag tag = "method" then
      methodNames templates ⟨offset, t⟩ (before ++ '@' :: tag).length
    else if templateTags.contains (normalizeTag tag) then
      (templateBound? ⟨offset, t⟩ (before ++ '@' :: tag).length).elim [] fun bound =>
        namesBetween templates ⟨offset, t⟩ bound (typeEnd ⟨offset, t⟩ bound)
    else if typedTags.contains (normalizeTag tag) then
      let start := (⟨offset, t⟩ : Line).skipBlanks (before ++ '@' :: tag).length
      let stop := typeEnd ⟨offset, t⟩ start
      if (normalizeTag tag = "see" ∨ normalizeTag tag = "uses") ∧
        Text.contains ((t.take stop).drop start) "://" then []
      else namesBetween templates ⟨offset, t⟩ start stop
    else [] := by
  have hafter : before.length + 1 + tag.length = (before ++ '@' :: tag).length := by
    rw [List.length_append, List.length_cons]
    omega
  have hplace : before.length + 1 = (before ++ ['@']).length := by simp
  have hoffset : (⟨offset, t⟩ : Line).offsetAt (before.length + 1) =
      offset + Text.byteSize (before ++ ['@']) := by
    have hsplit : t = (before ++ ['@']) ++ (tag ++ rest) := by rw [h.text]; simp
    rw [Line.offsetAt, hplace]
    dsimp only
    rw [hsplit, List.take_left]
  have hoffset' : (⟨offset, t⟩ : Line).offsetAt (before ++ '@' :: tag).length =
      offset + Text.byteSize (before ++ '@' :: tag) := by
    rw [Line.offsetAt]
    dsimp only
    rw [h.text, List.take_left]
  have hrest : t.drop (before ++ '@' :: tag).length = rest := by rw [h.text, List.drop_left]
  have htag : (t.drop (before.length + 1)).takeWhile
      (fun c => isAlphanumeric c || c == '_' || c == '\\' || c == '-') = tag := h.takeWhile_tag
  rw [lineReferences, h.tagPlace?]
  dsimp only
  rw [htag, hafter, hoffset, hoffset', hrest]
  refine if_congr Iff.rfl rfl (if_congr Iff.rfl rfl (if_congr Iff.rfl ?_ rfl))
  cases templateBound? ⟨offset, t⟩ (before ++ '@' :: tag).length <;> rfl

end IsTagLine

end DocComment
end NamespaceMigration
