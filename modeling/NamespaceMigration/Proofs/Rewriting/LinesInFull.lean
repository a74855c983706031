import NamespaceMigration.Proofs.Naming.Segments
import NamespaceMigration.Proofs.Rewriting.TagLines

/-! Lines of comments with names in full. Each is read like the line before, so it has no other names, and
it introduces the same template. -/
namespace NamespaceMigration

namespace DocComment

open Lexer (isNameChar isNameStart nameLength IsName runLength)

/-- The name that a template tag introduces. -/
def templateIn (t : Text) : Option Text := do
  let l : Line := ⟨0, t⟩
  let place ← tagPlace? l
  let stop := l.skipWord (place + 1)
  if templateTags.contains (normalizeTag ((l.text.take stop).drop (place + 1))) then
    let name := (l.text.drop (l.skipBlanks stop)).takeWhile fun c => isAlphanumeric c || c == '_'
    if name.isEmpty then none else some name
  else none

/-- The template that the text behind the sign of a tag introduces. -/
def templateBehind (t : Text) : Option Text :=
  if templateTags.contains (normalizeTag (t.takeWhile (!isBlank ·))) then
    let name := ((t.dropWhile (!isBlank ·)).dropWhile isBlank).takeWhile fun c => isAlphanumeric c || c == '_'
    if name.isEmpty then none else some name
  else none

theorem IsTagLine.templateIn {t before tag rest : Text} (h : IsTagLine t before tag rest) :
    templateIn t = templateBehind (tag ++ rest) := by
  obtain ⟨word, behind, hword, hall, hstop⟩ := exists_run (!isBlank ·) (tag ++ rest)
  obtain ⟨blanks, text, rfl, hblank, htext⟩ := exists_run isBlank behind
  have hsplit : t = (before ++ ['@']) ++ (word ++ (blanks ++ text)) := by
    rw [h.text, ← hword]
    simp
  have hplace : before.length + 1 = (before ++ ['@']).length := by simp
  have hskip : (⟨0, t⟩ : Line).skipWord (before ++ ['@']).length = ((before ++ ['@']) ++ word).length := by
    rw [hsplit, skipWord_length, runLength_append hall hstop, ← List.length_append]
  have hsplit' : t = ((before ++ ['@']) ++ word) ++ (blanks ++ text) := by
    rw [hsplit, List.append_assoc _ word]
  have hskip' : (⟨0, t⟩ : Line).skipBlanks ((before ++ ['@']) ++ word).length =
      (((before ++ ['@']) ++ word) ++ blanks).length := by
    rw [hsplit', skipBlanks_length, runLength_append hblank htext, ← List.length_append]
  have hdrop : t.drop (((before ++ ['@']) ++ word) ++ blanks).length = text := by
    rw [hsplit', ← List.append_assoc _ blanks, List.drop_left]
  have hwhole : (t.take ((before ++ ['@']) ++ word).length).drop (before ++ ['@']).length = word := by
    rw [hsplit', List.take_left, List.drop_left]
  rw [DocComment.templateIn, h.tagPlace?, hword, templateBehind, takeWhile_append hall hstop,
    dropWhile_append hall hstop, dropWhile_append hblank htext, Option.bind_eq_bind, Option.bind_some]
  dsimp only
  rw [hplace, hskip, hskip', hdrop, hwhole]

/-- What is written for template tags. -/
def templateWords : List Text :=
  templateTags.flatMap fun tag => [tag, "phpstan-" ++ tag, "psalm-" ++ tag]

theorem mem_templateWords {word : Text} (h : normalizeTag word ∈ templateTags) : word ∈ templateWords := by
  rw [normalizeTag] at h
  split at h
  · rename_i tag hlead
    rw [Text.dropLead?_eq_some_iff] at hlead
    exact List.mem_flatMap.mpr ⟨tag, h, by rw [hlead]; simp⟩
  · cases hlead : Text.dropLead? "psalm-" word with
    | none =>
      rw [hlead] at h
      exact List.mem_flatMap.mpr ⟨word, h, List.mem_cons_self⟩
    | some tag =>
      rw [hlead] at h
      rw [Text.dropLead?_eq_some_iff] at hlead
      exact List.mem_flatMap.mpr ⟨tag, h, by rw [hlead]; simp⟩

theorem tag_of_templateWord {tag rest : Text} (htag : ∀ c ∈ tag, isTagSign c)
    (hrest : ∀ c ∈ rest.head?, isTagSign c = false)
    (h : normalizeTag ((tag ++ rest).takeWhile (!isBlank ·)) ∈ templateTags) :
    (tag ++ rest).takeWhile (!isBlank ·) = tag := by
  obtain ⟨word, behind, hword, hall, hstop⟩ := exists_run (!isBlank ·) (tag ++ rest)
  have hsigns : templateWords.all (·.all isTagSign) := by decide +kernel
  have hword' : (tag ++ rest).takeWhile (!isBlank ·) = word := by rw [hword, takeWhile_append hall hstop]
  have hwhole : (tag ++ rest).takeWhile isTagSign = tag := takeWhile_append htag hrest
  rw [hword'] at h ⊢
  rw [← hwhole, hword, takeWhile_append
    (List.all_eq_true.mp (List.all_eq_true.mp hsigns word (mem_templateWords h)))]
  intro c hc
  refine not_isTagSign_of_isBlank ?_
  simpa using hstop c hc

theorem IsTagLine.templateIn_eq_none {t before tag rest : Text} (h : IsTagLine t before tag rest)
    (htag : normalizeTag tag ∉ templateTags) : DocComment.templateIn t = none := by
  rw [h.templateIn, templateBehind, if_neg]
  rw [List.contains_iff_mem]
  intro hword
  rw [tag_of_templateWord h.tag h.stop hword] at hword
  exact htag hword

/-- What a template tag introduces ends before the next blank. -/
theorem templateBehind_append {word blanks name : Text} (hword : ∀ c ∈ word, !isBlank c)
    (hblanks : ∀ c ∈ blanks, isBlank c) (hne : blanks ≠ []) (hname : ∀ c ∈ name, !isBlank c)
    (hnamed : name ≠ []) {c : Char} (hc : isBlank c) (t u : Text) :
    templateBehind (word ++ (blanks ++ (name ++ c :: t))) =
      templateBehind (word ++ (blanks ++ (name ++ c :: u))) := by
  have hone (v : Text) : (word ++ (blanks ++ (name ++ c :: v))).takeWhile (!isBlank ·) = word ∧
      ((word ++ (blanks ++ (name ++ c :: v))).dropWhile (!isBlank ·)).dropWhile isBlank = name ++ c :: v := by
    obtain ⟨b, bs, rfl⟩ := List.exists_cons_of_ne_nil hne
    obtain ⟨d, ds, rfl⟩ := List.exists_cons_of_ne_nil hnamed
    have hb : ∀ e ∈ (b :: bs ++ (d :: ds ++ c :: v)).head?, (!isBlank e) = false := by
      rintro e ⟨⟩
      simpa using hblanks b List.mem_cons_self
    have hd : ∀ e ∈ (d :: ds ++ c :: v).head?, isBlank e = false := by
      rintro e ⟨⟩
      simpa using hname d List.mem_cons_self
    rw [takeWhile_append hword hb, dropWhile_append hword hb, dropWhile_append hblanks hd]
    exact ⟨rfl, rfl⟩
  have hsame (v : Text) : (name ++ c :: v).takeWhile (fun d => isAlphanumeric d || d == '_') =
      name.takeWhile fun d => isAlphanumeric d || d == '_' := by
    have hstop : (isAlphanumeric c || c == '_') = false := by
      rw [not_isAlphanumeric_of_isBlank hc, Bool.false_or, beq_eq_false_iff_ne]
      rintro rfl
      cases hc
    rw [List.takeWhile_append, List.takeWhile_cons_of_neg (by rw [hstop]; exact Bool.false_ne_true),
      List.append_nil]
    split
    · rename_i hlength
      exact ((List.takeWhile_prefix _).eq_of_length hlength).symm
    · rfl
  rw [templateBehind, templateBehind, (hone t).1, (hone t).2, (hone u).1, (hone u).2, hsame, hsame]

theorem backslash_mem_normalizeTag {tag : Text} (h : '\\' ∈ tag) : '\\' ∈ normalizeTag tag := by
  rw [normalizeTag]
  split
  · rename_i rest hlead
    rw [Text.dropLead?_eq_some_iff] at hlead
    rw [hlead, List.mem_append] at h
    exact h.resolve_left (by decide)
  · cases hlead : Text.dropLead? "psalm-" tag with
    | none => exact h
    | some rest =>
      rw [Text.dropLead?_eq_some_iff] at hlead
      rw [hlead, List.mem_append] at h
      exact h.resolve_left (by decide)

namespace IsTagLine

variable {t before tag rest rest' : Text}

theorem of_backslash (h : IsTagLine t before tag rest) (hsign : '\\' ∈ tag)
    (hplain : ¬ isAnnotation tag) :
    (∀ templates offset, lineReferences templates ⟨offset, t⟩ = []) ∧ DocComment.templateIn t = none := by
  have hnone {tags : List Text} (htags : ∀ plain ∈ tags, '\\' ∉ plain) : normalizeTag tag ∉ tags :=
    fun hmem => htags _ hmem (backslash_mem_normalizeTag hsign)
  have htemplate : normalizeTag tag ∉ templateTags := hnone (by decide)
  have hmethod : normalizeTag tag ∉ (["method"] : List Text) := hnone (by decide)
  have htyped : normalizeTag tag ∉ typedTags := hnone (by decide)
  refine ⟨fun templates offset => ?_, h.templateIn_eq_none htemplate⟩
  rw [h.references, if_neg hplain, if_neg fun heq => hmethod (List.mem_singleton.mpr heq), if_neg, if_neg]
  · rwa [List.contains_iff_mem]
  · rwa [List.contains_iff_mem]

theorem retold (h : IsTagLine t before tag rest) (hplain : ¬ isAnnotation tag) (hne : tag ≠ [])
    (hrest : Retold rest rest') : IsTagLine ((before ++ '@' :: tag) ++ rest') before tag rest' ∨
      (∀ templates offset, lineReferences templates ⟨offset, (before ++ '@' :: tag) ++ rest'⟩ = []) ∧
        DocComment.templateIn ((before ++ '@' :: tag) ++ rest') = none := by
  rcases hrest.head with heq | ⟨-, hsign⟩
  · exact Or.inl ⟨rfl, h.before, h.tag, fun c hc => h.stop c (heq ▸ hc)⟩
  · obtain ⟨v, rfl⟩ := List.head?_eq_some_iff.mp hsign
    obtain ⟨x, y, rfl, hx, hy⟩ := exists_run isTagSign v
    have hgrown : IsTagLine ((before ++ '@' :: tag) ++ '\\' :: (x ++ y)) before (tag ++ '\\' :: x) y :=
      ⟨by simp, h.before, List.forall_mem_append.mpr ⟨h.tag, List.forall_mem_cons.mpr ⟨rfl, hx⟩⟩, hy⟩
    refine Or.inr (hgrown.of_backslash (List.mem_append_right _ List.mem_cons_self) fun hnow => hplain ?_)
    obtain ⟨c, ds, rfl⟩ := List.exists_cons_of_ne_nil hne
    rw [isAnnotation_iff] at hnow ⊢
    exact ⟨hnow.1, fun hmem => hnow.2 (List.mem_append_left _ hmem)⟩

end IsTagLine

/-- A line whose names are in full now. They are found again, and no others, and the line introduces the
same template. -/
structure LineFilled (rename : Text → Text) (templates : List Text) (offset : Nat) (t u : Text) : Prop where
  filled : Filled rename offset (lineReferences templates ⟨offset, t⟩) t u
  retold : Retold t u
  full : ∀ offset', ∀ r ∈ lineReferences templates ⟨offset', u⟩, isWrittenInFull r.name
  template : templateIn u = templateIn t

section Lines

variable {rename : Text → Text} {templates : List Text} {offset : Nat} {t before tag rest : Text}

theorem LineFilled.same (h : ∀ offset, lineReferences templates ⟨offset, t⟩ = []) :
    LineFilled rename templates offset t t where
  filled := by
    rw [h]
    exact .nil t
  retold := .refl t
  full offset' := by
    rw [h]
    exact List.forall_mem_nil _
  template := rfl

variable (hr : WritesInFull rename)
include hr

/-- A name in full that comes in the place of an annotation starts an annotation. -/
theorem IsTagLine.annotation_filled (h : IsTagLine t before tag rest) (htag : isAnnotation tag) :
    ∃ u, LineFilled rename templates offset t u := by
  obtain ⟨rest', hfilled, hretold, hhead, hfull⟩ :=
    nestedAnnotations_filled hr (offset + Text.byteSize (before ++ '@' :: tag)) rest
  obtain ⟨hlead, hdash⟩ := isAnnotation_iff.mp htag
  have hsigns : ∀ c ∈ tag, IsNameSign c := fun c hc =>
    isNameSign_of_isTagSign (h.tag c hc) fun heq => hdash (heq ▸ hc)
  obtain ⟨name, hname, hnameSigns, hsame⟩ : ∃ name, rename tag = '\\' :: name ∧ (∀ c ∈ name, IsNameSign c) ∧
      (∀ t u, Retold t u → Retold (tag ++ t) ('\\' :: name ++ u)) := by
    obtain ⟨c, x, rfl⟩ := List.exists_cons_of_ne_nil (l := tag) (by rintro rfl; cases hlead)
    obtain ⟨hc, hx⟩ := List.forall_mem_cons.mp hsigns
    simp only [List.head?_cons, Option.any_some, Bool.or_eq_true, beq_iff_eq] at hlead
    rcases hlead with hupper | rfl
    · obtain ⟨y, hy, hall⟩ := hr.word c x (isNameStart_of_isUpper hupper) hx
      exact ⟨y, hy, hall, fun t u htu => .name (isNameStart_of_isUpper hupper) hx hall htu⟩
    · exact ⟨x, hr.full x, hx, fun t u htu => htu.before _⟩
  -- The new tag ends with the name, or inside it at a sign that tags do not have.
  obtain ⟨tag', left, hsplit, htag', hleft⟩ := exists_run isTagSign ('\\' :: name)
  obtain ⟨x, rfl⟩ : ∃ x, tag' = '\\' :: x := by
    cases tag' with
    | nil =>
      rw [List.nil_append] at hsplit
      rw [← hsplit] at hleft
      exact absurd (hleft '\\' rfl) (by decide)
    | cons c x =>
      rw [List.cons_append] at hsplit
      obtain ⟨rfl, -⟩ := List.cons.inj hsplit
      exact ⟨x, rfl⟩
  have hall : ∀ c ∈ '\\' :: x ++ left, IsNameSign c := by
    rw [← hsplit]
    exact List.forall_mem_cons.mpr ⟨Or.inr rfl, hnameSigns⟩
  obtain ⟨hallTag, hallLeft⟩ := List.forall_mem_append.mp hall
  have hannotation : isAnnotation ('\\' :: x) :=
    isAnnotation_iff.mpr ⟨rfl, fun hmem => absurd (hallTag _ hmem) (by decide)⟩
  have hline : IsTagLine ((before ++ '@' :: ('\\' :: name)) ++ rest') before ('\\' :: x) (left ++ rest') := by
    refine ⟨by rw [hsplit]; simp, h.before, htag', fun c hc => ?_⟩
    cases left with
    | nil => exact h.stop c (hhead ▸ hc)
    | cons d left => exact hleft c hc
  have hplain {word : Text} (hword : isAnnotation word) : normalizeTag word ∉ templateTags := fun hmem =>
    absurd hword ((by decide : ∀ word ∈ templateWords, ¬ isAnnotation word) word (mem_templateWords hmem))
  refine ⟨(before ++ '@' :: ('\\' :: name)) ++ rest', ?_, ?_, fun offset' => ?_, ?_⟩
  rotate_right
  · exact (hline.templateIn_eq_none (hplain hannotation)).trans
      (h.templateIn_eq_none (hplain htag)).symm
  · rw [h.references, if_pos htag, ← hname, h.text]
    have hlead : Text.byteSize (before ++ '@' :: tag) = Text.byteSize (before ++ ['@']) + Text.byteSize tag := by
      rw [← Text.byteSize_append]
      simp
    rw [hlead, ← Nat.add_assoc] at hfilled ⊢
    have hcons := Filled.cons (before ++ ['@']) tag hfilled
    simpa using hcons
  · rw [h.text, List.append_assoc, List.append_assoc]
    exact Retold.before _ (.cons '@' (hsame _ _ hretold))
  · rw [hline.references, if_pos hannotation, nestedAnnotations_name _ hallLeft]
    exact List.forall_mem_cons.mpr ⟨rfl, hfull _⟩

omit hr in
theorem not_isBlank_of_retold {t u : Text} (h : Retold t u) (ht : ∀ c ∈ t.head?, isBlank c = false) :
    ∀ c ∈ u.head?, isBlank c = false := by
  rcases h.head with heq | ⟨-, hsign⟩
  · rwa [heq]
  · rw [hsign]
    rintro c ⟨⟩
    rfl

omit hr in
/-- The names of a type behind a tag. -/
theorem IsTagLine.references_typed (templates : List Text) {blanks type : Text} (h : IsTagLine t before tag (blanks ++ type))
    (htag : ¬ isAnnotation tag) (htyped : normalizeTag tag ∈ typedTags) (hblanks : ∀ c ∈ blanks, isBlank c)
    (hstop : ∀ c ∈ type.head?, isBlank c = false) : ∃ links : Prop, ∀ offset,
      (links → lineReferences templates ⟨offset, t⟩ = []) ∧
      (¬links → lineReferences templates ⟨offset, t⟩ =
        namesBetween templates ⟨offset, ((before ++ '@' :: tag) ++ blanks) ++ type⟩
          ((before ++ '@' :: tag) ++ blanks).length
          (typeEnd ⟨offset, ((before ++ '@' :: tag) ++ blanks) ++ type⟩
            ((before ++ '@' :: tag) ++ blanks).length)) := by
  have hmethod : normalizeTag tag ≠ "method" := ne_of_mem_of_not_mem htyped (by decide)
  have htemplate : normalizeTag tag ∉ templateTags := fun hmem =>
    (by decide : ∀ word ∈ typedTags, word ∉ templateTags) _ htyped hmem
  have hskip (offset : Nat) :
      (⟨offset, t⟩ : Line).skipBlanks (before ++ '@' :: tag).length = ((before ++ '@' :: tag) ++ blanks).length := by
    rw [h.text, skipBlanks_length, runLength_append hblanks hstop, ← List.length_append]
  have htext : t = ((before ++ '@' :: tag) ++ blanks) ++ type := by rw [h.text, List.append_assoc _ blanks]
  have hread (offset : Nat) : lineReferences templates ⟨offset, t⟩ = _ :=
    h.references.trans ((if_neg htag).trans ((if_neg hmethod).trans
      ((if_neg (by rwa [List.contains_iff_mem])).trans (if_pos (List.contains_iff_mem.mpr htyped)))))
  refine ⟨(normalizeTag tag = "see" ∨ normalizeTag tag = "uses") ∧
    Text.contains ((t.take (typeEnd ⟨0, t⟩ ((before ++ '@' :: tag) ++ blanks).length)).drop
      ((before ++ '@' :: tag) ++ blanks).length) "://", fun offset => ?_⟩
  rw [hread, hskip, ← htext]
  exact ⟨fun hlinks => if_pos hlinks, fun hlinks => if_neg hlinks⟩

theorem IsTagLine.typed_filled (h : IsTagLine t before tag rest) (htag : ¬ isAnnotation tag)
    (htyped : normalizeTag tag ∈ typedTags) : ∃ u, LineFilled rename templates offset t u := by
  have htemplate : normalizeTag tag ∉ templateTags := fun hmem =>
    (by decide : ∀ word ∈ typedTags, word ∉ templateTags) _ htyped hmem
  have hne : tag ≠ [] := by
    rintro rfl
    exact absurd htyped (by decide)
  obtain ⟨blanks, type, rfl, hblanks, hstop⟩ := exists_run isBlank rest
  obtain ⟨links, hread⟩ := h.references_typed templates htag htyped hblanks hstop
  by_cases hlinks : links
  · exact ⟨t, .same fun offset => (hread offset).1 hlinks⟩
  · obtain ⟨type', hfilled, hretold, hfull⟩ :=
      type_filled hr templates offset ((before ++ '@' :: tag) ++ blanks) type
    have hgrow := h.retold htag hne (hretold.before blanks)
    refine ⟨(before ++ '@' :: tag) ++ (blanks ++ type'), ?_, ?_, fun offset' => ?_, ?_⟩
    · rw [(hread offset).2 hlinks, h.text, ← List.append_assoc, ← List.append_assoc]
      exact hfilled.before _
    · rw [h.text]
      exact (hretold.before blanks).before _
    · rcases hgrow with hline | hgrown
      · obtain ⟨links', hread'⟩ := hline.references_typed templates htag htyped hblanks
          (not_isBlank_of_retold hretold hstop)
        by_cases hlinks' : links'
        · rw [(hread' offset').1 hlinks']
          exact List.forall_mem_nil _
        · rw [(hread' offset').2 hlinks']
          exact hfull offset'
      · rw [hgrown.1]
        exact List.forall_mem_nil _
    · rw [h.templateIn_eq_none htemplate]
      rcases hgrow with hline | hgrown
      · exact hline.templateIn_eq_none htemplate
      · exact hgrown.2

omit hr in
theorem templateBound?_offset (offset offset' : Nat) (t : Text) (afterTag : Nat) :
    templateBound? ⟨offset, t⟩ afterTag = templateBound? ⟨offset', t⟩ afterTag := by
  unfold templateBound?
  rfl

omit hr in
/-- The word behind the name of a template. -/
theorem templateBound?_eq (offset : Nat) {a blanks name blanks' y : Text} (hblanks : ∀ c ∈ blanks, isBlank c)
    (hname : ∀ c ∈ name, !isBlank c) (hblanks' : ∀ c ∈ blanks', isBlank c)
    (hstop : ∀ c ∈ (name ++ (blanks' ++ y)).head?, isBlank c = false)
    (hstop' : ∀ c ∈ (blanks' ++ y).head?, (!isBlank c) = false) (hstop'' : ∀ c ∈ y.head?, isBlank c = false) :
    templateBound? ⟨offset, a ++ (blanks ++ (name ++ (blanks' ++ y)))⟩ a.length =
      (Text.dropLead? "of" y).bind fun type => if type.head?.any isBlank then
        some ((a ++ (blanks ++ (name ++ blanks'))).length + 2 + runLength isBlank type) else none := by
  have hword : a.length + blanks.length + name.length + blanks'.length =
      (a ++ (blanks ++ (name ++ blanks'))).length := by
    simp only [List.length_append]
    omega
  have htext : a ++ (blanks ++ (name ++ (blanks' ++ y))) = (a ++ (blanks ++ (name ++ blanks'))) ++ y := by simp
  have hplace : (⟨offset, a ++ (blanks ++ (name ++ (blanks' ++ y)))⟩ : Line).skipBlanks
      ((⟨offset, a ++ (blanks ++ (name ++ (blanks' ++ y)))⟩ : Line).skipWord
        ((⟨offset, a ++ (blanks ++ (name ++ (blanks' ++ y)))⟩ : Line).skipBlanks a.length)) =
      (a ++ (blanks ++ (name ++ blanks'))).length := by
    rw [skipBlanks_length, runLength_append hblanks hstop, ← List.append_assoc, ← List.length_append,
      skipWord_length, runLength_append hname hstop', ← List.append_assoc, ← List.length_append,
      skipBlanks_length, runLength_append hblanks' hstop'']
    simp only [List.length_append]
    omega
  rw [templateBound?, hplace]
  dsimp only
  rw [htext, List.drop_left]
  cases hof : Text.dropLead? "of" y with
  | none => rfl
  | some type =>
    rw [Text.dropLead?_eq_some_iff] at hof
    dsimp only [Option.bind_some]
    rw [Line.skipBlanks]
    dsimp only
    rw [List.drop_append, List.drop_eq_nil_of_le (Nat.le_add_right _ 2), Nat.add_sub_cancel_left, hof]
    rfl

/-- What stands between a template tag and the bound: the name of the template, and the word `of`. -/
structure IsBoundLead (lead blanks name blanks' blanks'' : Text) : Prop where
  text : lead = blanks ++ (name ++ (blanks' ++ ('o' :: 'f' :: blanks'')))
  name : name ≠ [] ∧ ∀ c ∈ name, !isBlank c
  blanks : ∀ c ∈ blanks, isBlank c
  blanks' : blanks' ≠ [] ∧ ∀ c ∈ blanks', isBlank c
  blanks'' : blanks'' ≠ [] ∧ ∀ c ∈ blanks'', isBlank c

section Bounds

omit hr
variable {a lead blanks name blanks' blanks'' type : Text}

theorem IsBoundLead.templateBound? (h : IsBoundLead lead blanks name blanks' blanks'')
    (hstop : ∀ c ∈ type.head?, isBlank c = false) :
    templateBound? ⟨offset, a ++ (lead ++ type)⟩ a.length = some (a ++ lead).length := by
  obtain ⟨c, n, rfl⟩ := List.exists_cons_of_ne_nil h.name.1
  obtain ⟨b, bs, rfl⟩ := List.exists_cons_of_ne_nil h.blanks'.1
  obtain ⟨e, es, rfl⟩ := List.exists_cons_of_ne_nil h.blanks''.1
  have hread := templateBound?_eq offset (a := a) (y := 'o' :: 'f' :: (e :: es ++ type)) h.blanks
    h.name.2 h.blanks'.2 (fun d hd => by cases hd; simpa using h.name.2 c List.mem_cons_self)
    (fun d hd => by cases hd; simpa using h.blanks'.2 b List.mem_cons_self) (fun d hd => by cases hd; rfl)
  have htext : a ++ (lead ++ type) =
      a ++ (blanks ++ (c :: n ++ (b :: bs ++ 'o' :: 'f' :: (e :: es ++ type)))) := by
    rw [h.text]
    simp
  have hof : Text.dropLead? "of" ('o' :: 'f' :: (e :: es ++ type)) = some (e :: es ++ type) :=
    Text.dropLead?_eq_some_iff.mpr rfl
  rw [htext, hread, hof, Option.bind_some, List.cons_append, List.head?_cons, Option.any_some,
    if_pos (h.blanks''.2 e List.mem_cons_self), ← List.cons_append, runLength_append h.blanks''.2 hstop, h.text]
  simp only [List.length_append, List.length_cons, Option.some.injEq]
  omega

theorem exists_boundLead {rest : Text} {bound : Nat}
    (h : DocComment.templateBound? ⟨offset, a ++ rest⟩ a.length = some bound) :
    ∃ lead blanks name blanks' blanks'' type, IsBoundLead lead blanks name blanks' blanks'' ∧
      rest = lead ++ type ∧ ∀ c ∈ type.head?, isBlank c = false := by
  obtain ⟨blanks, y, rfl, hblanks, hstop⟩ := exists_run isBlank rest
  obtain ⟨name, y, rfl, hname, hstop'⟩ := exists_run (!isBlank ·) y
  obtain ⟨blanks', y, rfl, hblanks', hstop''⟩ := exists_run isBlank y
  rw [templateBound?_eq _ hblanks hname hblanks' hstop hstop' hstop'', Option.bind_eq_some_iff] at h
  obtain ⟨x, hof, hbound⟩ := h
  rw [Text.dropLead?_eq_some_iff] at hof
  subst hof
  obtain ⟨blanks'', type, rfl, hblanks'', hlast⟩ := exists_run isBlank x
  refine ⟨_, blanks, name, blanks', blanks'', type, ⟨rfl, ⟨?_, hname⟩, hblanks, ⟨?_, hblanks'⟩, ?_, hblanks''⟩,
    by simp, hlast⟩
  -- Without a blank between them, the word is the name, and without the name there is no blank.
  · rintro rfl
    cases blanks' with
    | nil => exact absurd (hstop' _ rfl) (by decide)
    | cons b bs =>
      have hb := hstop b rfl
      rw [hblanks' b List.mem_cons_self] at hb
      cases hb
  · rintro rfl
    exact absurd (hstop' _ rfl) (by decide)
  · rintro rfl
    rw [List.nil_append] at hbound
    split at hbound
    · rename_i hany
      cases hhead : type.head? with
      | none =>
        rw [hhead] at hany
        cases hany
      | some c =>
        rw [hhead, Option.any_some, hlast c hhead] at hany
        cases hany
    · cases hbound

/-- The name of a template does not depend on its bound. -/
theorem IsBoundLead.templateBehind (h : IsBoundLead lead blanks name blanks' blanks'') {tag : Text}
    (htag : ∀ c ∈ tag, isTagSign c) (t u : Text) :
    templateBehind (tag ++ (lead ++ t)) = templateBehind (tag ++ (lead ++ u)) := by
  have hword : ∀ c ∈ tag, !isBlank c := fun c hc => by
    rw [Bool.not_eq_true']
    by_contra hblank
    rw [Bool.not_eq_false] at hblank
    have hsign := not_isTagSign_of_isBlank hblank
    rw [htag c hc] at hsign
    cases hsign
  obtain ⟨b, bs, rfl⟩ := List.exists_cons_of_ne_nil h.blanks'.1
  obtain ⟨e, es, rfl⟩ := List.exists_cons_of_ne_nil h.blanks''.1
  rw [h.text]
  cases blanks with
  | nil =>
    have hof : (['o', 'f'] : Text).all (!isBlank ·) := by decide
    have hsame := templateBehind_append (List.forall_mem_append.mpr ⟨hword, h.name.2⟩) h.blanks'.2 h.blanks'.1
      (List.all_eq_true.mp hof) (List.cons_ne_nil _ _)
      (h.blanks''.2 e List.mem_cons_self) (es ++ t) (es ++ u)
    simpa using hsame
  | cons d ds =>
    have hsame := templateBehind_append hword h.blanks (List.cons_ne_nil d ds) h.name.2 h.name.1
      (h.blanks'.2 b List.mem_cons_self) (bs ++ 'o' :: 'f' :: e :: es ++ t) (bs ++ 'o' :: 'f' :: e :: es ++ u)
    simpa using hsame

end Bounds

theorem IsTagLine.template_filled (h : IsTagLine t before tag rest) (htag : ¬ isAnnotation tag)
    (htemplate : normalizeTag tag ∈ templateTags) : ∃ u, LineFilled rename templates offset t u := by
  have hmethod : normalizeTag tag ≠ "method" := ne_of_mem_of_not_mem htemplate (by decide)
  have hread {t rest : Text} (h : IsTagLine t before tag rest) (offset : Nat) :
      lineReferences templates ⟨offset, t⟩ =
        (templateBound? ⟨offset, t⟩ (before ++ '@' :: tag).length).elim [] fun bound =>
          namesBetween templates ⟨offset, t⟩ bound (typeEnd ⟨offset, t⟩ bound) := by
    rw [h.references, if_neg htag, if_neg hmethod, if_pos (List.contains_iff_mem.mpr htemplate)]
  cases hbound : templateBound? ⟨0, t⟩ (before ++ '@' :: tag).length with
  | none =>
    refine ⟨t, .same fun offset => ?_⟩
    rw [hread h, templateBound?_offset offset 0, hbound]
    rfl
  | some bound =>
    rw [h.text] at hbound
    obtain ⟨lead, blanks, name, blanks', blanks'', type, hlead, rfl, hstop⟩ := exists_boundLead hbound
    obtain ⟨type', hfilled, hretold, hfull⟩ :=
      type_filled hr templates offset ((before ++ '@' :: tag) ++ lead) type
    have hline : IsTagLine ((before ++ '@' :: tag) ++ (lead ++ type')) before tag (lead ++ type') := by
      have hne : lead ≠ [] := by
        rw [hlead.text]
        simp
      obtain ⟨d, ds, rfl⟩ := List.exists_cons_of_ne_nil hne
      exact ⟨rfl, h.before, h.tag, h.stop⟩
    refine ⟨(before ++ '@' :: tag) ++ (lead ++ type'), ?_, ?_, fun offset' => ?_, ?_⟩
    · rw [hread h, h.text, hlead.templateBound? hstop, ← List.append_assoc, ← List.append_assoc]
      exact hfilled.before _
    · rw [h.text]
      exact (hretold.before lead).before _
    · rw [hread hline, hlead.templateBound? (not_isBlank_of_retold hretold hstop), ← List.append_assoc]
      exact hfull offset'
    · rw [h.templateIn, hline.templateIn]
      exact hlead.templateBehind h.tag _ _

end Lines

end DocComment
end NamespaceMigration
