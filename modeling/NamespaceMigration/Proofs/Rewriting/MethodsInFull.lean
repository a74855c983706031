import NamespaceMigration.Proofs.Naming.Alias
import NamespaceMigration.Proofs.Rewriting.LinesInFull

/-! Signatures of methods in comments with names in full. The name of a method starts behind the last blank
in front of the parenthesis, so the type of its result must end with a blank that no name has. -/
namespace NamespaceMigration

theorem Text.splitAtFirst?_append {c : Char} {before : Text} (h : c ∉ before) (after : Text) :
    splitAtFirst? c (before ++ c :: after) = some (before, after) := by
  induction before with
  | nil => rw [List.nil_append, splitAtFirst?, if_pos rfl]
  | cons d before ih =>
    rw [List.mem_cons, not_or] at h
    rw [List.cons_append, splitAtFirst?, if_neg (Ne.symm h.1), ih h.2]
    rfl

namespace DocComment

open Lexer (isNameChar runLength)

section Signatures

variable {templates : List Text} {offset : Nat} {t before tag rest a result name blanks inside : Text}
/-- The signature of a method: the type of its result, which ends with a blank, its name, and what stands
behind the parenthesis. -/
structure IsSignature (t result name blanks inside : Text) : Prop where
  text : t = (result ++ (name ++ blanks)) ++ '(' :: inside
  opener : '(' ∉ result ++ (name ++ blanks)
  bare : name = [] → result = []
  result : ∀ c ∈ result.getLast?, isBlank c
  name : ∀ c ∈ name, !isBlank c
  blanks : ∀ c ∈ blanks, isBlank c

theorem exists_signature (h : '(' ∈ t) : ∃ result name blanks inside, IsSignature t result name blanks inside := by
  obtain ⟨head, y, rfl, hhead, hstop⟩ := exists_run (· != '(') t
  have hopener : '(' ∉ head := fun hmem => by
    have hne := hhead '(' hmem
    cases hne
  obtain ⟨inside, rfl⟩ : ∃ inside, y = '(' :: inside := by
    cases y with
    | nil => exact absurd (List.append_nil head ▸ h) hopener
    | cons c y =>
      have hc : c = '(' := by simpa using hstop c rfl
      exact ⟨y, by rw [hc]⟩
  obtain ⟨blanks, z, hsplit, hblanks, hlast⟩ := exists_run isBlank head.reverse
  obtain ⟨name, result, rfl, hname, hresult⟩ := exists_run (!isBlank ·) z
  have htext : head = result.reverse ++ (name.reverse ++ blanks.reverse) := by
    rw [← List.reverse_reverse head, hsplit]
    simp
  refine ⟨result.reverse, name.reverse, blanks.reverse, inside, by rw [htext], htext ▸ hopener, ?_, ?_, ?_, ?_⟩
  · intro hbare
    rw [List.reverse_eq_nil_iff] at hbare ⊢
    subst hbare
    cases result with
    | nil => rfl
    | cons c result =>
      have hblank := hresult c rfl
      rw [hlast c rfl] at hblank
      cases hblank
  · rw [List.getLast?_reverse]
    exact fun c hc => by simpa using hresult c hc
  · exact fun c hc => hname c (List.mem_reverse.mp hc)
  · exact fun c hc => hblanks c (List.mem_reverse.mp hc)

theorem IsSignature.head (h : IsSignature t result name blanks inside) :
    (Text.trimEnd isBlank (result ++ (name ++ blanks))).reverse.dropWhile (!isBlank ·) = result.reverse := by
  have htrim : (result ++ (name ++ blanks)).reverse.dropWhile isBlank = name.reverse ++ result.reverse := by
    have hreverse : (result ++ (name ++ blanks)).reverse = blanks.reverse ++ (name.reverse ++ result.reverse) := by
      simp
    rw [hreverse, dropWhile_append (fun c hc => h.blanks c (List.mem_reverse.mp hc))]
    intro c hc
    cases hrev : name.reverse with
    | nil =>
      rw [List.reverse_eq_nil_iff] at hrev
      rw [hrev, h.bare hrev] at hc
      cases hc
    | cons d ds =>
      rw [hrev] at hc
      cases hc
      have hmem : c ∈ name.reverse := by
        rw [hrev]
        exact List.mem_cons_self
      simpa using h.name c (List.mem_reverse.mp hmem)
  rw [Text.trimEnd, htrim, List.reverse_reverse, dropWhile_append fun c hc => h.name c (List.mem_reverse.mp hc)]
  rw [List.head?_reverse]
  exact fun c hc => by simpa using h.result c hc

def arguments (inside : Text) : Text := ((Text.splitAtLast? ')' inside).map (·.1)).getD inside

theorem exists_arguments (inside : Text) : ∃ x y, inside = x ++ y ∧
    ∀ u, (')' ∈ u → ')' ∈ x) → arguments (u ++ y) = u := by
  cases hsplit : Text.splitAtLast? ')' inside with
  | none =>
    rw [Text.splitAtLast?_eq_none_iff] at hsplit
    refine ⟨inside, [], (List.append_nil _).symm, fun u hu => ?_⟩
    rw [List.append_nil, arguments, Text.splitAtLast?_eq_none_iff.mpr fun hmem => hsplit (hu hmem)]
    rfl
  | some parts =>
    obtain ⟨x, y⟩ := parts
    obtain ⟨htext, hlast⟩ := Text.splitAtLast?_eq_some_iff.mp hsplit
    refine ⟨x, ')' :: y, htext, fun u _ => ?_⟩
    rw [arguments, Text.splitAtLast?_eq_some_iff.mpr ⟨rfl, hlast⟩]
    rfl

/-- The names of a method are those of its result and those of its parameters. -/
theorem IsSignature.methodNames (h : IsSignature t result name blanks inside) :
    methodNames templates ⟨offset, a ++ t⟩ a.length =
      namesFrom templates .outside a.getLast? (offset + Text.byteSize a) result ++
        parameterNames templates ⟨offset, (a ++ (result ++ (name ++ blanks)) ++ ['(']) ++ inside⟩
          (a ++ (result ++ (name ++ blanks)) ++ ['(']).length ((arguments inside).splitOn ',') := by
  have hopener : (⟨offset, a ++ t⟩ : Line).find (· == '(') a.length =
      (a ++ (result ++ (name ++ blanks))).length := by
    have hhead : ∀ c ∈ result ++ (name ++ blanks), (!c == '(') = true := fun c hc => by
      simpa using ne_of_mem_of_not_mem hc h.opener
    rw [Line.find, List.drop_left, h.text, runLength_append hhead, ← List.length_append]
    rintro c ⟨⟩
    rfl
  have hlength : (a ++ (result ++ (name ++ blanks))).length + 1 =
      (a ++ (result ++ (name ++ blanks)) ++ ['(']).length := by
    simp only [List.length_append, List.length_singleton]
  have htext : a ++ t = (a ++ (result ++ (name ++ blanks)) ++ ['(']) ++ inside := by
    rw [h.text]
    simp
  have hhead : ((a ++ t).take (a ++ (result ++ (name ++ blanks))).length).drop a.length =
      result ++ (name ++ blanks) := by
    rw [htext, List.append_assoc, List.take_left, List.drop_left]
  have hshort : ¬(a ++ t).length ≤ (a ++ (result ++ (name ++ blanks))).length := by
    rw [htext, List.length_append, ← hlength]
    omega
  have hresult : namesBetween templates ⟨offset, a ++ t⟩ a.length (a.length + result.length) =
      namesFrom templates .outside a.getLast? (offset + Text.byteSize a) result := by
    rw [namesBetween_length, h.text, List.append_assoc, List.append_assoc, List.take_left]
  rw [DocComment.methodNames, hopener]
  dsimp only
  rw [if_neg hshort, hhead, h.head, List.length_reverse, hresult, hlength]
  refine congrArg _ ?_
  rw [htext, List.drop_left, arguments]
  cases Text.splitAtLast? ')' inside <;> rfl

theorem parameterNames_cons (p y : Text) (ps : List Text) :
    parameterNames templates ⟨offset, a ++ (p ++ y)⟩ a.length (p :: ps) =
      namesFrom templates .outside a.getLast? (offset + Text.byteSize a)
          (p.takeWhile fun c => c != '$' && c != '=') ++
        parameterNames templates ⟨offset, a ++ (p ++ y)⟩ (a.length + p.length + 1) ps := by
  have htake : (p ++ y).take (runLength (fun c => c != '$' && c != '=') p) =
      p.takeWhile fun c => c != '$' && c != '=' := by
    rw [runLength, List.take_append_of_le_length (List.takeWhile_prefix _).length_le]
    exact (List.prefix_iff_eq_take.mp (List.takeWhile_prefix _)).symm
  rw [parameterNames, namesBetween_length, htake]

variable {rename : Text → Text}

/-- The names of a method are filled where those of its result and those of its parameters are. -/
theorem IsSignature.filled {x x' y result' : Text} (h : IsSignature t result name blanks (x ++ y))
    (harguments : arguments (x ++ y) = x)
    (hresult : Filled rename (offset + Text.byteSize a)
      (namesFrom templates .outside a.getLast? (offset + Text.byteSize a) result) result result')
    (hparameters : Filled rename (offset + Text.byteSize (a ++ (result ++ (name ++ blanks)) ++ ['(']))
      (parameterNames templates ⟨offset, (a ++ (result ++ (name ++ blanks)) ++ ['(']) ++ (x ++ y)⟩
        (a ++ (result ++ (name ++ blanks)) ++ ['(']).length (x.splitOn ',')) x x') :
    Filled rename offset (DocComment.methodNames templates ⟨offset, a ++ t⟩ a.length) (a ++ t)
      (a ++ ((result' ++ (name ++ blanks)) ++ '(' :: (x' ++ y))) := by
  rw [h.methodNames, harguments, h.text]
  refine Filled.before _ ?_
  have hcut (r z : Text) : (r ++ (name ++ blanks)) ++ '(' :: z = r ++ ((name ++ blanks) ++ (['('] ++ z)) := by
    simp
  rw [hcut result, hcut result']
  refine hresult.append (.before _ (.before ['('] (.behind ?_ y)))
  simp only [Text.byteSize_append, ← Nat.add_assoc] at hparameters ⊢
  exact hparameters

/-- The names of a parameter in full. -/
theorem parameter_filled (hr : WritesInFull rename) (templates : List Text) (before? : Option Char)
    (offset : Nat) (p : Text) : ∃ q, Retold p q ∧
      Filled rename offset
        (namesFrom templates .outside before? offset (p.takeWhile fun c => c != '$' && c != '=')) p q ∧
      ∀ offset', ∀ r ∈ namesFrom templates .outside before? offset'
        (q.takeWhile fun c => c != '$' && c != '='), isWrittenInFull r.name := by
  obtain ⟨type, y, rfl, htype, hstop⟩ := exists_run (fun c => c != '$' && c != '=') p
  obtain ⟨type', hfilled, hretold, hfull⟩ := namesFrom_filled hr templates (Or.inl rfl) before? before?
    offset type (Or.inl rfl)
  have htype' : ∀ c ∈ type', (c != '$' && c != '=') = true := by
    intro c hc
    rw [Bool.and_eq_true, bne_iff_ne, bne_iff_ne]
    constructor <;> rintro rfl
    · exact absurd (htype '$' (hretold.mem_of_not_sign (by decide) hc)) (by decide)
    · exact absurd (htype '=' (hretold.mem_of_not_sign (by decide) hc)) (by decide)
  refine ⟨type' ++ y, hretold.append (.refl y), ?_, fun offset' => ?_⟩
  · rw [takeWhile_append htype hstop]
    exact hfilled.behind y
  · rw [takeWhile_append htype' hstop]
    exact hfull offset'

/-- The names of parameters in full. -/
theorem parameters_filled (hr : WritesInFull rename) (templates : List Text) (offset : Nat) (a : Text)
    {ps : List Text} (hne : ps ≠ []) (y : Text) : ∃ qs, qs ≠ [] ∧ (∀ q ∈ qs, ∃ p ∈ ps, Retold p q) ∧
      Retold (Text.join [','] ps) (Text.join [','] qs) ∧
      Filled rename (offset + Text.byteSize a)
        (parameterNames templates ⟨offset, a ++ (Text.join [','] ps ++ y)⟩ a.length ps)
        (Text.join [','] ps) (Text.join [','] qs) ∧
      ∀ offset' a', a'.getLast? = a.getLast? → ∀ r ∈ parameterNames templates
        ⟨offset', a' ++ (Text.join [','] qs ++ y)⟩ a'.length qs, isWrittenInFull r.name := by
  induction ps generalizing a with
  | nil => exact absurd rfl hne
  | cons p ps ih =>
    obtain ⟨q, hretold, hfilled, hfull⟩ :=
      parameter_filled hr templates a.getLast? (offset + Text.byteSize a) p
    by_cases hps : ps = []
    · subst hps
      refine ⟨[q], List.cons_ne_nil _ _, ?_, ?_, ?_, fun offset' a' ha => ?_⟩
      · rw [List.forall_mem_singleton]
        exact ⟨p, List.mem_cons_self, hretold⟩
      · rwa [Text.join_singleton, Text.join_singleton]
      · rw [Text.join_singleton, Text.join_singleton, parameterNames_cons, parameterNames, List.append_nil]
        exact hfilled
      · rw [Text.join_singleton, parameterNames_cons, parameterNames, List.append_nil, ha]
        exact hfull _
    · have hcut (x : Text) (z : Text) : x ++ (z ++ ',' :: (Text.join [','] ps ++ y)) =
          (x ++ z ++ [',']) ++ (Text.join [','] ps ++ y) := by simp
      have hlength (x z : Text) : x.length + z.length + 1 = (x ++ z ++ [',']).length := by simp; omega
      obtain ⟨qs, hqs, hall, hretolds, hfilleds, hfulls⟩ := ih (a ++ p ++ [',']) hps
      refine ⟨q :: qs, List.cons_ne_nil _ _, ?_, ?_, ?_, fun offset' a' ha => ?_⟩
      · refine List.forall_mem_cons.mpr ⟨⟨p, List.mem_cons_self, hretold⟩, fun q' hq' => ?_⟩
        obtain ⟨p', hp', hsame⟩ := hall q' hq'
        exact ⟨p', List.mem_cons_of_mem p hp', hsame⟩
      · rw [Text.join_cons _ _ hps, Text.join_cons _ _ hqs]
        exact hretold.append (.cons ',' hretolds)
      · rw [Text.join_cons _ _ hps, Text.join_cons _ _ hqs, List.append_assoc, List.cons_append,
          parameterNames_cons, hlength, hcut]
        refine hfilled.append (.before [','] ?_)
        rw [Text.byteSize_append, Text.byteSize_append, ← Nat.add_assoc, ← Nat.add_assoc] at hfilleds
        exact hfilleds
      · rw [Text.join_cons _ _ hqs, List.append_assoc, List.cons_append, parameterNames_cons, ha]
        refine List.forall_mem_append.mpr ⟨hfull _, ?_⟩
        have hlater := hfulls offset' (a' ++ q ++ [',']) (by simp)
        rw [hlength]
        simpa using hlater

/-- The blank before the name of the method that a line declares. -/
def methodBlank? (t : Text) : Option Char := do
  let place ← tagPlace? ⟨0, t⟩
  let behind := t.drop (place + 1)
  let parts ← Text.splitAtFirst? '(' (behind.dropWhile isTagSign)
  if normalizeTag (behind.takeWhile isTagSign) = "method" then
    ((Text.trimEnd isBlank parts.1).reverse.dropWhile (!isBlank ·)).head?
  else none

theorem IsTagLine.methodBlank? {result name blanks inside : Text} (h : IsTagLine t before tag rest)
    (hmethod : normalizeTag tag = "method") (hsignature : IsSignature rest result name blanks inside) :
    DocComment.methodBlank? t = result.getLast? := by
  have hsplit : Text.splitAtFirst? '(' rest = some (result ++ (name ++ blanks), inside) := by
    rw [hsignature.text]
    exact Text.splitAtFirst?_append hsignature.opener inside
  rw [DocComment.methodBlank?, h.tagPlace?, Option.bind_eq_bind, Option.bind_some]
  dsimp only
  rw [h.takeWhile_tag, h.drop_place, dropWhile_append h.tag h.stop, hsplit, Option.bind_eq_bind,
    Option.bind_some, if_pos hmethod, hsignature.head, List.head?_reverse]

theorem methodNames_of_not_mem (h : '(' ∉ t) : methodNames templates ⟨offset, a ++ t⟩ a.length = [] := by
  have hall : ∀ c ∈ t, (!c == '(') = true := fun c hc => by simpa using ne_of_mem_of_not_mem hc h
  have hrun : runLength (fun c => !c == '(') t = t.length := by
    rw [runLength, List.takeWhile_eq_self_iff.mpr hall]
  have hnone : (⟨offset, a ++ t⟩ : Line).find (· == '(') a.length = (a ++ t).length := by
    rw [Line.find, List.drop_left, hrun]
    exact List.length_append.symm
  rw [methodNames, hnone]
  exact if_pos (Nat.le_refl _)

theorem IsTagLine.references_method (h : IsTagLine t before tag rest) (htag : ¬ isAnnotation tag)
    (hmethod : normalizeTag tag = "method") : lineReferences templates ⟨offset, t⟩ =
      methodNames templates ⟨offset, (before ++ '@' :: tag) ++ rest⟩ (before ++ '@' :: tag).length := by
  rw [← h.text]
  exact h.references.trans ((if_neg htag).trans (if_pos hmethod))

theorem IsTagLine.method_filled (hr : WritesInFull rename) (h : IsTagLine t before tag rest) (htag : ¬ isAnnotation tag)
    (hmethod : normalizeTag tag = "method") (hblank : ∀ c ∈ DocComment.methodBlank? t, isNameChar c = false) :
    ∃ u, LineFilled rename templates offset t u := by
  have htemplate : normalizeTag tag ∉ templateTags := by
    rw [hmethod]
    decide
  have hne : tag ≠ [] := by
    rintro rfl
    cases hmethod
  have hread {t rest : Text} (h : IsTagLine t before tag rest) (offset : Nat) :
      lineReferences templates ⟨offset, t⟩ =
        methodNames templates ⟨offset, (before ++ '@' :: tag) ++ rest⟩ (before ++ '@' :: tag).length :=
    h.references_method htag hmethod
  by_cases hopener : '(' ∈ rest
  · obtain ⟨result, name, blanks, inside, hsignature⟩ := exists_signature hopener
    obtain ⟨x, y, rfl, harguments⟩ := exists_arguments inside
    obtain ⟨result', hfilled, hretold, hfull⟩ := namesFrom_filled hr templates (Or.inl rfl)
      (before ++ '@' :: tag).getLast? (before ++ '@' :: tag).getLast?
      (offset + Text.byteSize (before ++ '@' :: tag)) result (Or.inl rfl)
    obtain ⟨qs, hqs, hall, hretolds, hfilleds, hfulls⟩ := parameters_filled hr templates offset
      (before ++ '@' :: tag ++ (result ++ (name ++ blanks)) ++ ['(']) (List.splitOn_ne_nil ',' x) y
    rw [Text.join_splitOn] at hretolds hfilleds
    have hnew : arguments (Text.join [','] qs ++ y) = Text.join [','] qs :=
      harguments _ (hretolds.mem_of_not_sign (by decide))
    have hparts : (Text.join [','] qs).splitOn ',' = qs := by
      refine Text.splitOn_join (fun q hq hmem => ?_) hqs
      obtain ⟨p, hp, hsame⟩ := hall q hq
      exact splitOn_not_mem ',' x p hp (hsame.mem_of_not_sign (by decide) hmem)
    have hrest : Retold rest ((result' ++ (name ++ blanks)) ++ '(' :: (Text.join [','] qs ++ y)) := by
      rw [hsignature.text]
      exact (hretold.append (.refl _)).append (.cons '(' (hretolds.append (.refl y)))
    have hsignature' : IsSignature ((result' ++ (name ++ blanks)) ++ '(' :: (Text.join [','] qs ++ y))
        result' name blanks (Text.join [','] qs ++ y) := by
      refine ⟨rfl, ?_, ?_, ?_, hsignature.name, hsignature.blanks⟩
      · rw [List.mem_append]
        rintro (hmem | hmem)
        · exact hsignature.opener (List.mem_append_left _ (hretold.mem_of_not_sign (by decide) hmem))
        · exact hsignature.opener (List.mem_append_right _ hmem)
      · intro hname
        have hnone := hsignature.bare hname
        subst hnone
        cases hretold
        rfl
      · rcases List.eq_nil_or_concat result with rfl | ⟨r, b, rfl⟩
        · cases hretold
          exact fun _ hc => absurd hc (by simp)
        · rw [List.concat_eq_append] at hretold
          have hlast : b ∈ (r.concat b).getLast? := by simp
          have hsign : ¬IsNameSign b := by
            rintro (hname | rfl)
            · rw [hblank b (by rw [h.methodBlank? hmethod hsignature]; exact hlast)] at hname
              cases hname
            · exact absurd (hsignature.result _ hlast) (by decide)
          obtain ⟨v, rfl, -⟩ := hretold.concat hsign
          rw [List.getLast?_concat]
          rintro c ⟨⟩
          exact hsignature.result b hlast
    have hgrow := h.retold htag hne hrest
    refine ⟨(before ++ '@' :: tag) ++ ((result' ++ (name ++ blanks)) ++ '(' :: (Text.join [','] qs ++ y)),
      ?_, ?_, fun offset' => ?_, ?_⟩
    · rw [hread h, h.text]
      exact hsignature.filled (harguments x id) hfilled hfilleds
    · rw [h.text]
      exact hrest.before _
    · rcases hgrow with hline | hgrown
      · rw [hread hline, hsignature'.methodNames, hnew, hparts]
        refine List.forall_mem_append.mpr ⟨hfull _, ?_⟩
        exact hfulls offset' _ (by rw [List.getLast?_concat, List.getLast?_concat])
      · rw [hgrown.1]
        exact List.forall_mem_nil _
    · rw [h.templateIn_eq_none htemplate]
      rcases hgrow with hline | hgrown
      · exact hline.templateIn_eq_none htemplate
      · exact hgrown.2
  · refine ⟨t, .same fun offset => ?_⟩
    rw [hread h, methodNames_of_not_mem hopener]

end Signatures

end DocComment
end NamespaceMigration
