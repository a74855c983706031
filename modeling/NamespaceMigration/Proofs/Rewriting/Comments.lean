import NamespaceMigration.Adaptation.Qualified
import NamespaceMigration.Proofs.Lexing.Respelling
import NamespaceMigration.Proofs.Rewriting.Edits

/-! The names in comments. Each is a slice of its comment that stands after the sign of a tag, so a
comment that gets other names is still a comment. -/
namespace NamespaceMigration
namespace Lexer

theorem take_nameLength_all (t : Text) : ∀ c ∈ t.take (nameLength t), isNameChar c ∨ c = '\\' := by
  induction t with
  | nil => simp
  | cons c t ih =>
    rw [nameLength]
    split_ifs with h1 h2
    · rw [Nat.add_comm, List.take_succ_cons, List.forall_mem_cons]
      exact ⟨Or.inl h1, ih⟩
    · rw [Nat.add_comm, List.take_succ_cons, List.forall_mem_cons]
      exact ⟨Or.inr h2.1, ih⟩
    · simp

theorem isWord_of_forall {t : Text} (hne : t ≠ []) (h : ∀ c ∈ t, isNameChar c ∨ c = '\\') :
    IsWord t := by
  refine ⟨hne, fun c hc => ?_⟩
  have := h c hc
  refine ⟨?_, ?_, ?_⟩ <;> rintro rfl <;> revert this <;> decide

theorem IsName.isWord {t : Text} (h : IsName t) : IsWord t := by
  have hall := take_nameLength_all t
  rw [h.2, List.take_length] at hall
  exact isWord_of_forall h.ne_nil hall

theorem nameKind_ne_docComment (last : Option TokenKind) (name : Text) :
    nameKind last name ≠ .docComment := by
  intro h
  exact absurd (h ▸ nameKind_mem last name) (show .docComment ∉ Word.kinds by decide)

theorem afterSymbol_docComment {e : Text × TokenKind} (he : e ∈ symbols) {t : Text}
    (h : (afterSymbol e.1 e.2 t).1 = .docComment) :
    isDocComment ((e.1 ++ t).take (afterSymbol e.1 e.2 t).2) := by
  have hsymbols : ∀ e ∈ symbols, e.2 ≠ .docComment := by decide
  unfold afterSymbol at h ⊢
  split at h
  · split at h <;> cases h
  · cases h
  · dsimp only at h ⊢
    split at h
    · assumption
    · cases h
  · unfold afterQuestion at h
    split at h <;> cases h
  · split at h <;> cases h
  · split at h <;> cases h
  · split at h
    · unfold afterDot at h
      split at h <;> try cases h
      split at h <;> cases h
    · exact absurd h (hsymbols e he)

theorem scanCode_docComment {last : Option TokenKind} {t : Text}
    (h : (scanCode last t).1 = .docComment) : isDocComment (t.take (scanCode last t).2) := by
  cases t with
  | nil => cases h
  | cons c t =>
    rw [scanCode] at h ⊢
    split_ifs at h ⊢
    · exact absurd h (nameKind_ne_docComment _ _)
    · split at h <;> cases h
    · split at h
      · rename_i symbol kind hfind
        have hdoc := afterSymbol_docComment (List.mem_of_find?_eq_some hfind) h
        obtain ⟨r, hr⟩ : symbol <+: c :: t := by
          simpa [Text.startsWith] using List.find?_some hfind
        rw [← hr] at hdoc ⊢
        simpa using hdoc
      · cases h

theorem Lexes.isDocComment {s : State} {ps : List Piece} (h : Lexes s ps) {text : Text}
    (hmem : (TokenKind.docComment, text) ∈ ps) : Lexer.isDocComment text := by
  induction h with
  | nil => cases hmem
  | @cons s kind w ps _ hscan _ ih =>
    rcases List.mem_cons.mp hmem with heq | hmem
    · cases heq
      have hkind : (s.scan (text ++ Piece.print ps)).1 = .docComment := by rw [hscan]
      have hmode := State.mode_of_scan (Or.inr hkind)
      rw [State.scan_of_code hmode] at hkind hscan
      have hdoc := scanCode_docComment hkind
      rw [hscan] at hdoc
      simpa using hdoc
    · exact ih hmem

theorem docComment_shape {t text : Text} (h : (TokenKind.docComment, text) ∈ pieces t) :
    ∃ c u, isBlank c ∧ text = '/' :: '*' :: '*' :: c :: u := by
  have hdoc := (lexes_pieces t).isDocComment h
  rw [isDocComment, Bool.and_eq_true, Bool.and_eq_true] at hdoc
  obtain ⟨⟨-, hstart⟩, hblank⟩ := hdoc
  obtain ⟨rest, rfl⟩ : "/**".toList <+: text := by simpa [Text.startsWith] using hstart
  cases rest with
  | nil => cases hblank
  | cons c u => exact ⟨c, u, hblank, rfl⟩

end Lexer

namespace DocReference

/-- The reference is a slice of a text that begins at `offset`, not before the place `start`. -/
def IsSlice (r : DocReference) (offset : Nat) (t : Text) (start : Nat) : Prop :=
  ∃ a b, t = a ++ r.name ++ b ∧ start ≤ a.length ∧
    r.range = ⟨offset + Text.byteSize a, offset + Text.byteSize a + Text.byteSize r.name⟩

namespace IsSlice

variable {r : DocReference} {offset start : Nat} {t : Text}

theorem mono {start' : Nat} (h : r.IsSlice offset t start) (hle : start' ≤ start) :
    r.IsSlice offset t start' := by
  obtain ⟨a, b, ht, hstart, hrange⟩ := h
  exact ⟨a, b, ht, by omega, hrange⟩

theorem append {x y : Text} (h : r.IsSlice (offset + Text.byteSize x) t start) :
    r.IsSlice offset (x ++ t ++ y) (x.length + start) := by
  obtain ⟨a, b, rfl, hstart, hrange⟩ := h
  refine ⟨x ++ a, b ++ y, by simp, by rw [List.length_append]; omega, ?_⟩
  rw [hrange, Text.byteSize_append, Nat.add_assoc offset]

theorem cons {c : Char} (h : r.IsSlice (offset + c.utf8Size) t start) :
    r.IsSlice offset (c :: t) start := by
  obtain ⟨a, b, rfl, hstart, hrange⟩ := h
  refine ⟨c :: a, b, rfl, by rw [List.length_cons]; omega, ?_⟩
  rw [hrange, Text.byteSize, Nat.add_assoc offset]

end IsSlice
end DocReference

namespace DocComment

open Lexer (IsWord nameLength)

theorem namesFrom_slice {templates : List Text} {state : NameState} {before? : Option Char}
    {offset : Nat} {t : Text} :
    ∀ r ∈ namesFrom templates state before? offset t, r.IsSlice offset t 0 ∧ IsWord r.name := by
  induction t generalizing state before? offset with
  | nil => cases state <;> simp [namesFrom]
  | cons c t ih =>
    have hlater {state : NameState} {before? : Option Char} :
        ∀ r ∈ namesFrom templates state before? (offset + c.utf8Size) t,
          r.IsSlice offset (c :: t) 0 ∧ IsWord r.name := by
      intro r hr
      have := ih r hr
      exact ⟨this.1.cons, this.2⟩
    have hhere : ∀ r ∈ namesFrom templates .outside before? offset (c :: t),
        r.IsSlice offset (c :: t) 0 ∧ IsWord r.name := by
      unfold namesFrom
      dsimp only
      split_ifs with hquote hstart hname
      · exact hlater
      · rw [List.forall_mem_cons]
        refine ⟨⟨⟨[], (c :: t).drop (nameLength (c :: t)), ?_, Nat.le_refl _, rfl⟩, ?_⟩, hlater⟩
        · rw [List.nil_append, List.take_append_drop]
        · refine Lexer.isWord_of_forall ?_ (Lexer.take_nameLength_all _)
          have hpos : nameLength (c :: t) ≠ 0 := by
            rw [Ne, Lexer.nameLength_cons_eq_zero_iff]
            rintro ⟨h1, h2⟩
            rcases hstart with hc | hc
            · rw [Lexer.isNameChar_of_isNameStart hc] at h1
              cases h1
            · exact h2 hc
          intro hnil
          rw [List.take_eq_nil_iff] at hnil
          exact hnil.elim hpos (List.cons_ne_nil c t)
      · exact hlater
      · exact hlater
    match state with
    | .quoted quote =>
      rw [namesFrom]
      exact hlater
    | .name (left + 1) =>
      rw [namesFrom]
      exact hlater
    | .name 0 => exact hhere
    | .outside => exact hhere

theorem nestedAnnotations_slice {offset : Nat} {t : Text} :
    ∀ r ∈ nestedAnnotations offset t, r.IsSlice offset t 0 ∧ IsWord r.name := by
  induction t generalizing offset with
  | nil => simp [nestedAnnotations]
  | cons c t ih =>
    have hlater : ∀ r ∈ nestedAnnotations (offset + c.utf8Size) t,
        r.IsSlice offset (c :: t) 0 ∧ IsWord r.name := fun r hr => ⟨(ih r hr).1.cons, (ih r hr).2⟩
    rw [nestedAnnotations]
    split_ifs with h
    · rw [List.forall_mem_cons]
      refine ⟨⟨⟨[c], t.drop (nameLength t), ?_, Nat.zero_le _, rfl⟩, ?_⟩, hlater⟩
      · rw [List.append_assoc, List.take_append_drop]
        rfl
      · refine Lexer.isWord_of_forall ?_ (Lexer.take_nameLength_all t)
        intro hnil
        change t.take (nameLength t) = [] at hnil
        rw [hnil] at h
        cases h.2
    · exact hlater

/-- A name of a line that stands not before a place. -/
def InLine (l : Line) (place : Nat) (r : DocReference) : Prop :=
  r.IsSlice l.offset l.text place ∧ IsWord r.name

theorem InLine.mono {l : Line} {place place' : Nat} {r : DocReference} (h : InLine l place r)
    (hle : place' ≤ place) : InLine l place' r := ⟨h.1.mono hle, h.2⟩

theorem namesBetween_inLine {templates : List Text} {l : Line} {start stop : Nat} :
    ∀ r ∈ namesBetween templates l start stop, InLine l start r := by
  intro r hr
  rw [namesBetween] at hr
  obtain ⟨hslice, hword⟩ := namesFrom_slice r hr
  refine ⟨?_, hword⟩
  have hne : ((l.text.take stop).drop start) ≠ [] := by
    obtain ⟨a, b, ht, -⟩ := hslice
    rw [ht]
    simp [hword.1]
  have hlen := List.length_pos_of_ne_nil hne
  rw [List.length_drop, List.length_take] at hlen
  have hsplit : l.text = l.text.take start ++ (l.text.take stop).drop start ++ l.text.drop stop := by
    have htake : l.text.take start = (l.text.take stop).take start := by
      rw [List.take_take, Nat.min_eq_left (by omega)]
    rw [htake, List.take_append_drop, List.take_append_drop]
  rw [hsplit]
  refine (DocReference.IsSlice.append hslice).mono ?_
  rw [List.length_take]
  omega

theorem parameterNames_inLine {templates : List Text} {l : Line} {start : Nat}
    {parameters : List Text} : ∀ r ∈ parameterNames templates l start parameters, InLine l start r := by
  induction parameters generalizing start with
  | nil => simp [parameterNames]
  | cons parameter rest ih =>
    rw [parameterNames, List.forall_mem_append]
    exact ⟨namesBetween_inLine, fun r hr => (ih r hr).mono (by omega)⟩

theorem methodNames_inLine {templates : List Text} {l : Line} {afterTag : Nat} :
    ∀ r ∈ methodNames templates l afterTag, InLine l afterTag r := by
  unfold methodNames
  dsimp only
  split
  · simp
  · rw [List.forall_mem_append]
    refine ⟨namesBetween_inLine, fun r hr => (parameterNames_inLine r hr).mono ?_⟩
    rw [Line.find]
    omega

theorem le_templateBound {l : Line} {afterTag bound : Nat} (h : templateBound? l afterTag = some bound) :
    afterTag ≤ bound := by
  unfold templateBound? at h
  dsimp only at h
  split at h
  · split at h
    · cases h
      simp only [Line.skipBlanks, Line.skipWord]
      omega
    · cases h
  · cases h

/-- The names of a line stand after the sign of its tag. -/
theorem lineReferences_inLine {templates : List Text} {l : Line} {place : Nat}
    (hplace : tagPlace? l = some place) :
    ∀ r ∈ lineReferences templates l, InLine l (place + 1) r := by
  unfold lineReferences
  rw [hplace]
  dsimp only
  generalize htag : (l.text.drop (place + 1)).takeWhile
    (fun c => isAlphanumeric c || c == '_' || c == '\\' || c == '-') = tag
  split_ifs with hannotation hmethod htemplate htyped hlink
  · have htake : (l.text.drop (place + 1)).take tag.length = tag := by
      rw [← htag]
      exact (List.prefix_iff_eq_take.mp (List.takeWhile_prefix _)).symm
    have hne : tag ≠ [] := by
      rintro rfl
      cases hannotation
    have hlen : place + 1 + tag.length ≤ l.text.length := by
      have htaken := congrArg List.length htake
      have hpos := List.length_pos_of_ne_nil hne
      rw [List.length_take, List.length_drop] at htaken
      omega
    have hsplit : l.text.take (place + 1 + tag.length) = l.text.take (place + 1) ++ tag := by
      rw [List.take_add, htake]
    rw [List.forall_mem_cons]
    refine ⟨⟨⟨l.text.take (place + 1), l.text.drop (place + 1 + tag.length), ?_, ?_, ?_⟩, hne, ?_⟩, ?_⟩
    · rw [← hsplit, List.take_append_drop]
    · rw [List.length_take]
      omega
    · rw [Line.offsetAt, Line.offsetAt, hsplit, Text.byteSize_append, Nat.add_assoc]
    · intro c hc
      rw [← htag] at hc
      have := List.all_eq_true.mp List.all_takeWhile c hc
      refine ⟨?_, ?_, ?_⟩ <;> rintro rfl <;> revert this <;> decide
    · intro r hr
      obtain ⟨hslice, hword⟩ := nestedAnnotations_slice r hr
      refine ⟨?_, hword⟩
      have happ := DocReference.IsSlice.append (y := []) hslice
      rw [List.append_nil, List.take_append_drop] at happ
      refine happ.mono ?_
      rw [List.length_take]
      omega
  · exact fun r hr => (methodNames_inLine r hr).mono (by omega)
  · split
    · rename_i bound hbound
      have := le_templateBound hbound
      exact fun r hr => (namesBetween_inLine r hr).mono (by omega)
    · simp
  · simp
  · refine fun r hr => (namesBetween_inLine r hr).mono ?_
    rw [Line.skipBlanks]
    omega
  · simp

theorem linesFrom_slice {offset : Nat} {current t : Text} :
    ∀ l ∈ linesFrom offset current t, ∃ a b, current.reverse ++ t = a ++ l.text ++ b ∧
      l.offset = offset + Text.byteSize a := by
  induction t generalizing offset current with
  | nil =>
    rw [linesFrom]
    split
    · simp
    · rw [List.forall_mem_singleton]
      exact ⟨[], [], by simp, rfl⟩
  | cons c t ih =>
    rw [linesFrom]
    split
    · rw [List.forall_mem_cons]
      refine ⟨⟨[], t, by simp, rfl⟩, fun l hl => ?_⟩
      obtain ⟨a, b, ht, hoffset⟩ := ih l hl
      refine ⟨(c :: current).reverse ++ a, b, ?_, ?_⟩
      · rw [List.reverse_nil, List.nil_append] at ht
        rw [ht]
        simp
      · rw [hoffset, Text.byteSize_append, Nat.add_assoc]
    · intro l hl
      obtain ⟨a, b, ht, hoffset⟩ := ih l hl
      exact ⟨a, b, by rw [← ht]; simp, hoffset⟩

theorem trimEnd_prefix (p : Char → Bool) (t : Text) : Text.trimEnd p t <+: t := by
  rw [Text.trimEnd, ← List.reverse_suffix, List.reverse_reverse]
  exact List.dropWhile_suffix p

theorem lines_slice {comment : Text} : ∀ l ∈ lines comment, ∃ a b, comment = a ++ l.text ++ b ∧
    l.offset = Text.byteSize a := by
  intro l hl
  obtain ⟨l', hl', rfl⟩ := List.mem_map.mp hl
  obtain ⟨a, b, ht, hoffset⟩ := linesFrom_slice l' hl'
  obtain ⟨u, hu⟩ := trimEnd_prefix (fun c => c == '\n' || c == '\r') l'.text
  refine ⟨a, u ++ b, ?_, by rw [hoffset, Nat.zero_add]⟩
  rw [List.reverse_nil, List.nil_append, ← hu] at ht
  rw [ht]
  simp

/-- Every reference of a comment is a slice of it that is a word, after the sign of a tag. -/
theorem references_slice {comment : Text} : ∀ r ∈ references comment, IsWord r.name ∧
    ∃ a b, comment = a ++ r.name ++ b ∧ '@' ∈ a ∧
      r.range = ⟨Text.byteSize a, Text.byteSize a + Text.byteSize r.name⟩ := by
  intro r hr
  rw [references, List.mem_flatMap] at hr
  obtain ⟨l, hl, hr⟩ := hr
  cases hplace : tagPlace? l with
  | none =>
    rw [lineReferences, hplace] at hr
    cases hr
  | some place =>
    obtain ⟨⟨a, b, hline, hstart, hrange⟩, hword⟩ := lineReferences_inLine hplace r hr
    obtain ⟨x, y, hcomment, hoffset⟩ := lines_slice l hl
    have hsign : l.text[place]? = some '@' := by
      rw [tagPlace?] at hplace
      split at hplace
      · cases hplace
        assumption
      · cases hplace
    refine ⟨hword, x ++ a, b ++ y, ?_, ?_, ?_⟩
    · rw [hcomment, hline]
      simp
    · rw [hline, List.append_assoc, List.getElem?_append_left (by omega)] at hsign
      exact List.mem_append_right x (List.mem_of_getElem? hsign)
    · rw [hrange, hoffset, Text.byteSize_append]

end DocComment

namespace TextEdit

open Lexer (IsWord Reworded)

/-- An edit that puts a word in the place of a word. -/
def OfWord (e : TextEdit) (t : Text) : Prop :=
  ∃ a x b, t = a ++ x ++ b ∧ IsWord x ∧ IsWord e.text ∧
    e.range = ⟨Text.byteSize a, Text.byteSize a + Text.byteSize x⟩

theorem eq_append_of_byteSize_le {u v a b : Text} (h : u ++ v = a ++ b)
    (hle : Text.byteSize u ≤ Text.byteSize a) : ∃ c, a = u ++ c ∧ v = c ++ b := by
  rcases List.append_eq_append_iff.mp h with ⟨c, ha, hv⟩ | ⟨c, hu, hb⟩
  · exact ⟨c, ha, hv⟩
  · rw [hu, Text.byteSize_append] at hle
    have := Text.length_le_byteSize c
    obtain rfl : c = [] := List.eq_nil_of_length_eq_zero (by omega)
    exact ⟨[], by rw [hu, List.append_nil, List.append_nil], by simpa using hb.symm⟩

/-- An edit of a part that lies ahead replaces this part. -/
theorem applyFrom_ahead {t done left a old b : Text} (ht : t = done ++ left) {size : Nat}
    {e : TextEdit} (edits : List TextEdit) (hsplit : t = a ++ old ++ b)
    (hrange : e.range = ⟨Text.byteSize a, Text.byteSize a + Text.byteSize old⟩)
    (hstart : Text.byteSize done ≤ e.range.start) (hstop : e.range.stop ≤ size) :
    ∃ c, a = done ++ c ∧ left = c ++ old ++ b ∧
      applyFrom size (Text.byteSize done) left (e :: edits) =
        c ++ e.text ++ applyFrom size (Text.byteSize (done ++ c ++ old)) b edits := by
  have hskip : ¬(e.range.start < Text.byteSize done ∨ size < e.range.stop) := by omega
  rw [applyFrom, if_neg hskip]
  rw [hrange] at hstart ⊢
  rw [ht, List.append_assoc] at hsplit
  obtain ⟨c, rfl, rfl⟩ := eq_append_of_byteSize_le hsplit hstart
  refine ⟨c, rfl, (List.append_assoc c old b).symm, ?_⟩
  dsimp only
  rw [Text.byteSize_append, Nat.add_sub_cancel_left, Text.splitAtByte_byteSize,
    Nat.add_sub_cancel_left, Text.splitAtByte_byteSize, Text.byteSize_append, Text.byteSize_append]

theorem applyFrom_reworded {t done left : Text} (ht : t = done ++ left) (size : Nat)
    {edits : List TextEdit} (h : ∀ e ∈ edits, e.OfWord t) :
    Reworded left (applyFrom size (Text.byteSize done) left edits) := by
  induction edits generalizing done left with
  | nil => exact .refl left
  | cons e edits ih =>
    rw [List.forall_mem_cons] at h
    by_cases hskip : e.range.start < Text.byteSize done ∨ size < e.range.stop
    · rw [applyFrom, if_pos hskip]
      exact ih ht h.2
    · obtain ⟨a, x, b, hsplit, hx, hy, hrange⟩ := h.1
      rw [not_or, Nat.not_lt, Nat.not_lt] at hskip
      obtain ⟨c, rfl, rfl, happly⟩ := applyFrom_ahead ht edits hsplit hrange hskip.1 hskip.2
      rw [happly, List.append_assoc, List.append_assoc]
      exact Reworded.append c (.word hx hy (ih hsplit h.2))

end TextEdit

namespace Token

open Lexer (IsWord Reworded)

/-- A comment that documents something still does so with other names in it. -/
theorem docEdits_reworded {comment : Token} {c : Char} {u : Text} (hc : isBlank c)
    (htext : comment.text = '/' :: '*' :: '*' :: c :: u) {rename : Text → Option Text}
    (hrename : ∀ name new, rename name = some new → IsWord name → IsWord new) :
    ∃ v, TextEdit.applyAll (comment.docEdits rename) comment.text = '/' :: '*' :: '*' :: c :: v ∧
      Reworded u v := by
  let first : Text := ['/', '*', '*', c]
  have hsplit : comment.text = first ++ u := htext
  have hedits : ∀ e ∈ comment.docEdits rename, e.OfWord comment.text ∧
      Text.byteSize first ≤ e.range.start := by
    intro e he
    obtain ⟨r, hr, hnew⟩ := List.mem_filterMap.mp he
    obtain ⟨new, hrenamed, rfl⟩ := Option.map_eq_some_iff.mp hnew
    obtain ⟨hword, a, b, hcomment, hsign, hrange⟩ := DocComment.references_slice r hr
    refine ⟨⟨a, r.name, b, hcomment, hword, hrename _ _ hrenamed hword, hrange⟩, ?_⟩
    -- The sign is none of the first characters.
    have hfirst : '@' ∉ first := by
      simp only [first, List.mem_cons, List.not_mem_nil, not_or]
      refine ⟨by decide, by decide, by decide, ?_, id⟩
      rintro rfl
      cases hc
    rw [hsplit, List.append_assoc] at hcomment
    rw [hrange]
    rcases List.append_eq_append_iff.mp hcomment with ⟨d, rfl, -⟩ | ⟨d, hd, -⟩
    · rw [Text.byteSize_append]
      exact Nat.le_add_right _ _
    · rw [hd] at hfirst
      exact absurd (List.mem_append_left d hsign) hfirst
  have hsorted : ∀ e ∈ (comment.docEdits rename).mergeSort TextEdit.le, e.OfWord comment.text ∧
      Text.byteSize first ≤ e.range.start := fun e he => hedits e (List.mem_mergeSort.mp he)
  refine ⟨_, ?_, TextEdit.applyFrom_reworded hsplit (Text.byteSize comment.text)
    fun e he => (hsorted e he).1⟩
  rw [TextEdit.applyAll, hsplit, TextEdit.applyFrom_append, Nat.zero_add]
  · rfl
  · intro e he
    rw [Nat.zero_add]
    exact (hsorted e he).2

end Token
end NamespaceMigration
