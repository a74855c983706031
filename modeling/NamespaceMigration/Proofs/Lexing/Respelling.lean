import NamespaceMigration.Proofs.Lexing.Tags

/-! A text whose names are written in full, and whose comments have other words, has the same tokens
apart from these names and comments. -/
namespace NamespaceMigration
namespace Lexer

/-- A word inside a comment ends neither the comment nor a line. -/
def IsWord (t : Text) : Prop := t ≠ [] ∧ ∀ c ∈ t, c ≠ '*' ∧ c ≠ '/' ∧ c ≠ '\n'

/-- Two texts that have the same characters apart from some words. -/
inductive Reworded : Text → Text → Prop
  | nil : Reworded [] []
  | cons (c : Char) {u v : Text} : Reworded u v → Reworded (c :: u) (c :: v)
  | word {x y u v : Text} : IsWord x → IsWord y → Reworded u v → Reworded (x ++ u) (y ++ v)

namespace Reworded

theorem refl (t : Text) : Reworded t t := by
  induction t with
  | nil => exact .nil
  | cons c t ih => exact .cons c ih

theorem append (w : Text) {u v : Text} (h : Reworded u v) : Reworded (w ++ u) (w ++ v) := by
  induction w with
  | nil => exact h
  | cons c w ih => exact .cons c ih

theorem eq_nil_iff {u v : Text} (h : Reworded u v) : u = [] ↔ v = [] := by
  cases h with
  | nil => rfl
  | cons => simp
  | word hx hy => simp [hx.1, hy.1]

theorem newline {u v : Text} (h : Reworded u v) : '\n' ∈ v → '\n' ∈ u := by
  induction h with
  | nil => exact id
  | cons c _ ih => simpa using fun hv => hv.imp_right ih
  | word hx hy _ ih =>
    intro hv
    rw [List.mem_append] at hv ⊢
    rcases hv with hv | hv
    · exact absurd rfl (hy.2 _ hv).2.2
    · exact Or.inr (ih hv)

theorem symm {u v : Text} (h : Reworded u v) : Reworded v u := by
  induction h with
  | nil => exact .nil
  | cons c _ ih => exact .cons c ih
  | word hx hy _ ih => exact .word hy hx ih

theorem of_slash {u v : Text} (h : Reworded ('/' :: u) v) : ∃ v', v = '/' :: v' ∧ Reworded u v' := by
  generalize hs : '/' :: u = s at h
  cases h with
  | nil => cases hs
  | cons c h =>
    cases hs
    exact ⟨_, rfl, h⟩
  | @word x y u v hx =>
    obtain ⟨c, x, rfl⟩ := List.exists_cons_of_ne_nil hx.1
    cases hs
    exact absurd rfl (hx.2 '/' (by simp)).2.1

theorem splitFirst?_word {x : Text} (hx : IsWord x) (u : Text) :
    Text.splitFirst? "*/" (x ++ u) =
      (Text.splitFirst? "*/" u).map fun parts => (x ++ parts.1, parts.2) := by
  obtain ⟨-, hx⟩ := hx
  induction x with
  | nil => simp
  | cons c x ih =>
    have hc : '*' ≠ c := fun h => (hx c (by simp)).1 h.symm
    have hd : Text.dropLead? "*/" (c :: (x ++ u)) = none := if_neg hc
    rw [List.cons_append, Text.splitFirst?, hd, ih fun d hd => hx d (List.mem_cons_of_mem c hd),
      Option.map_map]
    rfl

/-- A comment that ends somewhere ends at the same place with other words. -/
theorem splitFirst?_eq_some {u v before after : Text} (h : Reworded u v)
    (hu : Text.splitFirst? "*/" u = some (before, after)) :
    ∃ before' after', Text.splitFirst? "*/" v = some (before', after') ∧ Reworded after after' := by
  induction h generalizing before with
  | nil => simp [Text.splitFirst?] at hu
  | @cons c u v h ih =>
    rw [Text.splitFirst?] at hu
    cases hd : Text.dropLead? "*/" (c :: u) with
    | some rest =>
      rw [hd] at hu
      obtain ⟨rfl, rfl⟩ := Prod.mk.inj (Option.some.inj hu)
      have hcu : c :: u = '*' :: '/' :: rest := Text.dropLead?_eq_some_iff.mp hd
      obtain ⟨rfl, rfl⟩ := List.cons.inj hcu
      obtain ⟨v', rfl, hv⟩ := h.of_slash
      exact ⟨[], v', rfl, hv⟩
    | none =>
      rw [hd] at hu
      obtain ⟨⟨b, a⟩, hs, he⟩ := Option.map_eq_some_iff.mp hu
      obtain ⟨rfl, rfl⟩ := Prod.mk.inj he
      obtain ⟨b', a', hs', ha⟩ := ih hs
      have hd' : Text.dropLead? "*/" (c :: v) = none := by
        rw [Option.eq_none_iff_forall_ne_some]
        intro rest hrest
        obtain ⟨rfl, rfl⟩ := List.cons.inj (Text.dropLead?_eq_some_iff.mp hrest)
        obtain ⟨u', rfl, -⟩ := h.symm.of_slash
        cases hd
      exact ⟨c :: b', a', by rw [Text.splitFirst?, hd', hs']; rfl, ha⟩
  | @word x y u v hx hy h ih =>
    rw [splitFirst?_word hx] at hu
    obtain ⟨⟨b, a⟩, hs, he⟩ := Option.map_eq_some_iff.mp hu
    obtain ⟨rfl, rfl⟩ := Prod.mk.inj he
    obtain ⟨b', a', hs', ha⟩ := ih hs
    exact ⟨y ++ b', a', by rw [splitFirst?_word hy, hs']; rfl, ha⟩

theorem splitFirst?_eq_none {u v : Text} (h : Reworded u v) (hu : Text.splitFirst? "*/" u = none) :
    Text.splitFirst? "*/" v = none := by
  rw [Option.eq_none_iff_forall_ne_some]
  rintro ⟨before, after⟩ hv
  obtain ⟨b, a, hs, -⟩ := h.symm.splitFirst?_eq_some hv
  rw [hs] at hu
  cases hu

/-- A comment that takes its whole text takes it with other words too. -/
theorem blockCommentLength {u v r r' : Text} (h : Reworded u v) (hr : r = [] → r' = [])
    (hu : blockCommentLength (u ++ r) = u.length) : blockCommentLength (v ++ r') = v.length := by
  unfold Lexer.blockCommentLength at hu ⊢
  cases hs : Text.splitFirst? "*/" (u ++ r) with
  | some parts =>
    obtain ⟨before, after⟩ := parts
    rw [hs] at hu
    dsimp only at hu
    obtain ⟨after₁, hs₁⟩ := splitFirst?_append u hs (by change before.length + 2 ≤ u.length; omega) []
    rw [List.append_nil] at hs₁
    have hlen₁ := congrArg List.length (Text.splitFirst?_append hs₁)
    have htwo : ("*/" : Text).length = 2 := rfl
    rw [List.length_append, List.length_append, htwo] at hlen₁
    obtain rfl : after₁ = [] := List.eq_nil_of_length_eq_zero (by omega)
    obtain ⟨before', after', hs', ha⟩ := h.splitFirst?_eq_some hs₁
    obtain rfl := ha.eq_nil_iff.mp rfl
    have hlen' := congrArg List.length (Text.splitFirst?_append hs')
    rw [List.length_append, List.length_append, htwo, List.length_nil] at hlen'
    obtain ⟨after₂, hs₂⟩ := splitFirst?_append (r := []) v (by rw [List.append_nil]; exact hs')
      (by rw [htwo]; omega) r'
    rw [hs₂]
    dsimp only
    omega
  | none =>
    rw [hs] at hu
    dsimp only at hu
    rw [List.length_append] at hu
    obtain rfl : r = [] := List.eq_nil_of_length_eq_zero (by omega)
    rw [List.append_nil] at hs
    rw [hr rfl, List.append_nil, h.splitFirst?_eq_none hs]

end Reworded

/-- How one piece comes in the place of another: as it is, as a name in full in the place of a name, or
as a comment with other words. -/
inductive Respelling : Piece → Piece → Prop
  | same (p : Piece) : Respelling p p
  | name {kind : TokenKind} {w u : Text} : kind.isName → IsName u →
      Respelling (kind, w) (.nameFullyQualified, '\\' :: u)
  | comment {c : Char} {u v : Text} : isBlank c → Reworded u v →
      Respelling (.docComment, '/' :: '*' :: '*' :: c :: u)
        (.docComment, '/' :: '*' :: '*' :: c :: v)

/-- What two texts of respelled pieces have in common. -/
theorem Respelling.agree {ps qs : List Piece} (h : List.Forall₂ Respelling ps qs)
    (hshape : ∀ p ∈ ps, HasNameShape p.1 p.2) : Agree False (Piece.print ps) (Piece.print qs) := by
  induction h with
  | nil => exact .nil
  | @cons p q ps qs hpq _ ih =>
    rw [List.forall_mem_cons] at hshape
    have hrest := ih hshape.2
    cases hpq with
    | same => exact hrest.append _
    | @name kind w u hkind hu =>
      obtain ⟨d, u', rfl⟩ := List.exists_cons_of_ne_nil hu.ne_nil
      have hd : isNameStart d := by simpa using hu.1
      by_cases hfull : kind = .nameFullyQualified
      · rw [hfull] at hshape
        obtain ⟨w, rfl, hw⟩ := hshape.1
        obtain ⟨c, w, rfl⟩ := List.exists_cons_of_ne_nil hw.ne_nil
        exact .full (by simpa using hw.1) hd
      · have hw : IsName w := hshape.1.isName hkind hfull
        obtain ⟨c, w, rfl⟩ := List.exists_cons_of_ne_nil hw.ne_nil
        exact .name (by simpa using hw.1) hd
    | comment _ huv =>
      rw [Piece.print_cons, Piece.print_cons]
      exact .comment

theorem Respelling.newline {ps qs : List Piece} (h : List.Forall₂ Respelling ps qs) :
    '\n' ∈ Piece.print qs → '\n' ∈ Piece.print ps := by
  induction h with
  | nil => exact id
  | cons hpq _ ih =>
    rw [Piece.print_cons, Piece.print_cons, List.mem_append, List.mem_append]
    refine Or.imp ?_ ih
    cases hpq with
    | same => exact id
    | name _ hu =>
      intro hmem
      rcases List.mem_cons.mp hmem with hmem | hmem
      · simp at hmem
      · exact absurd hmem (hu.not_mem (by decide) (by decide))
    | comment _ huv => exact ((((huv.cons _).cons '*').cons '*').cons '/').newline

theorem State.nextMode_of_code {s : State} (h : s.mode = .code) {kind : TokenKind}
    (h1 : kind ≠ .closeTag) (h2 : kind ≠ .semicolon) : s.nextMode kind = .code := by
  unfold nextMode
  split
  · simp_all
  · simp_all
  · exact absurd rfl h1
  · exact absurd rfl h2
  · exact h

theorem runLength_lt_quotedLength {quote : Char} (hquote : isNameChar quote = false) {t : Text} {n : Nat}
    (h : quotedLength? quote t = some n) : runLength isNameChar t < n := by
  fun_induction quotedLength? quote t generalizing n with
  | case1 => cases h
  | case2 t =>
    cases h
    rw [runLength_cons_of_neg hquote]
    omega
  | case3 => cases h
  | case4 c u hq ih =>
    obtain ⟨m, -, rfl⟩ := Option.map_eq_some_iff.mp h
    rw [runLength_cons_of_neg not_isNameChar_backslash]
    omega
  | case5 c t hq hc ih =>
    obtain ⟨m, hm, rfl⟩ := Option.map_eq_some_iff.mp h
    have := ih hm
    cases hn : isNameChar c with
    | true =>
      rw [runLength_cons_of_pos hn]
      omega
    | false =>
      rw [runLength_cons_of_neg hn]
      omega

/-- A quote in code is the first character of a token that is not respelled. -/
theorem Lexes.same_after_quote {s : State} {ps qs : List Piece} (h : Lexes s ps) (hmode : s.mode = .code)
    (hr : List.Forall₂ Respelling ps qs) {q : Char} {y : Text} (hprint : Piece.print ps = q :: y)
    (hquote : q = '\x27' ∨ q = '\x22') :
    ∃ w z z', y = w ++ z ∧ Piece.print qs = q :: (w ++ z') ∧ ('\n' ∈ z' → '\n' ∈ z) ∧
      (runLength isNameChar y < w.length ∨ z' = z) := by
  cases h with
  | nil => cases hprint
  | @cons _ kind w ps hne hscan hrest =>
    cases hr with
    | @cons _ p' _ qs hp hps =>
      obtain ⟨c, w, rfl⟩ := List.exists_cons_of_ne_nil hne
      rw [Piece.print_cons, List.cons_append] at hprint
      obtain ⟨rfl, rfl⟩ := List.cons.inj hprint
      have hagree := Respelling.agree hps hrest.shape
      have hscan' : scanCode s.last (c :: (w ++ Piece.print ps)) = (kind, w.length + 1) := by
        rw [State.scan, hmode] at hscan
        exact hscan
      have hspace : isSpace c = false := by rcases hquote with rfl | rfl <;> rfl
      have hname : isNameStart c = false := by rcases hquote with rfl | rfl <;> rfl
      have hdigit : c.isDigit = false := by rcases hquote with rfl | rfl <;> rfl
      rw [scanCode, hspace, hname, hdigit, if_neg Bool.false_ne_true, if_neg Bool.false_ne_true,
        if_neg Bool.false_ne_true, if_pos (by tauto)] at hscan'
      have hkind : kind = .string ∨ kind = .error := by
        split at hscan'
        · exact Or.inl (Prod.mk.inj hscan').1.symm
        · exact Or.inr (Prod.mk.inj hscan').1.symm
      have hsame : p' = (kind, c :: w) := by
        cases hp with
        | same => rfl
        | name hn => rcases hkind with rfl | rfl <;> cases hn
        | comment => simp at hkind
      subst hsame
      refine ⟨w, Piece.print ps, Piece.print qs, rfl, rfl, Respelling.newline hps, ?_⟩
      cases hlen : quotedLength? c (w ++ Piece.print ps) with
      | some n =>
        rw [hlen] at hscan'
        simp only [Prod.mk.injEq] at hscan'
        have hquote' : isNameChar c = false := by rcases hquote with rfl | rfl <;> rfl
        have := runLength_lt_quotedLength hquote' hlen
        exact Or.inl (by omega)
      | none =>
        rw [hlen] at hscan'
        simp only [Prod.mk.injEq] at hscan'
        exact Or.inr (hagree.eq_of_unclosed (w := w) (by omega))

/-- After a declined heredoc comes the same quote, if there is one. -/
theorem Lexes.sameQuoted {s : State} {ps qs : List Piece} (h : Lexes s ps) (hmode : s.mode = .code)
    (hr : List.Forall₂ Respelling ps qs) : SameQuoted (Piece.print ps) (Piece.print qs) := by
  refine ⟨Respelling.agree hr h.shape, fun u q y hprint hu hquote => ?_, Respelling.newline hr⟩
  cases u with
  | nil =>
    obtain ⟨w, z, z', hy, hprint', hz⟩ := h.same_after_quote hmode hr hprint hquote
    exact ⟨w, z, z', hy, hprint', hz⟩
  | cons b u =>
    cases h with
    | nil => cases hprint
    | @cons _ kind w ps hne hscan hrest =>
      cases hr with
      | @cons _ p' _ qs hp hps =>
        have hb : isSpace b := by
          rcases (by simpa using hu : (b = ' ' ∨ b = '\t') ∧ _).1 with rfl | rfl <;> rfl
        have hrun : runLength isSpace (u ++ q :: y) = u.length := by
          refine runLength_append ?_ (by rcases hquote with rfl | rfl <;> rfl)
          rw [List.all_eq_true] at hu ⊢
          intro c hc
          rcases (by simpa using hu c (List.mem_cons_of_mem b hc) : c = ' ' ∨ c = '\t') with
            rfl | rfl <;> rfl
        have hscan' : scanCode s.last (b :: (u ++ q :: y)) = (kind, w.length) := by
          rw [State.scan, hmode] at hscan
          rw [← List.cons_append, ← hprint]
          exact hscan
        rw [scanCode, if_pos hb, hrun] at hscan'
        obtain ⟨rfl, hlen⟩ := Prod.mk.inj hscan'
        rw [Piece.print_cons] at hprint
        obtain ⟨rfl, hrest'⟩ := List.append_inj hprint (by rw [List.length_cons]; dsimp only; omega)
        have hsame : p' = (.whitespace, b :: u) := by
          cases hp with
          | same => rfl
          | name hn => cases hn
        subst hsame
        obtain ⟨w, z, z', hy, hprint', hz⟩ := hrest.same_after_quote
          (State.nextMode_of_code hmode (by decide) (by decide)) hps hrest' hquote
        exact ⟨w, z, z', hy, by rw [Piece.print_cons, hprint'], hz⟩

theorem nameLength_of_head (last : Option TokenKind) {t : Text} (h : t.head?.any isNameStart) :
    nameLength t = (scanCode last t).2 := by
  obtain ⟨c, u, rfl⟩ : ∃ c u, t = c :: u := List.exists_cons_of_ne_nil (by rintro rfl; simp at h)
  have hc : isNameStart c := by simpa using h
  have hspace : ¬isSpace c := by
    intro hspace
    rcases (by simpa [isSpace] using hspace : ((c = ' ' ∨ c = '\t') ∨ c = '\r') ∨ c = '\n') with
      ((rfl | rfl) | rfl) | rfl <;> cases hc
  rw [scanCode, if_neg hspace, if_pos hc]

theorem scanCode_backslash (last : Option TokenKind) {t : Text} (ht : t.head?.any isNameStart) :
    scanCode last ('\\' :: t) = (.nameFullyQualified, 1 + nameLength t) := by
  have hfind : (symbols.find? fun e => Text.startsWith ('\\' :: t) e.1) =
      some (['\\'], .backslash) := rfl
  rw [scanCode, if_neg (by decide), if_neg (by decide), if_neg (by decide), if_neg (by decide), hfind]
  change (if t.head?.any isNameStart then (TokenKind.nameFullyQualified, 1 + nameLength t)
    else (.backslash, 1)) = _
  rw [if_pos ht]

theorem scanCode_full (last : Option TokenKind) {u r : Text} (hu : IsName u) (hr : nameLength r = 0) :
    scanCode last ('\\' :: u ++ r) = (.nameFullyQualified, ('\\' :: u).length) := by
  have hhead : (u ++ r).head?.any isNameStart := by
    obtain ⟨c, v, rfl⟩ := List.exists_cons_of_ne_nil hu.ne_nil
    simpa using hu.1
  rw [List.cons_append, scanCode_backslash last hhead, nameLength_append hu.2, hr, List.length_cons,
    Nat.add_zero, Nat.add_comm]

/-- A name goes up to a character that goes on with none. -/
theorem nameLength_after_name {last : Option TokenKind} {kind : TokenKind} {w r : Text}
    (hkind : kind.isName) (hshape : HasNameShape kind w)
    (h : scanCode last (w ++ r) = (kind, w.length)) : nameLength r = 0 := by
  by_cases hfull : kind = .nameFullyQualified
  · rw [hfull] at hshape
    obtain ⟨u, rfl, hu⟩ := hshape
    have hhead : (u ++ r).head?.any isNameStart := by
      obtain ⟨c, v, rfl⟩ := List.exists_cons_of_ne_nil hu.ne_nil
      simpa using hu.1
    have hlen : 1 + nameLength (u ++ r) = 1 + u.length := by
      rw [List.cons_append, scanCode_backslash last hhead] at h
      rw [(Prod.mk.inj h).2, List.length_cons, Nat.add_comm]
    exact (nameLength_append_eq_length_iff.mp (Nat.add_left_cancel hlen)).2
  · have hw : IsName w := hshape.isName hkind hfull
    have hhead : (w ++ r).head?.any isNameStart := by
      obtain ⟨c, v, rfl⟩ := List.exists_cons_of_ne_nil hw.ne_nil
      simpa using hw.1
    have hlen := nameLength_of_head last hhead
    rw [h, nameLength_append_eq_length_iff] at hlen
    exact hlen.2

theorem isDocComment_cons {c : Char} (hc : isBlank c) (u : Text) :
    isDocComment ('/' :: '*' :: '*' :: c :: u) = decide (1 < c.utf8Size + Text.byteSize u) := by
  have hhead : (('/' :: '*' :: '*' :: c :: u).drop 3).head?.any isBlank = true := hc
  have hsize : Text.byteSize ('/' :: '*' :: '*' :: c :: u) = 3 + (c.utf8Size + Text.byteSize u) := by
    have h1 : Char.utf8Size '/' = 1 := rfl
    have h2 : Char.utf8Size '*' = 1 := rfl
    simp only [Text.byteSize, h1, h2]
    omega
  rw [isDocComment, hhead, hsize]
  simp [Text.startsWith, List.isPrefixOf]
  omega

theorem scanCode_slash_star (last : Option TokenKind) (t : Text) :
    scanCode last ('/' :: '*' :: t) =
      (if isDocComment (('/' :: '*' :: t).take (2 + blockCommentLength t)) then .docComment
        else .blockComment, 2 + blockCommentLength t) := by
  have hfind : (symbols.find? fun e => Text.startsWith ('/' :: '*' :: t) e.1) =
      some (['/', '*'], .blockComment) := rfl
  rw [scanCode, if_neg (by decide), if_neg (by decide), if_neg (by decide), if_neg (by decide), hfind]
  rfl

theorem scanCode_comment {last : Option TokenKind} {c : Char} {u v r r' : Text} (hc : isBlank c)
    (huv : Reworded u v) (hr : r = [] → r' = [])
    (h : scanCode last ('/' :: '*' :: '*' :: c :: u ++ r) =
      (.docComment, ('/' :: '*' :: '*' :: c :: u).length)) :
    scanCode last ('/' :: '*' :: '*' :: c :: v ++ r') =
      (.docComment, ('/' :: '*' :: '*' :: c :: v).length) := by
  simp only [List.cons_append] at h ⊢
  rw [scanCode_slash_star] at h ⊢
  obtain ⟨hkind, hlen⟩ := Prod.mk.inj h
  have hbody : blockCommentLength ('*' :: c :: u ++ r) = ('*' :: c :: u).length := by
    simp only [List.cons_append, List.length_cons] at hlen ⊢
    omega
  have hbody' := ((huv.cons c).cons '*').blockCommentLength hr hbody
  simp only [List.cons_append] at hbody hbody'
  have htake (w s : Text) : ('/' :: '*' :: '*' :: c :: (w ++ s)).take (2 + ('*' :: c :: w).length) =
      '/' :: '*' :: '*' :: c :: w := by
    rw [Nat.add_comm, List.length_cons, List.length_cons]
    simp
  rw [hbody, htake, isDocComment_cons hc] at hkind
  rw [hbody', htake, isDocComment_cons hc]
  have hsize : 1 < c.utf8Size + Text.byteSize v := by
    have hsize : 1 < c.utf8Size + Text.byteSize u := by simpa using hkind
    have hpos := c.utf8Size_pos
    by_cases hv : v = []
    · rwa [hv, ← huv.eq_nil_iff.mpr hv]
    · have := List.length_pos_of_ne_nil hv
      have := Text.length_le_byteSize v
      omega
  rw [decide_eq_true hsize, if_pos rfl]
  simp only [List.length_cons]
  congr 1
  omega

/-- Two states between which no scanner tells a difference. -/
structure State.Alike (s s' : State) : Prop where
  mode : s'.mode = s.mode
  halting : s'.halting = s.halting
  last : s'.last.any TokenKind.makesNextIdent = s.last.any TokenKind.makesNextIdent

namespace State.Alike

variable {s s' : State}

theorem scan (h : s.Alike s') (t : Text) : s'.scan t = s.scan t := by
  have hname (name : Text) : nameKind s'.last name = nameKind s.last name := by
    rw [nameKind, nameKind, h.last]
  have hcode : scanCode s'.last t = scanCode s.last t := by
    cases t with
    | nil => rfl
    | cons c t => simp only [scanCode, hname]
  rw [State.scan, State.scan, h.mode, hcode]

theorem next (h : s.Alike s') (kind : TokenKind) : (s.next kind).Alike (s'.next kind) where
  mode := by
    change s'.nextMode kind = s.nextMode kind
    unfold nextMode
    rw [h.mode, h.halting]
  halting := by
    change (s'.halting || _) = (s.halting || _)
    rw [h.halting]
  last := by
    change (if kind.isTrivia then s'.last else some kind).any _ =
      (if kind.isTrivia then s.last else some kind).any _
    split
    · exact h.last
    · rfl

theorem next_name (h : s.Alike s') {kind : TokenKind} (hk : kind.isName) :
    (s.next kind).Alike (s'.next .nameFullyQualified) := by
  have hmode (s : State) {kind : TokenKind} (hk : kind.isName) : s.nextMode kind = s.mode := by
    unfold nextMode
    split <;> first | rfl | cases hk
  have hplain : kind.isTrivia = false ∧ kind.makesNextIdent = false ∧
      (kind == .kwHaltCompiler) = false := by
    cases kind <;> first | exact ⟨rfl, rfl, rfl⟩ | cases hk
  obtain ⟨h1, h2, h3⟩ := hplain
  refine ⟨?_, ?_, ?_⟩
  · change s'.nextMode .nameFullyQualified = s.nextMode kind
    rw [hmode s' rfl, hmode s hk, h.mode]
  · change (s'.halting || false) = (s.halting || (kind == .kwHaltCompiler))
    rw [h3, h.halting]
  · change false = (if kind.isTrivia then s.last else some kind).any _
    rw [h1, if_neg Bool.false_ne_true, Option.any_some, h2]

end State.Alike

namespace State

variable {s : State}

theorem scan_of_html (h : s.mode = .html) (t : Text) : s.scan t = scanHtml t := by
  rw [scan, h]

theorem scan_of_code (h : s.mode = .code) (t : Text) : s.scan t = scanCode s.last t := by
  rw [scan, h]

theorem scan_of_data (h : s.mode = .data) (t : Text) : s.scan t = (.inlineHtml, t.length) := by
  rw [scan, h]

theorem mode_of_scan {t : Text} (h : (s.scan t).1.isName ∨ (s.scan t).1 = .docComment) :
    s.mode = .code := by
  cases hmode : s.mode with
  | html =>
    rw [scan_of_html hmode, scanHtml] at h
    split at h
    · dsimp only at h
      split at h <;> simp [TokenKind.isName] at h
    · simp [TokenKind.isName] at h
  | code => rfl
  | data =>
    rw [scan_of_data hmode] at h
    simp [TokenKind.isName] at h

end State

/-- An opening tag is not respelled. -/
theorem Lexes.tag_after_html {s s' : State} {ps qs : List Piece} (h : Lexes s ps) (h' : Lexes s' qs)
    (hmode : s.mode = .html) (hmode' : s'.mode = .html) (hr : List.Forall₂ Respelling ps qs)
    (htag : (openTagLength? (Piece.print ps)).isSome) : (openTagLength? (Piece.print qs)).isSome := by
  have hscanHtml (t : Text) : (openTagLength? t).isSome ↔ (scanHtml t).1 ≠ .inlineHtml := by
    unfold scanHtml
    cases openTagLength? t with
    | none => simp
    | some n =>
      simp only [Option.isSome_some, true_iff]
      split <;> decide
  cases h with
  | nil => cases htag
  | @cons _ kind w ps hne hscan =>
    have hcode (hk : kind.isName ∨ kind = .docComment) : False := by
      have := State.mode_of_scan (s := s) (t := w ++ Piece.print ps) (by rwa [hscan])
      rw [hmode] at this
      cases this
    cases hr with
    | cons hp hps =>
      rw [State.scan_of_html hmode] at hscan
      rw [hscanHtml, Piece.print_cons, hscan] at htag
      cases hp with
      | same =>
        cases h' with
        | cons _ hscan' =>
          rw [State.scan_of_html hmode'] at hscan'
          rw [hscanHtml, Piece.print_cons, hscan']
          exact htag
      | name hk => exact (hcode (Or.inl hk)).elim
      | comment => exact (hcode (Or.inr rfl)).elim

/-- Respelled pieces are the tokens of the text that they make up. -/
theorem Lexes.respell {s s' : State} {ps qs : List Piece} (h : Lexes s ps) (hs : s.Alike s')
    (hr : List.Forall₂ Respelling ps qs) : Lexes s' qs := by
  induction h generalizing s' qs with
  | nil s =>
    cases hr
    exact .nil s'
  | @cons s kind w ps hne hscan hrest ih =>
    cases hr with
    | @cons _ q _ qs hp hps =>
      have hagree := Respelling.agree hps hrest.shape
      have hmode (hk : kind.isName ∨ kind = .docComment) : s.mode = .code :=
        State.mode_of_scan (t := w ++ Piece.print ps) (by rwa [hscan])
      cases hp with
      | same =>
        have hrest' := ih (hs.next kind) hps
        refine .cons hne ?_ hrest'
        rw [hs.scan]
        cases hm : s.mode with
        | html =>
          rw [State.scan_of_html hm] at hscan ⊢
          refine scanHtml_append hne hagree (fun hk htag => ?_) hscan
          subst hk
          have hnext {s : State} (hm : s.mode = .html) : (s.next .inlineHtml).mode = .html := by
            change s.nextMode .inlineHtml = .html
            rw [State.nextMode, hm] <;> simp
          exact hrest.tag_after_html hrest' (hnext hm) (hnext (hs.mode.trans hm)) hps htag
        | code =>
          rw [State.scan_of_code hm] at hscan ⊢
          refine scanCode_append hne hagree (fun hk => ?_) hscan
          subst hk
          exact hrest.sameQuoted (State.nextMode_of_code hm (by decide) (by decide)) hps
        | data =>
          rw [State.scan_of_data hm, List.length_append] at hscan
          have hnil : Piece.print ps = [] := by
            obtain ⟨-, hlen⟩ := Prod.mk.inj hscan
            exact List.eq_nil_of_length_eq_zero (by omega)
          rw [hnil] at hagree hscan
          rw [State.scan_of_data hm, hagree.eq_nil, List.length_append]
          exact hscan
      | @name _ _ u hk hu =>
        refine .cons (List.cons_ne_nil _ _) ?_ (ih (hs.next_name hk) hps)
        have hshape := (Lexes.cons hne hscan hrest).shape (kind, w) (by simp)
        rw [State.scan_of_code (hmode (Or.inl hk))] at hscan
        rw [hs.scan, State.scan_of_code (hmode (Or.inl hk))]
        exact scanCode_full s.last hu (hagree.nameLength_eq_zero (nameLength_after_name hk hshape hscan))
      | comment hc huv =>
        refine .cons (List.cons_ne_nil _ _) ?_ (ih (hs.next .docComment) hps)
        rw [State.scan_of_code (hmode (Or.inr rfl))] at hscan
        rw [hs.scan, State.scan_of_code (hmode (Or.inr rfl))]
        refine scanCode_comment hc huv (fun hnil => ?_) hscan
        rw [hnil] at hagree
        exact hagree.eq_nil

theorem pieces_respell {t : Text} {qs : List Piece} (h : List.Forall₂ Respelling (pieces t) qs) :
    pieces (Piece.print qs) = qs :=
  pieces_print ((lexes_pieces t).respell ⟨rfl, rfl, rfl⟩ h)

end Lexer
end NamespaceMigration
