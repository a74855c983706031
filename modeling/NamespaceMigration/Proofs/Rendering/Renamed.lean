import NamespaceMigration.Proofs.Lexing.Names
import NamespaceMigration.Proofs.Lexing.Modes
import NamespaceMigration.Proofs.Rendering.Imports

/-! Names in the place of names. After a gap another name may come, with an alias if need be, and the rest
of the code is scanned as before. -/
namespace NamespaceMigration

namespace TokenKind

/-- The kinds of what a name begins after on its own. -/
def isGap : TokenKind → Bool
  | whitespace | comma | blockComment | docComment => true
  | _ => false

theorem isOutside_of_isGap {kind : TokenKind} (h : kind.isGap) : kind.isOutside = false := by
  cases kind <;> first | rfl | cases h

theorem not_isName_of_isGap {kind : TokenKind} (h : kind.isGap) : ¬kind.isName := by
  cases kind <;> first | exact Bool.false_ne_true | cases h

theorem isTrivia_of_isName {kind : TokenKind} (h : kind.isName) : kind.isTrivia = false := by
  cases kind <;> first | rfl | cases h

end TokenKind

namespace Lexer

theorem nameKind_not_isGap (last : Option TokenKind) (name : Text) : (nameKind last name).isGap = false := by
  have hplain : ∀ kind ∈ Word.kinds, kind.isGap = false := by decide
  exact hplain _ (nameKind_mem last name)

/-- What a gap between two names begins with. -/
theorem afterSymbol_isGap {e : Text × TokenKind} (he : e ∈ symbols) {t : Text}
    (h : (afterSymbol e.1 e.2 t).1.isGap) :
    e.1 = [','] ∧ afterSymbol e.1 e.2 t = (.comma, 1) ∨ e.1 = ['/', '*'] ∧
      afterSymbol e.1 e.2 t = ((afterSymbol e.1 e.2 t).1, 2 + blockCommentLength t) := by
  have hcomma : ∀ e ∈ symbols, e.2.isGap → e.2 = .blockComment ∨ e = ([','], .comma) := by decide
  have hcomment : ∀ e ∈ symbols, e.2 = .blockComment → e.1 = ['/', '*'] := by decide
  by_cases hgap : e.2.isGap
  · rcases hcomma e he hgap with hblock | rfl
    · refine .inr ⟨hcomment e he hblock, ?_⟩
      rw [hblock, hcomment e he hblock]
      rfl
    · exact .inl ⟨rfl, rfl⟩
  · exfalso
    unfold afterSymbol at h
    split at h
    · split at h <;> cases h
    · cases h
    · rename_i hblock
      rw [hblock] at hgap
      exact hgap rfl
    · unfold afterQuestion at h
      split at h <;> cases h
    · split at h <;> cases h
    · split at h <;> cases h
    · split at h
      · unfold afterDot at h
        split at h <;> try cases h
        split at h <;> cases h
      · exact hgap h

/-- A gap is blanks, a comma or a comment. -/
theorem scanCode_isGap {last : Option TokenKind} {w r : Text} {kind : TokenKind} (hne : w ≠ [])
    (h : scanCode last (w ++ r) = (kind, w.length)) (hgap : kind.isGap) :
    (∀ c ∈ w, isSpace c) ∨ w = [','] ∨ ∃ u, w = '/' :: '*' :: u ∧ blockCommentLength (u ++ r) = u.length := by
  by_cases hblank : kind = .whitespace
  · have hspaces := scanCode_whitespace (t := w ++ r) (by rw [h]; exact hblank)
    rw [h, List.take_left] at hspaces
    exact .inl hspaces
  obtain ⟨c, v, rfl⟩ := List.exists_cons_of_ne_nil hne
  rw [List.cons_append, scanCode] at h
  split_ifs at h
  · exact absurd (Prod.mk.inj h).1.symm hblank
  · rw [← (Prod.mk.inj h).1, nameKind_not_isGap] at hgap
    cases hgap
  · rw [← (Prod.mk.inj h).1] at hgap
    cases hgap
  · split at h
    all_goals
      rw [← (Prod.mk.inj h).1] at hgap
      cases hgap
  · split at h
    · rename_i symbol kind' hfind
      obtain ⟨rest, hrest⟩ : symbol <+: c :: (v ++ r) := by
        simpa [Text.startsWith] using List.find?_some hfind
      rw [← hrest, List.drop_left] at h
      rcases afterSymbol_isGap (List.mem_of_find?_eq_some hfind) (t := rest) (by rw [h]; exact hgap) with
        ⟨rfl, hscan⟩ | ⟨rfl, hscan⟩
      · rw [hscan] at h
        have hlen := (Prod.mk.inj h).2
        obtain rfl : v = [] := List.eq_nil_of_length_eq_zero (by rw [List.length_cons] at hlen; omega)
        exact .inr (.inl (by rw [(List.cons.inj hrest).1]))
      · rw [h] at hscan
        have hlen := (Prod.mk.inj hscan).2
        obtain ⟨rfl, htail⟩ := List.cons.inj hrest
        obtain ⟨d, u, rfl⟩ : ∃ d u, v = d :: u :=
          List.exists_cons_of_ne_nil (by rintro rfl; rw [List.length_singleton] at hlen; omega)
        obtain ⟨rfl, rfl⟩ := List.cons.inj htail
        refine .inr (.inr ⟨u, rfl, ?_⟩)
        simp only [List.length_cons, List.append_eq] at hlen
        omega
    · rw [← (Prod.mk.inj h).1] at hgap
      cases hgap

/-- After a gap another name may come. -/
theorem scanCode_gap {last : Option TokenKind} {w r r' : Text} {kind : TokenKind} (hne : w ≠ [])
    (h : scanCode last (w ++ r) = (kind, w.length)) (hgap : kind.isGap) (hr : r ≠ [])
    (hr' : r'.head?.any isSpace = false) : scanCode last (w ++ r') = (kind, w.length) := by
  rcases scanCode_isGap hne h hgap with hspaces | rfl | ⟨u, rfl, hlength⟩
  · obtain ⟨c, v, rfl⟩ := List.exists_cons_of_ne_nil hne
    rw [List.forall_mem_cons] at hspaces
    rw [List.cons_append, scanCode, if_pos hspaces.1] at h ⊢
    rw [← (Prod.mk.inj h).1, runLength_append (List.all_eq_true.mpr hspaces.2) hr', List.length_cons,
      Nat.add_comm]
  · exact h
  · have hlength' : blockCommentLength (u ++ r') = u.length :=
      (Reworded.refl u).blockCommentLength (fun hnil => absurd hnil hr) hlength
    have htake (v : Text) : ('/' :: '*' :: (u ++ v)).take (2 + u.length) = '/' :: '*' :: u := by
      rw [Nat.add_comm]
      simp
    rw [List.cons_append, List.cons_append, scanCode_slash_star] at h ⊢
    rw [hlength, htake] at h
    rw [hlength', htake, ← h]

theorem agree_gap {last : Option TokenKind} {w r r' : Text} {kind : TokenKind} (hne : w ≠ [])
    (h : scanCode last (w ++ r) = (kind, w.length)) (hgap : kind.isGap) (hr : r.head?.any isSpace = false)
    (hr' : r'.head?.any isSpace = false) : Agree True (w ++ r) (w ++ r') := by
  rcases scanCode_isGap hne h hgap with hspaces | rfl | ⟨u, rfl, -⟩
  · obtain ⟨v, c, rfl⟩ := (List.eq_nil_or_concat w).resolve_left hne
    rw [List.concat_eq_append, List.append_assoc, List.append_assoc]
    have hc : isGap c := by
      rw [isGap, hspaces c (by simp)]
      rfl
    exact (Agree.gap trivial hc hr hr').append v
  · exact .gap trivial rfl hr hr'
  · exact .comment

/-- A word that is a name of its kind whatever comes before it. -/
structure IsNameOf (kind : TokenKind) (u : Text) : Prop where
  isName : IsName u
  names : kind.isName
  read : ∀ last, nameKind last u = kind

/-- What may come in the place of a piece: a comment with other words, or after a gap another name, perhaps
with an alias. -/
inductive RecastAs (gap : Bool) : Piece → List Piece → Prop
  | same (p : Piece) : RecastAs gap p [p]
  | comment {c : Char} {u v : Text} : isBlank c → Reworded u v →
      RecastAs gap (.docComment, '/' :: '*' :: '*' :: c :: u) [(.docComment, '/' :: '*' :: '*' :: c :: v)]
  | name {kind new : TokenKind} {w u : Text} {short? : Option Text} : gap → kind.isName → IsNameOf new u →
      (∀ short, short? = some short → IsWordOf short) →
      RecastAs gap (kind, w) ((new, u) :: ImportItem.aliasPieces short?)

/-- Pieces with what comes in their place. -/
inductive Recasts : (gap : Bool) → List (Piece × List Piece) → Prop
  | nil {gap : Bool} : Recasts gap []
  | cons {gap : Bool} {p : Piece} {qs : List Piece} {rs : List (Piece × List Piece)} : RecastAs gap p qs →
      Recasts p.1.isGap rs → Recasts gap ((p, qs) :: rs)

namespace Recasts

variable {gap : Bool} {rs : List (Piece × List Piece)}

theorem agree (h : Recasts gap rs) {s : State} (hlexes : Lexes s (rs.map (·.1))) :
    Agree True (Piece.print (rs.map (·.1))) (Piece.print (rs.flatMap (·.2))) ∨
      gap ∧ Piece.print (rs.map (·.1)) ≠ [] ∧
        (Piece.print (rs.map (·.1))).head?.any isSpace = false ∧
        (Piece.print (rs.flatMap (·.2))).head?.any isSpace = false := by
  induction h generalizing s with
  | nil => exact .inl .nil
  | @cons gap p qs rs hp _ ih =>
    cases hp with
    | same =>
      obtain ⟨kind, w⟩ := p
      cases hlexes with
      | cons hne hscan hrest =>
        rcases ih hrest with hagree | ⟨hgap, -, hvisible, hvisible'⟩
        · exact .inl (hagree.append w)
        · rw [State.scan_of_code (State.mode_of_not_isOutside
            (by rw [hscan]; exact TokenKind.isOutside_of_isGap hgap))] at hscan
          exact .inl (agree_gap hne hscan hgap hvisible hvisible')
    | comment => exact .inl .comment
    | @name kind _ w u _ hgap hkind hu =>
      have hshape := hlexes.shape (kind, w) (by simp)
      obtain ⟨d, v, rfl⟩ := List.exists_cons_of_ne_nil hu.isName.ne_nil
      have hd : isNameStart d := by simpa using hu.isName.1
      obtain ⟨c, v', rfl⟩ : ∃ c v', w = c :: v' :=
        List.exists_cons_of_ne_nil (hlexes.ne_nil (kind, w) (by simp))
      have hc : isSpace c = false := by
        by_cases hfull : kind = .nameFullyQualified
        · rw [hfull] at hshape
          obtain ⟨w, hw, -⟩ := hshape
          rw [(List.cons.inj hw).1]
          rfl
        · have hname := hshape.isName hkind hfull
          exact not_isSpace_of_isNameStart (by simpa using hname.1)
      exact .inr ⟨hgap, List.cons_ne_nil _ _, hc, not_isSpace_of_isNameStart hd⟩

end Recasts

namespace State

variable {s : State}

theorem next_word (hs : s.mode = .code) {kind : TokenKind} (hkind : kind.isName ∨ kind = .kwAs) :
    s.next kind = ⟨.code, some kind, s.halting⟩ := by
  have hplain : kind ≠ .closeTag ∧ kind ≠ .semicolon ∧ kind.isTrivia = false ∧ (kind == .kwHaltCompiler) = false := by
    rcases hkind with hkind | rfl
    · cases kind <;> first | decide | cases hkind
    · decide
  rw [next, nextMode_of_code hs hplain.1 hplain.2.1, hplain.2.2.1, hplain.2.2.2, Bool.or_false, if_neg Bool.false_ne_true]

theorem next_whitespace (hs : s.mode = .code) : s.next .whitespace = s := by
  obtain ⟨mode, last, halting⟩ := s
  obtain rfl : mode = .code := hs
  exact congrArg (State.mk .code last) (Bool.or_false halting)

end State

/-- A name with its alias is scanned one piece after the other. -/
theorem lexes_renamed {s : State} (hs : s.mode = .code) {kind : TokenKind} {u : Text} {short? : Option Text}
    {ps : List Piece} (hu : IsNameOf kind u) (hshort : ∀ short, short? = some short → IsWordOf short)
    (hps : nameLength (Piece.print ps) = 0)
    (h : ∀ last, last.any TokenKind.makesNextIdent = false → Lexes ⟨.code, last, s.halting⟩ ps) :
    Lexes s ((kind, u) :: ImportItem.aliasPieces short? ++ ps) := by
  have hnext := State.next_word hs (.inl hu.names)
  have hplain : kind.makesNextIdent = false := by
    have := hu.names
    cases kind <;> first | rfl | cases this
  cases short? with
  | none => exact lexes_name hs hu.isName (hu.read s.last) hps (hnext ▸ h _ hplain)
  | some short =>
    have hword := hshort short rfl
    have has : nameKind (some kind) "as" = .kwAs := by
      rw [nameKind, if_neg (by decide), Option.any_some, hplain]
      rfl
    obtain ⟨c, v, rfl⟩ := List.exists_cons_of_ne_nil hword.name.ne_nil
    have hc : isNameStart c := by simpa using hword.name.1
    refine lexes_name hs hu.isName (hu.read s.last) rfl ?_
    rw [hnext]
    refine lexes_space rfl rfl ?_
    rw [State.next_whitespace rfl]
    refine lexes_name rfl (by decide) has rfl ?_
    rw [State.next_word rfl (.inr rfl)]
    refine lexes_space rfl (not_isSpace_of_isNameStart hc) ?_
    rw [State.next_whitespace rfl]
    refine lexes_name rfl hword.name (hword.nameKind _) hps ?_
    rw [State.next_word rfl (.inl rfl)]
    exact h _ rfl

namespace Recasts

variable {gap : Bool} {rs : List (Piece × List Piece)}

/-- Where a tag comes first outside code, it does so with other names, too. -/
theorem isSome_openTagLength? (h : Recasts gap rs) {s s' : State} (hlexes : Lexes s (rs.map (·.1)))
    (hlexes' : Lexes s' (rs.flatMap (·.2))) (hmode : s.mode = .html) (hmode' : s'.mode = .html)
    (htag : (openTagLength? (Piece.print (rs.map (·.1)))).isSome) :
    (openTagLength? (Piece.print (rs.flatMap (·.2)))).isSome := by
  have hcode {kind : TokenKind} {w : Text} {ps : List Piece} (hlexes : Lexes s ((kind, w) :: ps))
      (hkind : kind.isName ∨ kind = .docComment) : False := by
    cases hlexes with
    | cons _ hscan _ =>
      have := State.mode_of_scan (s := s) (t := w ++ Piece.print ps) (by rwa [hscan])
      rw [hmode] at this
      cases this
  cases h with
  | nil => exact htag
  | cons hp =>
    cases hp with
    | same =>
      rw [List.map_cons, hlexes.isSome_openTagLength? hmode] at htag
      rw [List.flatMap_cons, List.singleton_append] at hlexes' ⊢
      exact (hlexes'.isSome_openTagLength? hmode').mpr htag
    | comment => exact (hcode hlexes (.inr rfl)).elim
    | name _ hkind => exact (hcode hlexes (.inl hkind)).elim

/-- What comes in the place of pieces is scanned as it is written. -/
theorem lexes (h : Recasts gap rs) {s s' : State} (hlexes : Lexes s (rs.map (·.1))) (hs : s.Alike s')
    (hvalid : ∀ p ∈ rs.map (·.1), p.1 ≠ .error) : Lexes s' (rs.flatMap (·.2)) := by
  induction h generalizing s s' with
  | nil => exact .nil s'
  | @cons gap p qs rs hp hrs ih =>
    obtain ⟨kind, w⟩ := p
    rw [List.map_cons, List.forall_mem_cons] at hvalid
    cases hlexes with
    | cons hne hscan hrest =>
      have hagree := hrs.agree hrest
      cases hp with
      | same =>
        have hrest' := ih hrest (hs.next kind) hvalid.2
        refine .cons hne ?_ hrest'
        rw [hs.scan]
        cases hmode : s.mode with
        | html =>
          have hagree := hagree.resolve_right fun hgap => by
            have := State.isOutside_of_html hmode (t := w ++ Piece.print (rs.map (·.1)))
            rw [hscan, TokenKind.isOutside_of_isGap hgap.1] at this
            cases this
          rw [State.scan_of_html hmode] at hscan ⊢
          refine scanHtml_append hne hagree (fun hkind htag => ?_) hscan
          subst hkind
          exact hrs.isSome_openTagLength? hrest hrest' (State.next_of_html hmode)
            (State.next_of_html (hs.mode.trans hmode)) htag
        | code =>
          rw [State.scan_of_code hmode] at hscan ⊢
          rcases hagree with hagree | ⟨hgap, hne', -, hvisible⟩
          · exact scanCode_append hne hagree (fun hkind => absurd hkind hvalid.1) hscan
          · exact scanCode_gap hne hscan hgap hne' hvisible
        | data =>
          rw [State.scan_of_data hmode, List.length_append] at hscan
          have hnil : Piece.print (rs.map (·.1)) = [] := by
            obtain ⟨-, hlength⟩ := Prod.mk.inj hscan
            exact List.eq_nil_of_length_eq_zero (by omega)
          have hagree := hagree.resolve_right fun hgap => hgap.2.1 hnil
          rw [hnil] at hagree hscan
          rw [State.scan_of_data hmode]
          change (TokenKind.inlineHtml, (w ++ Piece.print (rs.flatMap (·.2))).length) = _
          rw [hagree.eq_nil, List.length_append]
          exact hscan
      | @comment c u v hc huv =>
        have hmode : s.mode = .code := State.mode_of_scan (.inr (by rw [hscan]))
        refine .cons (List.cons_ne_nil _ _) ?_ (ih hrest (hs.next _) hvalid.2)
        rw [hs.scan]
        rw [State.scan_of_code hmode] at hscan ⊢
        refine scanCode_comment hc huv (fun hnil => ?_) hscan
        rcases hagree with hagree | ⟨-, hne', -⟩
        · rw [hnil] at hagree
          exact hagree.eq_nil
        · exact absurd hnil hne'
      | @name _ _ _ u _ _ hkind hu hshort =>
        have hshape := (Lexes.cons hne hscan hrest).shape (kind, w) (by simp)
        have hmode : s.mode = .code := State.mode_of_scan (.inl (by rw [hscan]; exact hkind))
        rw [State.scan_of_code hmode] at hscan
        have hend := (hagree.resolve_right fun hgap => TokenKind.not_isName_of_isGap hgap.1 hkind)
          |>.nameLength_eq_zero (nameLength_after_name hkind hshape hscan)
        rw [List.flatMap_cons]
        refine lexes_renamed (hs.mode.trans hmode) hu hshort hend fun last hlast => ih hrest ?_ hvalid.2
        have hnext := State.next_word hmode (.inl hkind)
        refine ⟨?_, ?_, ?_⟩
        · rw [hnext]
        · rw [hnext]
          exact hs.halting
        · rw [hnext, hlast]
          cases kind <;> first | rfl | cases hkind

end Recasts

theorem nameLength_after_comment (t : Text) : nameLength (t.drop (lineCommentLength t)) = 0 := by
  induction t with
  | nil => rfl
  | cons c t ih =>
    rw [lineCommentLength]
    split_ifs with hstop
    · rw [List.drop_zero]
      rcases hstop with rfl | rfl | ⟨rfl, -⟩ <;> rfl
    · rw [Nat.add_comm, List.drop_succ_cons]
      exact ih

theorem afterSymbol_lineComment {symbol t : Text} {kind : TokenKind}
    (h : (afterSymbol symbol kind t).1 = .lineComment) :
    (afterSymbol symbol kind t).2 = symbol.length + lineCommentLength t := by
  unfold afterSymbol at h ⊢
  split at h
  · split at h <;> cases h
  · rfl
  · dsimp only at h
    split at h <;> cases h
  · unfold afterQuestion at h
    split at h <;> cases h
  · split at h <;> cases h
  · split at h <;> cases h
  · rename_i hcomment _ _ _ _
    split at h
    · unfold afterDot at h
      split at h <;> try cases h
      split at h <;> cases h
    · exact absurd h hcomment

theorem scanCode_lineComment {last : Option TokenKind} {t : Text} (h : (scanCode last t).1 = .lineComment) :
    nameLength (t.drop (scanCode last t).2) = 0 := by
  cases t with
  | nil => cases h
  | cons c t =>
    rw [scanCode] at h ⊢
    split_ifs at h ⊢
    · exact absurd (h ▸ nameKind_mem _ _) (show .lineComment ∉ Word.kinds by decide)
    · split at h <;> cases h
    · split at h
      · rw [afterSymbol_lineComment h, ← List.drop_drop]
        exact nameLength_after_comment _
      · cases h

/-- What begins a name does so whatever comes after it. -/
theorem nameLength_append_pos {w : Text} (h : 0 < nameLength w) (r : Text) : 0 < nameLength (w ++ r) := by
  obtain ⟨c, u, rfl⟩ : ∃ c u, w = c :: u := List.exists_cons_of_ne_nil (by rintro rfl; cases h)
  rw [List.cons_append, nameLength]
  rw [nameLength] at h
  split at h
  · rename_i hc
    rw [if_pos hc]
    exact Nat.add_pos_left Nat.one_pos _
  · rename_i hc
    rw [if_neg hc]
    split at h
    · rename_i hslash
      cases u with
      | nil => cases hslash.2
      | cons d u =>
        rw [if_pos ⟨hslash.1, hslash.2⟩]
        exact Nat.add_pos_left Nat.one_pos _
    · exact absurd h (Nat.lt_irrefl 0)

/-- Before a name that stands after a word or a comma there is a gap. -/
theorem Lexes.isGap_of_name {s : State} {p q : Piece} {ps : List Piece} (h : Lexes s (p :: q :: ps))
    (hmode : s.mode = .code) (hp : p.1.isTrivia ∨ p.1 = .comma ∨ p.1 ∈ Word.kinds) (hq : 0 < nameLength q.2) :
    p.1.isGap := by
  obtain ⟨kind, w⟩ := p
  obtain ⟨kind', w'⟩ := q
  cases h with
  | cons hne hscan hrest =>
    rw [State.scan_of_code hmode, Piece.print_cons] at hscan
    have hpos : 0 < nameLength (w' ++ Piece.print ps) := nameLength_append_pos hq _
    rcases hp with htrivia | rfl | hword
    · have hmem := scanCode_mem s.last (w ++ (w' ++ Piece.print ps))
      have hline (hkind : kind = .lineComment) : False := by
        have hcomment := scanCode_lineComment (t := w ++ (w' ++ Piece.print ps)) (by rw [hscan, hkind])
        rw [hscan, List.drop_left] at hcomment
        omega
      rw [hscan] at hmem
      cases kind <;> first
        | rfl
        | exact absurd htrivia Bool.false_ne_true
        | exact (hline rfl).elim
        | exact absurd hmem (show .openTag ∉ codeKinds by decide)
    · rfl
    · have hhead := scanCode_word (t := w ++ (w' ++ Piece.print ps)) (by rwa [hscan])
      have hlen := nameLength_of_head s.last hhead
      rw [hscan, nameLength_append_eq_length_iff] at hlen
      have := hlen.2
      omega

/-- Whether a gap comes before a piece. -/
def gapBefore (gap : Bool) (ps : List Piece) : Nat → Bool
  | 0 => gap
  | j + 1 => ps[j]?.any (·.1.isGap)

theorem exists_recasts {ps : List Piece} {gap : Bool} {R : Nat → List Piece → Prop}
    (h : ∀ j p, ps[j]? = some p → ∃ qs, RecastAs (gapBefore gap ps j) p qs ∧ R j qs) :
    ∃ rs, Recasts gap rs ∧ rs.map (·.1) = ps ∧ ∀ j r, rs[j]? = some r → R j r.2 := by
  induction ps generalizing gap R with
  | nil => exact ⟨[], .nil, rfl, fun j r hr => nomatch hr⟩
  | cons p ps ih =>
    obtain ⟨qs, hqs, hfirst⟩ := h 0 p rfl
    obtain ⟨rs, hrs, rfl, hrest⟩ := ih (R := fun j => R (j + 1)) fun j q hq => by
      cases j with
      | zero => exact h 1 q hq
      | succ j => exact h (j + 2) q hq
    refine ⟨(p, qs) :: rs, .cons hqs hrs, rfl, fun j r hr => ?_⟩
    cases j with
    | zero =>
      obtain rfl := Option.some.inj hr
      exact hfirst
    | succ j => exact hrest j r hr

namespace RecastAs

variable {gap : Bool} {p : Piece} {qs : List Piece}

theorem eq_same (h : RecastAs gap p qs) (hname : p.1.isName = false) (hdoc : p.1 ≠ .docComment) : qs = [p] := by
  cases h with
  | same => rfl
  | comment => exact absurd rfl hdoc
  | name _ hkind =>
    rw [hname] at hkind
    cases hkind

theorem code_trivia (h : RecastAs gap p qs) (htrivia : p.1.isTrivia) : Piece.code qs = [] := by
  cases h with
  | same =>
    rw [Piece.code_cons, if_pos htrivia]
    rfl
  | comment => rfl
  | name _ hkind =>
    rw [TokenKind.isTrivia_of_isName hkind] at htrivia
    cases htrivia

theorem not_halts (h : RecastAs gap p qs) (hp : p.1 ≠ .kwHaltCompiler) : ∀ q ∈ qs, q.1 ≠ .kwHaltCompiler := by
  cases h with
  | same => exact List.forall_mem_singleton.mpr hp
  | comment => exact List.forall_mem_singleton.mpr TokenKind.noConfusion
  | @name _ new _ _ short? _ _ hu =>
    refine List.forall_mem_cons.mpr ⟨?_, ?_⟩
    · rintro rfl
      cases hu.names
    · cases short? <;> simp [ImportItem.aliasPieces]

end RecastAs

namespace Recasts

variable {gap : Bool} {rs : List (Piece × List Piece)}

theorem exists_recastAs (h : Recasts gap rs) : ∀ r ∈ rs, ∃ gap', RecastAs gap' r.1 r.2 := by
  induction h with
  | nil => exact List.forall_mem_nil _
  | cons hp _ ih => exact List.forall_mem_cons.mpr ⟨⟨_, hp⟩, ih⟩

theorem code_flatMap (h : Recasts gap rs) : Piece.code (rs.flatMap (·.2)) =
    (rs.filter fun r => !r.1.1.isTrivia).flatMap fun r => Piece.code r.2 := by
  induction h with
  | nil => rfl
  | @cons _ p qs rs hp _ ih =>
    rw [List.flatMap_cons, Piece.code_append, ih, List.filter_cons]
    cases htrivia : p.1.isTrivia with
    | true => simp [hp.code_trivia htrivia]
    | false => simp

end Recasts
end Lexer
end NamespaceMigration
