import NamespaceMigration.Proofs.Rewriting.CommentsInFull
import NamespaceMigration.Proofs.Rewriting.Renaming

/-! The first step, twice. Its names are in full after it, in code and in comments, and what it leaves as it
is may be of the namespace or global still. So it finds nothing to do in its own text. -/
namespace NamespaceMigration

open Lexer (isNameChar isNameStart IsName)

namespace NameContext

theorem resolve_type (c : NameContext) (written : Text) : ∃ n, c.resolve written .type = .resolved n := by
  rw [resolve.eq_def]
  split
  · exact ⟨_, rfl⟩
  · split
    · split
      · exact ⟨_, rfl⟩
      · split <;> exact ⟨_, rfl⟩
    · split
      · exact ⟨_, rfl⟩
      · rw [if_pos (Or.inl rfl)]
        exact ⟨_, rfl⟩

theorem qualify?_of_full {c : NameContext} {written : Text} (h : isWrittenInFull written)
    (kind : SymbolKind) : c.qualify? written kind = none := if_pos h

theorem qualify?_type {c : NameContext} {written : Text} (h : isWrittenInFull written = false) :
    ∃ n, c.resolve written .type = .resolved n ∧ c.qualify? written .type = some n.written := by
  obtain ⟨n, hn⟩ := c.resolve_type written
  refine ⟨n, hn, ?_⟩
  rw [qualify?, if_neg (by rw [h]; exact Bool.false_ne_true), hn]
  rfl

/-- The names of comments are written in full. -/
theorem writesInFull {c : NameContext} (hc : c.HasNames) :
    WritesInFull fun name => (c.qualify? name .type).getD name where
  full t := by rw [qualify?_of_full rfl, Option.getD_none]
  name t ht := by
    have hplain : isWrittenInFull t = false := by
      have hhead := ht.isSpace.head
      rw [isWrittenInFull, beq_eq_false_iff_ne]
      exact hhead
    obtain ⟨n, hn, hnew⟩ := c.qualify?_type hplain
    rw [hnew, Option.getD_some]
    exact ⟨n.text, rfl, resolve_isName hc ht hn⟩
  word d t hd ht := by
    have hplain : isWrittenInFull (d :: t) = false := by
      rw [isWrittenInFull, beq_eq_false_iff_ne]
      rintro heq
      rw [Option.some.inj heq] at hd
      cases hd
    obtain ⟨n, hn, hnew⟩ := c.qualify?_type hplain
    rw [hnew, Option.getD_some]
    refine ⟨n.text, rfl, resolve_forall hc (fun name h => h.sign) ?_ (Or.inr rfl) hn⟩
    exact List.forall_mem_cons.mpr ⟨Or.inl (Lexer.isNameChar_of_isNameStart hd), ht⟩

end NameContext

namespace SourceFile

variable {t : Text}

/-- In the doc comments of the file, methods are named behind blanks that no name has. -/
def SpacesMethods (f : SourceFile) : Prop := ∀ token ∈ f.tokens.toList, token.kind = .docComment →
  ∀ l ∈ DocComment.lines token.text, (DocComment.methodBlank? l.text).all (!isNameChar ·)

instance (f : SourceFile) : Decidable f.SpacesMethods :=
  inferInstanceAs (Decidable (∀ token ∈ f.tokens.toList, token.kind = .docComment →
    ∀ l ∈ DocComment.lines token.text, (DocComment.methodBlank? l.text).all (!isNameChar ·)))

theorem docEdits_of_full {c : NameContext} {comment : Token}
    (h : ∀ r ∈ DocComment.references comment.text, isWrittenInFull r.name) :
    comment.docEdits (c.qualify? · .type) = [] := by
  rw [Token.docEdits, List.filterMap_eq_nil_iff]
  intro r hr
  rw [NameContext.qualify?_of_full (h r hr)]
  rfl

theorem docEdits_full {c : NameContext} (hc : c.HasNames) {comment : Token}
    (h : ∀ l ∈ DocComment.lines comment.text, (DocComment.methodBlank? l.text).all (!isNameChar ·)) :
    ∀ r ∈ DocComment.references
      (TextEdit.applyAll (comment.docEdits (c.qualify? · .type)) comment.text), isWrittenInFull r.name := by
  obtain ⟨u, hfilled, hfull⟩ := DocComment.references_filled (c.writesInFull hc) fun l hl d hd =>
    Bool.not_eq_eq_eq_not.mp (Option.all_eq_true ..|>.mp (h l hl) d hd)
  have hedited : TextEdit.applyAll (comment.docEdits (c.qualify? · .type)) comment.text = u :=
    hfilled.applyAll_edits
  rwa [hedited]

theorem docEdits_of_kept {s : Scope} (hs : s ∈ (parse t).scopes) {comment : Token}
    (hcomment : comment ∈ (parse t).docComments s) (h : (parse t).qualified? comment = none) :
    comment.docEdits (((parse t).context s).qualify? · .type) = [] := by
  by_contra hedits
  have hedit : (⟨comment.range, TextEdit.applyAll
      (comment.docEdits (((parse t).context s).qualify? · .type)) comment.text⟩ : TextEdit) ∈
        (parse t).qualifyEdits := by
    refine List.mem_flatMap.mpr ⟨s, hs, List.mem_append_right _ (List.mem_filterMap.mpr ⟨comment, hcomment, ?_⟩)⟩
    rw [Token.docEdit?, if_neg (by rwa [List.isEmpty_iff])]
    rfl
  rw [qualified?, TextEdit.replacement?, Option.map_eq_none_iff, List.find?_eq_none] at h
  exact h _ hedit (by simp)

theorem mem_docComments_of {f : SourceFile} {s : Scope} {comment : Token} {i : Nat}
    (hkind : comment.kind = .docComment) (hi : f.tokens[i]? = some comment) (hinside : s.containsToken i) :
    comment ∈ f.docComments s := by
  rw [Scope.containsToken, Bool.and_eq_true, decide_eq_true_eq, decide_eq_true_eq] at hinside
  rw [docComments, List.mem_filter, beq_iff_eq, List.drop_take]
  refine ⟨List.mem_iff_getElem?.mpr ⟨i - s.first, ?_⟩, hkind⟩
  rw [List.getElem?_take, if_pos (by omega), List.getElem?_drop, Nat.add_sub_cancel' hinside.1,
    Array.getElem?_toList, hi]

/-- A comment of the text after the first step has nothing to edit. -/
theorem docEdits_qualify (hmethods : (parse t).SpacesMethods) {s s' : Scope} (hs : s ∈ (parse t).scopes)
    (hfirst : s'.first = s.first) (hstop : s'.stop = s.stop) {comment : Token}
    (hcomment : comment ∈ (parse (Adaptation.qualify t)).docComments s') :
    comment.docEdits (((parse t).context s).qualify? · .type) = [] := by
  obtain ⟨hkind, i, hi, hinside⟩ := mem_docComments hcomment
  obtain ⟨token, htoken⟩ : ∃ token, (parse t).tokens[i]? = some token := by
    obtain ⟨hlt, -⟩ := Array.getElem?_eq_some_iff.mp hi
    rw [length_tokens_qualify] at hlt
    exact ⟨_, Array.getElem?_eq_getElem hlt⟩
  obtain ⟨comment', hi', hpiece⟩ := qualify_token htoken
  rw [hi, Option.some.injEq] at hi'
  subst hi'
  rw [qualifiedPiece] at hpiece
  cases hnew : (parse t).qualified? token with
  | none =>
    rw [hnew] at hpiece
    obtain ⟨hkept, htext⟩ := Prod.mk.inj hpiece
    rw [Scope.containsToken, hfirst, hstop] at hinside
    have hnothing := docEdits_of_kept hs
      (mem_docComments_of (hkept ▸ hkind) htoken hinside) hnew
    rwa [Token.docEdits, htext]
  | some new =>
    rw [hnew] at hpiece
    obtain ⟨hkept, htext⟩ := Prod.mk.inj hpiece
    rcases qualified?_cases htoken hnew with ⟨s₁, hs₁, r, hr, rfl, -⟩ | ⟨hcomment, s₁, hs₁, rfl⟩
    · obtain ⟨token', htoken', hname, -⟩ := references_token hr
      rw [htoken, Option.some.injEq] at htoken'
      rw [← htoken'] at hname
      rw [if_pos hname, hkind] at hkept
      cases hkept
    · refine docEdits_of_full ?_
      rw [htext]
      refine docEdits_full (context_hasNames hs₁) ?_
      exact hmethods token (Array.mem_toList_iff.mpr (Array.mem_of_getElem? htoken)) hcomment

theorem qualify?_qualified (c : NameContext) (r : Reference) :
    c.qualify? (RenameIndex.qualified c r).text (RenameIndex.qualified c r).kind = none := by
  rw [RenameIndex.qualified]
  cases hnew : c.qualify? r.text r.kind with
  | none => exact hnew
  | some new =>
    obtain ⟨-, n, -, rfl⟩ := NameContext.qualify?_eq_some hnew
    exact NameContext.qualify?_of_full rfl _

theorem qualifyEdits_qualify (h : (parse t).UsesWellFormed) (hmethods : (parse t).SpacesMethods) :
    (parse (Adaptation.qualify t)).qualifyEdits = [] := by
  refine List.flatMap_eq_nil_iff.mpr fun s' hs' => ?_
  obtain ⟨s, hs, hbare⟩ := (alike_qualify h).symm.exists_scope hs'
  have hcontext := (alike_qualify h).symm.context hbare
  have hfirst : s'.first = s.first := congrArg (·.first) hbare
  have hstop : s'.stop = s.stop := congrArg (·.stop) hbare
  refine List.append_eq_nil_iff.mpr ⟨List.filterMap_eq_nil_iff.mpr fun r' hr' => ?_,
    List.filterMap_eq_nil_iff.mpr fun comment hcomment => ?_⟩
  · rw [hfirst, hstop] at hr'
    obtain ⟨r, hr, rfl⟩ := List.mem_map.mp (references_qualify h hs ▸ hr')
    obtain ⟨token, htoken, htext, -⟩ := qualified_mem h hs hr
    have hnone := qualify?_qualified ((parse t).context s) r
    rw [← htext] at hnone
    rw [hcontext, tokenText, htoken]
    exact Option.map_eq_none_iff.mpr hnone
  · rw [hcontext, docEdits_qualify hmethods hs hfirst hstop hcomment]
    rfl

end SourceFile

/-- The first step has nothing to do in the text that it writes, if the use statements are well-formed and
the methods in doc comments are named behind blanks that no name has. -/
theorem Adaptation.qualify_qualify {t : Text} (h : (SourceFile.parse t).UsesWellFormed)
    (hmethods : (SourceFile.parse t).SpacesMethods) : qualify (qualify t) = qualify t := by
  rw [qualify, SourceFile.qualifyEdits_qualify h hmethods]
  exact TextEdit.applyAll_nil _

/-- Names in code and in the signature, the types and the annotations of comments. -/
def documented : Text := "<?php\nnamespace N;\nuse A\\B as X;\n/**\n * @template T of X\n" ++
  " * @method X|K make(X $x)\n * @X(@Y)\n */\nclass K extends X \x7b\n" ++
  "/** @return list<X>|T of it */ function f() \x7b return strlen(''); \x7d \x7d\n"

theorem documented_qualify_qualify : (SourceFile.parse documented).UsesWellFormed ∧
    (SourceFile.parse documented).SpacesMethods ∧
    Adaptation.qualify (Adaptation.qualify documented) = Adaptation.qualify documented := by
  obtain ⟨huses, hmethods⟩ : (SourceFile.parse documented).UsesWellFormed ∧
      (SourceFile.parse documented).SpacesMethods := by decide +kernel
  exact ⟨huses, hmethods, Adaptation.qualify_qualify huses hmethods⟩

/-- A malformed `use` statement that imports nothing. With its name in full it imports a constant, and then
the name of that constant has one meaning. -/
def relativeGroup : Text := "<?php\nnamespace N;\nuse namespace\\A\\\x7b const f \x7d;\necho f;\n"

theorem relativeGroup_qualify_qualify :
    Adaptation.qualify (Adaptation.qualify relativeGroup) ≠ Adaptation.qualify relativeGroup := by
  decide +kernel

/-- A method behind a blank that is part of the alias before it. Without that blank, in the name in full, the
type of the result ends earlier, and a name in front of a dash is one of a class now. -/
def wideBlank : Text :=
  "<?php\nuse A\\B as X\u2003;\n/** @method Foo\u2003Bar-,X\u2003baz() */\nclass K \x7b\x7d\n"

theorem wideBlank_qualify_qualify :
    Adaptation.qualify (Adaptation.qualify wideBlank) ≠ Adaptation.qualify wideBlank := by
  decide +kernel

end NamespaceMigration
