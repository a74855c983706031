import NamespaceMigration.Proofs.Rewriting.Qualified

/-! The code after the first step. It is the code of the text with some references written in full, so
it has the same brackets, statements and scopes, and in them names mean the same. -/
namespace NamespaceMigration

open Lexer (tokenize)

theorem forall₂_getElem? {α β : Type} {R : α → β → Prop} {as : List α} {bs : List β}
    (h : List.Forall₂ R as bs) (i : Nat) :
    (as[i]? = none ∧ bs[i]? = none) ∨ ∃ a b, as[i]? = some a ∧ bs[i]? = some b ∧ R a b := by
  induction h generalizing i with
  | nil => exact Or.inl ⟨rfl, rfl⟩
  | cons hab _ ih =>
    cases i with
    | zero => exact Or.inr ⟨_, _, rfl, rfl, hab⟩
    | succ i => exact ih i

theorem forall₂_of_getElem? {α β : Type} {R : α → β → Prop} {as : List α} {bs : List β} (hlength : as.length = bs.length)
    (h : ∀ (i : Nat) a b, as[i]? = some a → bs[i]? = some b → R a b) : List.Forall₂ R as bs :=
  List.forall₂_of_length_eq_of_get hlength fun i hi hi' =>
    h i _ _ (List.getElem?_eq_getElem hi) (List.getElem?_eq_getElem hi')

namespace BracketMatching

theorem ofKindsFrom_name {kind : TokenKind} (h : kind.isName) (position : Nat) (stack : Stack)
    (kinds : List TokenKind) :
    ofKindsFrom position stack (kind :: kinds) = ofKindsFrom (position + 1) stack kinds := by
  cases kind <;> first | rfl | cases h

theorem ofKindsFrom_congr {kinds kinds' : List TokenKind}
    (h : List.Forall₂ (fun k k' => k' = k ∨ k.isName ∧ k'.isName) kinds kinds') (position : Nat)
    (stack : Stack) : ofKindsFrom position stack kinds' = ofKindsFrom position stack kinds := by
  induction h generalizing position stack with
  | nil => rfl
  | cons hkind _ ih =>
    rcases hkind with rfl | ⟨hname, hname'⟩
    · simp only [ofKindsFrom, ih]
    · rw [ofKindsFrom_name hname, ofKindsFrom_name hname', ih]

end BracketMatching

/-- If what is kept are the items from one position up to another, they are that part of the list. -/
theorem filter_eq_drop_take {α : Type} {keep : α → Bool} {l : List α} {p n : Nat} (hpn : p ≤ n)
    (h : ∀ q a, l[q]? = some a → (keep a ↔ p ≤ q ∧ q < n)) : l.filter keep = (l.take n).drop p := by
  have hsplit : l = l.take p ++ ((l.take n).drop p ++ l.drop n) := by
    have htake : (l.take n).take p = l.take p := by rw [List.take_take, Nat.min_eq_left hpn]
    rw [← List.append_assoc, ← htake, List.take_append_drop, List.take_append_drop]
  have hbefore : (l.take p).filter keep = [] := by
    refine List.filter_eq_nil_iff.mpr fun a ha hkeep => ?_
    obtain ⟨q, hq⟩ := List.mem_iff_getElem?.mp ha
    rw [List.getElem?_take] at hq
    split at hq
    · have := (h q a hq).mp hkeep
      omega
    · cases hq
  have hinside : ((l.take n).drop p).filter keep = (l.take n).drop p := by
    refine List.filter_eq_self.mpr fun a ha => ?_
    obtain ⟨q, hq⟩ := List.mem_iff_getElem?.mp ha
    rw [List.getElem?_drop, List.getElem?_take] at hq
    split at hq
    · exact (h _ a hq).mpr (by omega)
    · cases hq
  have hafter : (l.drop n).filter keep = [] := by
    refine List.filter_eq_nil_iff.mpr fun a ha hkeep => ?_
    obtain ⟨q, hq⟩ := List.mem_iff_getElem?.mp ha
    rw [List.getElem?_drop] at hq
    have := (h _ a hq).mp hkeep
    omega
  conv_lhs => rw [hsplit]
  rw [List.filter_append, List.filter_append, hbefore, hinside, hafter, List.nil_append,
    List.append_nil]

namespace SourceFile

variable {t : Text}

theorem window_of_covers {s : Scope} {p n : Nat} (h : s.Covers (.ofText t) p n) (q : Nat) :
    ((parse t).window s.first s.stop)[q]? =
      if p + q < n then (Code.ofText t).items[p + q]? else none := by
  have hitems : (Code.ofText t).items = (Code.itemsOf (tokenize t)).toArray := rfl
  have hkeep : ∀ q (item : Nat × Token), (Code.itemsOf (tokenize t))[q]? = some item →
      (s.containsToken item.1 ↔ p ≤ q ∧ q < n) := by
    intro q item hitem
    have hsize : q < (Code.ofText t).size := (List.getElem?_eq_some_iff.mp hitem).1
    have hmem := h.mem q hsize
    have hcode : (Code.ofText t).items[q]? = some item := by rw [hitems, List.getElem?_toArray, hitem]
    rwa [Code.tokenIndex_eq hcode] at hmem
  rw [getElem?_window, hitems, List.getElem?_toArray]
  change ((Code.itemsOf (tokenize t)).filter fun item => s.containsToken item.1)[q]? = _
  rw [filter_eq_drop_take h.le hkeep, List.getElem?_drop, List.getElem?_take]

/-- A token and the index it has, before and after the first step. -/
def SameItem (f : SourceFile) (x y : Nat × Token) : Prop :=
  y.1 = x.1 ∧ (y.2.kind, y.2.text) = f.qualifiedPiece x.2

theorem qualifiedPiece_isTrivia (f : SourceFile) (token : Token) :
    (f.qualifiedPiece token).1.isTrivia = token.kind.isTrivia := by
  rw [qualifiedPiece]
  cases f.qualified? token with
  | none => rfl
  | some new =>
    dsimp only
    split
    · rename_i hname
      cases hkind : token.kind <;> first | rfl | (rw [hkind] at hname; cases hname)
    · rfl

theorem items_qualify (t : Text) :
    List.Forall₂ (parse t).SameItem (Code.itemsOf (tokenize t))
      (Code.itemsOf (tokenize (Adaptation.qualify t))) := by
  have hall : List.Forall₂ (parse t).SameItem
      ((tokenize t).zipIdx.map fun item => (item.2, item.1))
      ((tokenize (Adaptation.qualify t)).zipIdx.map fun item => (item.2, item.1)) := by
    rw [List.forall₂_iff_get]
    simp only [List.length_map, List.length_zipIdx]
    refine ⟨(length_tokens_qualify t).symm, fun i hi hi' => ?_⟩
    obtain ⟨token', htoken', hpiece⟩ := qualify_token (t := t) (i := i)
      ((tokens_parse t i).trans (List.getElem?_eq_getElem hi))
    rw [tokens_parse, List.getElem?_eq_getElem hi', Option.some.injEq] at htoken'
    simp only [List.get_eq_getElem, List.getElem_map, List.getElem_zipIdx, Nat.zero_add]
    exact ⟨rfl, by rw [htoken', hpiece]⟩
  refine List.rel_filter ?_ hall
  rintro x y ⟨-, hpiece⟩
  have htrivia := qualifiedPiece_isTrivia (parse t) x.2
  rw [← hpiece] at htrivia
  simp only [htrivia]

/-- The token is a name that the first step writes in full. -/
def Requalifies (f : SourceFile) (token : Token) : Prop :=
  token.kind.isName ∧ (f.qualified? token).isSome

/-- Of the tokens that are not trivia, the first step changes only such names. -/
theorem sameItem_cases {x y : Nat × Token} (h : (parse t).SameItem x y)
    (htoken : (parse t).tokens[x.1]? = some x.2) (htrivia : x.2.kind.isTrivia = false) :
    ((parse t).Requalifies x.2 → y.2.kind = .nameFullyQualified) ∧
      (¬(parse t).Requalifies x.2 → y.2.kind = x.2.kind ∧ y.2.text = x.2.text) := by
  obtain ⟨-, hpiece⟩ := h
  rw [qualifiedPiece] at hpiece
  cases hnew : (parse t).qualified? x.2 with
  | none =>
    rw [hnew] at hpiece
    refine ⟨fun hchanged => ?_, fun _ => Prod.mk.inj hpiece⟩
    have hsome := hchanged.2
    rw [hnew] at hsome
    cases hsome
  | some new =>
    have hname : x.2.kind.isName := by
      rcases qualified?_cases htoken hnew with ⟨s, -, r, hr, hindex, -⟩ | ⟨hkind, -⟩
      · obtain ⟨token, htoken', hname, -⟩ := references_token hr
        rw [hindex, htoken, Option.some.injEq] at htoken'
        rwa [htoken']
      · rw [hkind] at htrivia
        cases htrivia
    rw [hnew] at hpiece
    refine ⟨fun _ => ?_, fun hsame => absurd ⟨hname, by rw [hnew]; rfl⟩ hsame⟩
    rw [(Prod.mk.inj hpiece).1, if_pos hname]

/-- The first step writes the name at a position of the code in full. -/
def Requalified (t : Text) (p : Nat) : Prop :=
  ∃ item, (Code.ofText t).items[p]? = some item ∧ (parse t).Requalifies item.2

theorem item_spec {p : Nat} {item : Nat × Token} (h : (Code.ofText t).items[p]? = some item) :
    (parse t).tokens[item.1]? = some item.2 ∧ item.2.kind.isTrivia = false := by
  have hitem : (Code.itemsOf (tokenize t))[p]? = some item := by rwa [← List.getElem?_toArray]
  rw [tokens_parse]
  exact Code.mem_itemsOf.mp (List.mem_of_getElem? hitem)

theorem item_cases (t : Text) (p : Nat) :
    ((Code.ofText t).items[p]? = none ∧ (Code.ofText (Adaptation.qualify t)).items[p]? = none) ∨
    ∃ item item', (Code.ofText t).items[p]? = some item ∧
      (Code.ofText (Adaptation.qualify t)).items[p]? = some item' ∧ (parse t).SameItem item item' := by
  have hitems (u : Text) : (Code.ofText u).items[p]? = (Code.itemsOf (tokenize u))[p]? :=
    List.getElem?_toArray
  rw [hitems t, hitems (Adaptation.qualify t)]
  exact forall₂_getElem? (items_qualify t) p

theorem kind?_eq {c : Code} {p : Nat} {item : Nat × Token} (h : c.items[p]? = some item) :
    c.kind? p = some item.2.kind := by
  rw [Code.kind?, h]
  rfl

theorem text_eq {c : Code} {p : Nat} {item : Nat × Token} (h : c.items[p]? = some item) :
    c.text p = item.2.text := by
  rw [Code.text, h]
  rfl

theorem reference_of_requalified {p : Nat} (h : Requalified t p) :
    ∃ s ∈ (parse t).scopes, ∃ r ∈ (parse t).references s.first s.stop,
      ∃ item, (Code.ofText t).items[p]? = some item ∧ item.1 = r.token := by
  obtain ⟨item, hitem, -, hnew⟩ := h
  obtain ⟨htoken, htrivia⟩ := item_spec hitem
  obtain ⟨new, hnew⟩ := Option.isSome_iff_exists.mp hnew
  rcases qualified?_cases htoken hnew with ⟨s, hs, r, hr, hindex, -⟩ | ⟨hkind, -⟩
  · exact ⟨s, hs, r, hr, item, hitem, hindex.symm⟩
  · rw [hkind] at htrivia
    cases htrivia

/-- Nothing around a reference, as far as its scope shows it, keeps it from being one. -/
theorem free_of_reference {s : Scope} (hs : s ∈ (parse t).scopes) {r : Reference}
    (hr : r ∈ (parse t).references s.first s.stop) {p : Nat} {item : Nat × Token}
    (hitem : (Code.ofText t).items[p]? = some item) (hindex : item.1 = r.token) :
    ∃ first stop, s.Covers (.ofText t) first stop ∧ first ≤ p ∧ p < stop ∧ item.2.kind.isName ∧
      ((parse t).window s.first s.stop).Free (p - first) := by
  obtain ⟨first, stop, hcovers⟩ := scopes_cover hs
  have hsize : p < (Code.ofText t).size := (Array.getElem?_eq_some_iff.mp hitem).1
  have hinside := containsToken_of_mem hr
  rw [← hindex, ← Code.tokenIndex_eq hitem, hcovers.mem p hsize] at hinside
  rw [references, List.range_eq_range'] at hr
  obtain ⟨q, token, hq, hname, -, -, hfree⟩ :=
    referencesAt_free (ScanState.initial_settled _ 0) r hr
  have hp : ((parse t).window s.first s.stop)[p - first]? = some (r.token, item.2) := by
    rw [window_of_covers hcovers, Nat.add_sub_cancel' hinside.1, if_pos hinside.2, hitem, ← hindex]
  obtain rfl := window_injective hp hq
  obtain rfl : item.2 = token := (Prod.mk.inj (Option.some.inj (hp.symm.trans hq))).2
  exact ⟨first, stop, hcovers, hinside.1, hinside.2, hname, hfree⟩

end SourceFile

namespace Scope.Covers

variable {s : Scope} {c : Code} {first stop p q : Nat} {kind next : TokenKind}

theorem first_le (h : s.Covers c first stop) (hle : first ≤ p) (hkind : c.kind? p = some kind)
    (hne : kind ≠ .kwNamespace) (hq : q + 1 = p) : first ≤ q := by
  rcases h.start with rfl | hstart
  · exact Nat.zero_le q
  · by_contra hlt
    obtain rfl : first = p := by omega
    rw [hkind, Option.some.injEq] at hstart
    exact hne hstart

theorem lt_stop (h : s.Covers c first stop) (hlt : p < stop) (hkind : c.kind? p = some kind)
    (hne : kind ≠ .rightBrace) (hnext : c.kind? (p + 1) = some next) (hne' : next ≠ .kwNamespace) :
    p + 1 < stop := by
  by_contra hle
  obtain rfl : stop = p + 1 := by omega
  rcases h.edge with hsize | hedge | hedge
  · have := Code.lt_size_of_kind? hnext
    omega
  · rw [hnext, Option.some.injEq] at hedge
    exact hne' hedge
  · rw [Nat.add_sub_cancel, hkind, Option.some.injEq] at hedge
    exact hne hedge

end Scope.Covers

namespace SourceFile

variable {t : Text} {s : Scope} {first stop p : Nat}

theorem kind?_window (h : s.Covers (.ofText t) first stop) (hle : first ≤ p) (hlt : p < stop) :
    ((parse t).window s.first s.stop).kind? (p - first) = (Code.ofText t).kind? p := by
  rw [Window.kind?, window_of_covers h, Nat.add_sub_cancel' hle, if_pos hlt]
  rfl

theorem text_window (h : s.Covers (.ofText t) first stop) (hle : first ≤ p) (hlt : p < stop) :
    ((parse t).window s.first s.stop).text (p - first) = (Code.ofText t).text p := by
  rw [Window.text, window_of_covers h, Nat.add_sub_cancel' hle, if_pos hlt]
  rfl

theorem back?_window (h : s.Covers (.ofText t) first stop) {q n : Nat} (hle : first ≤ q)
    (hq : q + n = p) (hlt : p < stop) :
    ((parse t).window s.first s.stop).back? (p - first) n = (Code.ofText t).kind? q := by
  have hsub : p - first - n = q - first := by omega
  rw [Window.back?, if_neg (by omega), hsub, kind?_window h hle (by omega)]

theorem ne_of_isName {kind other : TokenKind} (h : kind.isName) (hother : other.isName = false) :
    kind ≠ other := by
  rintro rfl
  rw [h] at hother
  cases hother

/-- Nothing around a reference says that it is none. -/
theorem isFree_of_reference (hs : s ∈ (parse t).scopes) {r : Reference}
    (hr : r ∈ (parse t).references s.first s.stop) {item : Nat × Token}
    (hitem : (Code.ofText t).items[p]? = some item) (hindex : item.1 = r.token) :
    (Code.ofText t).IsFree p := by
  obtain ⟨first, stop, hcovers, hle, hlt, hisName, hfree⟩ := free_of_reference hs hr hitem hindex
  have hname := kind?_eq hitem
  have hne : _ ≠ TokenKind.kwNamespace := ne_of_isName hisName rfl
  have hwindow := kind?_window hcovers hle hlt
  have hback {q : Nat} (hp : p = q + 1) : first ≤ q ∧
      ((parse t).window s.first s.stop).back? (p - first) 1 = (Code.ofText t).kind? q := by
    have hfirst := hcovers.first_le hle hname hne hp.symm
    exact ⟨hfirst, back?_window hcovers hfirst hp.symm hlt⟩
  have hback2 {q : Nat} {kind : TokenKind} (hp : p = q + 2) (hkind : (Code.ofText t).kind? (q + 1) = some kind)
      (hspace : kind ≠ .kwNamespace) :
      ((parse t).window s.first s.stop).back? (p - first) 2 = (Code.ofText t).kind? q := by
    have hfirst := hcovers.first_le (hback hp).1 hkind hspace rfl
    exact back?_window hcovers hfirst hp.symm hlt
  have hnext {kind : TokenKind} (hident : (Code.ofText t).kind? p = some .ident)
      (hkind : (Code.ofText t).kind? (p + 1) = some kind) (hspace : kind ≠ .kwNamespace) :
      ((parse t).window s.first s.stop).kind? (p - first + 1) = some kind := by
    have hstop := hcovers.lt_stop hlt hident (by decide) hkind hspace
    rw [show p - first + 1 = p + 1 - first by omega, kind?_window hcovers (by omega) hstop, hkind]
  refine ⟨fun q kind hp hkind => ?_, fun q hp hfunction hampersand => ?_, fun hident henum hafter => ?_,
    fun q hp hident henum hafter => ?_, fun q hp hcomma hident hequals => ?_,
    fun q hp hdeclare hparen hident hequals => ?_⟩
  · have hbefore := hfree.before kind ((hback hp).2.trans hkind)
    cases kind <;> first | rfl | cases hbefore
  · exact hfree.byReference ⟨(hback hp).2.trans hampersand,
      (hback2 hp hampersand (by decide)).trans hfunction⟩
  · refine hfree.enumeration (hwindow.trans hident) ?_ (hnext hident hafter (by decide))
    rw [text_window hcovers hle hlt]
    exact henum
  · obtain ⟨hfirst, hbefore⟩ := hback hp
    have hplain := hfree.enumerated (hwindow.trans hafter) (hbefore.trans hident)
    rw [show p - first - 1 = q - first by omega, text_window hcovers hfirst (by omega), henum] at hplain
    cases hplain
  · exact hfree.constant (hwindow.trans hident) ((hback hp).2.trans hcomma)
      (hnext hident hequals (by decide))
  · exact hfree.directive (hwindow.trans hident) ((hback hp).2.trans hparen)
      ((hback2 hp hparen (by decide)).trans hdeclare) (hnext hident hequals (by decide))

/-- The code after the first step is that before it with some names written in full, none of which
declares anything. -/
theorem code_respelled (t : Text) :
    (Code.ofText t).Respelled (.ofText (Adaptation.qualify t)) (Requalified t) where
  size := by
    rw [Code.ofText, Code.ofText, Code.size_ofTokens, Code.size_ofTokens]
    exact (items_qualify t).length_eq.symm
  tokenIndex p := by
    rcases item_cases t p with ⟨hnone, hnone'⟩ | ⟨item, item', hitem, hitem', hindex, -⟩
    · rw [Code.tokenIndex, Code.tokenIndex, hnone, hnone']
      exact length_tokens_qualify t
    · rw [Code.tokenIndex_eq hitem, Code.tokenIndex_eq hitem', hindex]
  groupEnd p := by
    have hsize : (Code.ofText (Adaptation.qualify t)).size = (Code.ofText t).size := by
      rw [Code.ofText, Code.ofText, Code.size_ofTokens, Code.size_ofTokens]
      exact (items_qualify t).length_eq.symm
    have hkinds : List.Forall₂ (fun k k' => k' = k ∨ k.isName ∧ k'.isName)
        ((Code.itemsOf (tokenize t)).map (·.2.kind))
        ((Code.itemsOf (tokenize (Adaptation.qualify t))).map (·.2.kind)) := by
      rw [List.forall₂_map_left_iff, List.forall₂_map_right_iff]
      refine (items_qualify t).imp fun x y hitem => ?_
      have hpiece := hitem.2
      rw [qualifiedPiece] at hpiece
      cases hnew : (parse t).qualified? x.2 with
      | none =>
        rw [hnew] at hpiece
        exact Or.inl (Prod.mk.inj hpiece).1
      | some new =>
        rw [hnew] at hpiece
        have hkind := (Prod.mk.inj hpiece).1
        split at hkind
        · rename_i hname
          exact Or.inr ⟨hname, by rw [hkind]; rfl⟩
        · exact Or.inl hkind
    have hmatching : (Code.ofText (Adaptation.qualify t)).matching = (Code.ofText t).matching :=
      BracketMatching.ofKindsFrom_congr hkinds 0 []
    rw [Code.groupEnd, Code.groupEnd, hmatching, hsize]
  same p hp := by
    rcases item_cases t p with ⟨hnone, hnone'⟩ | ⟨item, item', hitem, hitem', hitems⟩
    · rw [Code.kind?, Code.kind?, Code.text, Code.text, hnone, hnone']
      exact ⟨rfl, rfl⟩
    · obtain ⟨htoken, htrivia⟩ := item_spec hitem
      have hkept : ¬(parse t).Requalifies item.2 := fun hchanged => hp ⟨item, hitem, hchanged⟩
      obtain ⟨hkind, htext⟩ := (sameItem_cases hitems htoken htrivia).2 hkept
      rw [kind?_eq hitem, kind?_eq hitem', text_eq hitem, text_eq hitem', hkind, htext]
      exact ⟨rfl, rfl⟩
  name p hp := by
    obtain ⟨item, hitem, hchanged⟩ := hp
    obtain ⟨htoken, htrivia⟩ := item_spec hitem
    rcases item_cases t p with ⟨hnone, -⟩ | ⟨item, item', hitem', hfull, hitems⟩
    · rw [hnone] at hitem
      cases hitem
    · rw [hitem, Option.some.injEq] at hitem'
      subst hitem'
      refine ⟨item.2.kind, kind?_eq hitem, hchanged.1, ?_⟩
      rw [kind?_eq hfull, (sameItem_cases hitems htoken htrivia).1 hchanged]
  free p hp := by
    obtain ⟨s, hs, r, hr, item, hitem, hindex⟩ := reference_of_requalified hp
    exact isFree_of_reference hs hr hitem hindex

end SourceFile
end NamespaceMigration
