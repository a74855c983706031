import Mathlib.Data.List.Basic
import Mathlib.Data.List.Pairwise
import NamespaceMigration.Proofs.Statements.Bare
import NamespaceMigration.Reference.Scan

/-! Where references stand. A name that declares something is none, whatever the scan remembers, and after a comma, or
at the head of a `declare`, it remembers no result type. The scan of a scope looks at a run of positions of the code,
and every reference is a token of its own, in one scope only. -/
namespace NamespaceMigration

namespace Window

theorem back?_succ (w : Window) (p n : Nat) : w.back? (p + 1) (n + 1) = w.back? p n := by
  simp only [back?, Nat.add_lt_add_iff_right, Nat.add_sub_add_right]

/-- Nothing around a name, as far as the scan need not remember it, says that it is no reference. -/
structure Free (w : Window) (p : Nat) : Prop where
  before : ∀ kind, w.back? p 1 = some kind → precedesNoReference kind = false
  byReference : ¬(w.back? p 1 = some .ampersand ∧ w.back? p 2 = some .kwFunction)
  enumeration : w.kind? p = some .ident → Text.eqIgnoreCase (w.text p) "enum" →
    w.kind? (p + 1) ≠ some .ident
  enumerated : w.kind? p = some .ident → w.back? p 1 = some .ident →
    Text.eqIgnoreCase (w.text (p - 1)) "enum" = false
  constant : w.kind? p = some .ident → w.back? p 1 = some .comma → w.kind? (p + 1) ≠ some .equals
  directive : w.kind? p = some .ident → w.back? p 1 = some .leftParen → w.back? p 2 = some .kwDeclare →
    w.kind? (p + 1) ≠ some .equals

theorem isPlainWord_of_enumeration {w : Window} {s : ScanState} {p : Nat}
    (henum : Text.eqIgnoreCase (w.text p) "enum") (hnext : w.kind? (p + 1) = some .ident) :
    w.isPlainWord s p := by
  simp only [isPlainWord, henum, hnext, BEq.rfl, Bool.and_self, Bool.true_or]

theorem isPlainWord_of_enumerated {w : Window} {s : ScanState} {p : Nat}
    (hbefore : w.back? p 1 = some .ident) (henum : Text.eqIgnoreCase (w.text (p - 1)) "enum") :
    w.isPlainWord s p := by
  simp only [isPlainWord, henum, hbefore, BEq.rfl, Bool.and_self, Bool.true_or, Bool.or_true]

theorem isPlainWord_of_equals {w : Window} {s : ScanState} {p : Nat} (hresult : s.resultType = false)
    (hnext : w.kind? (p + 1) = some .equals) : w.isPlainWord s p := by
  simp [isPlainWord, hresult, hnext]

/-- Before a position stands what no result type goes on over: a comma, or `declare`, perhaps with the
parenthesis after it. -/
def EndsResult (w : Window) (p : Nat) : Prop :=
  w.back? p 1 = some .comma ∨ w.back? p 1 = some .kwDeclare ∨
    w.back? p 1 = some .leftParen ∧ w.back? p 2 = some .kwDeclare

theorem free_of_classify? {w : Window} {s : ScanState} {p : Nat} {kind : SymbolKind}
    (hends : w.EndsResult p → s.resultType = false)
    (h : w.classify? s p = some kind) : w.Free p := by
  rw [classify?] at h
  split at h
  · cases h
  · rename_i hbefore
    split at h
    · cases h
    · rename_i hreference
      split at h
      · cases h
      · rename_i hplain
        have hword (hident : w.kind? p = some .ident) : ¬w.isPlainWord s p := by
          simpa [isAt, hident] using hplain
        refine ⟨fun before hb => ?_, fun hand => ?_, fun hident henum hnext => ?_,
          fun hident hprevious => ?_, fun hident hprevious hequals => ?_,
          fun hident hprevious hdeclare hequals => ?_⟩
        · simpa [hb] using hbefore
        · simp [hand] at hreference
        · exact hword hident (isPlainWord_of_enumeration henum hnext)
        · rw [Bool.eq_false_iff]
          exact fun henum => hword hident (isPlainWord_of_enumerated hprevious henum)
        · exact hword hident (isPlainWord_of_equals (hends (.inl hprevious)) hequals)
        · exact hword hident (isPlainWord_of_equals (hends (.inr (.inr ⟨hprevious, hdeclare⟩))) hequals)

end Window

namespace ScanState

/-- Where no result type goes on there is none. -/
def Settled (s : ScanState) (w : Window) (p : Nat) : Prop := w.EndsResult p → s.resultType = false

theorem initial_settled (w : Window) (p : Nat) : initial.Settled w p := fun _ => rfl

theorem next_settled {s : ScanState} {w : Window} (inImport : Bool) {p : Nat} {kind : TokenKind}
    (hkind : w.kind? p = some kind) (hs : s.Settled w p) :
    (s.next w inImport p kind).Settled w (p + 1) := by
  have hback : w.back? (p + 1) 1 = some kind := hkind
  rintro (hcomma | hdeclare | ⟨hparen, hdeclare⟩)
  · obtain rfl := Option.some.inj (hback.symm.trans hcomma)
    simp [next, continuesResultType]
  · obtain rfl := Option.some.inj (hback.symm.trans hdeclare)
    simp [next, continuesResultType]
  · obtain rfl := Option.some.inj (hback.symm.trans hparen)
    rw [Window.back?_succ] at hdeclare
    simp [next, hs (.inr (.inl hdeclare))]

theorem settled_of_name (s : ScanState) (w : Window) {p : Nat} {kind : TokenKind}
    (hkind : w.kind? p = some kind) (hname : kind.isName) : s.Settled w (p + 1) := by
  have hback : w.back? (p + 1) 1 = some kind := hkind
  rintro (h | h | ⟨h, -⟩) <;> obtain rfl := Option.some.inj (hback.symm.trans h) <;> cases hname

end ScanState

namespace SourceFile

/-- What the scan finds are names in code that nothing keeps from being references. -/
theorem referencesAt_free {w : Window} {inImport : Nat → Bool} {s : ScanState} {p n : Nat}
    (hs : s.Settled w p) : ∀ r ∈ referencesAt w inImport s (List.range' p n),
      ∃ q token, w[q]? = some (r.token, token) ∧ token.kind.isName ∧ token.text = r.text ∧
        inImport r.token = false ∧ w.Free q := by
  induction n generalizing p s with
  | zero => simp [referencesAt]
  | succ n ih =>
    intro r hr
    rw [List.range'_succ, referencesAt] at hr
    split at hr
    · cases hr
    · rename_i index token hitem
      have hkind : w.kind? p = some token.kind := by rw [Window.kind?, hitem]; rfl
      split at hr
      · rename_i hname
        have hrest := ih (s.settled_of_name w hkind hname) r
        dsimp only at hr
        split at hr
        · rename_i kind hfound
          split at hfound
          · cases hfound
          · rename_i himport
            rcases List.mem_cons.mp hr with rfl | hr
            · exact ⟨p, token, hitem, hname, rfl, by simpa using himport,
                Window.free_of_classify? hs hfound⟩
            · exact hrest hr
        · exact hrest hr
      · exact ih (ScanState.next_settled _ hkind hs) r hr

/-- Every position gives at most one reference, and they come in order. -/
theorem referencesAt_token {w : Window} {inImport : Nat → Bool} {s : ScanState} {ps : List Nat} :
    ∀ r ∈ referencesAt w inImport s ps, ∃ p ∈ ps, ∃ token, w[p]? = some (r.token, token) := by
  induction ps generalizing s with
  | nil => simp [referencesAt]
  | cons p ps ih =>
    intro r hr
    have hlater {s : ScanState} (hr : r ∈ referencesAt w inImport s ps) :
        ∃ q ∈ p :: ps, ∃ token, w[q]? = some (r.token, token) := by
      obtain ⟨q, hq, hitem⟩ := ih r hr
      exact ⟨q, List.mem_cons_of_mem _ hq, hitem⟩
    rw [referencesAt] at hr
    split at hr
    · cases hr
    · rename_i index token hitem
      split at hr
      · dsimp only at hr
        split at hr
        · rcases List.mem_cons.mp hr with rfl | hr
          · exact ⟨p, List.mem_cons_self, token, hitem⟩
          · exact hlater hr
        · exact hlater hr
      · exact hlater hr

variable {f : SourceFile} {first stop : Nat}

theorem window_eq (f : SourceFile) (first stop : Nat) : f.window first stop =
    ((Code.itemsOf f.tokens.toList).filter fun item => first ≤ item.1 && item.1 < stop).toArray := by
  rw [window, Code.itemsOf, List.filter_filter]

theorem getElem?_window (f : SourceFile) (first stop p : Nat) : (f.window first stop)[p]? =
    ((Code.itemsOf f.tokens.toList).filter fun item => first ≤ item.1 && item.1 < stop)[p]? := by
  rw [window_eq, List.getElem?_toArray]

theorem mem_window {p index : Nat} {token : Token}
    (h : (f.window first stop)[p]? = some (index, token)) : f.tokens[index]? = some token ∧
      token.kind.isTrivia = false ∧ first ≤ index ∧ index < stop := by
  rw [getElem?_window] at h
  obtain ⟨hitem, hinside⟩ := List.mem_filter.mp (List.mem_of_getElem? h)
  obtain ⟨htoken, htrivia⟩ := Code.mem_itemsOf.mp hitem
  rw [Bool.and_eq_true, decide_eq_true_eq, decide_eq_true_eq] at hinside
  rw [Array.getElem?_toList] at htoken
  exact ⟨htoken, htrivia, hinside⟩

theorem window_lt {p q index index' : Nat} {token token' : Token}
    (hp : (f.window first stop)[p]? = some (index, token))
    (hq : (f.window first stop)[q]? = some (index', token')) (hlt : p < q) : index < index' := by
  rw [getElem?_window] at hp hq
  have hsorted := (Code.pairwise_itemsOf f.tokens.toList).filter
    fun item => first ≤ item.1 && item.1 < stop
  obtain ⟨hplt, hp⟩ := List.getElem?_eq_some_iff.mp hp
  obtain ⟨hqlt, hq⟩ := List.getElem?_eq_some_iff.mp hq
  have := List.pairwise_iff_getElem.mp hsorted p q hplt hqlt hlt
  rwa [hp, hq] at this

theorem window_injective {p q index : Nat} {token token' : Token}
    (hp : (f.window first stop)[p]? = some (index, token))
    (hq : (f.window first stop)[q]? = some (index, token')) : p = q := by
  rcases Nat.lt_trichotomy p q with hlt | heq | hgt
  · exact absurd (window_lt hp hq hlt) (Nat.lt_irrefl _)
  · exact heq
  · exact absurd (window_lt hq hp hgt) (Nat.lt_irrefl _)

theorem references_token {r : Reference} (hr : r ∈ f.references first stop) :
    ∃ token, f.tokens[r.token]? = some token ∧ token.kind.isName ∧ token.text = r.text ∧
      first ≤ r.token ∧ r.token < stop ∧
      ∀ span ∈ f.importSpans, ¬(span.1 ≤ r.token ∧ r.token < span.2) := by
  rw [references, List.range_eq_range'] at hr
  obtain ⟨q, token, hitem, hname, htext, himport, -⟩ := referencesAt_free (ScanState.initial_settled _ 0) r hr
  obtain ⟨htoken, -, hfirst, hstop⟩ := mem_window hitem
  refine ⟨token, htoken, hname, htext, hfirst, hstop, fun span hspan hinside => ?_⟩
  rw [List.any_eq_false] at himport
  refine himport span hspan ?_
  rw [Bool.and_eq_true, decide_eq_true_eq, decide_eq_true_eq]
  exact hinside

/-- References come in the order of their tokens. -/
theorem referencesAt_increasing {w : Window} (hw : ∀ {p q index index' : Nat} {token token' : Token},
    w[p]? = some (index, token) → w[q]? = some (index', token') → p < q → index < index')
    {inImport : Nat → Bool} {s : ScanState} {ps : List Nat} (hps : ps.Pairwise (· < ·)) :
    (referencesAt w inImport s ps).Pairwise fun r r' => r.token < r'.token := by
  induction ps generalizing s with
  | nil => exact .nil
  | cons p ps ih =>
    rw [List.pairwise_cons] at hps
    rw [referencesAt]
    split
    · exact .nil
    · rename_i index token hitem
      split
      · dsimp only
        split
        · refine List.pairwise_cons.mpr ⟨fun r hr => ?_, ih hps.2⟩
          obtain ⟨q, hq, token', hitem'⟩ := referencesAt_token r hr
          exact hw hitem hitem' (hps.1 q hq)
        · exact ih hps.2
      · exact ih hps.2

theorem references_increasing (f : SourceFile) (first stop : Nat) :
    (f.references first stop).Pairwise fun r r' => r.token < r'.token :=
  referencesAt_increasing window_lt List.pairwise_lt_range

theorem references_unique {r r' : Reference} (hr : r ∈ f.references first stop)
    (hr' : r' ∈ f.references first stop) (h : r.token = r'.token) : r = r' := by
  by_contra hne
  have hpairwise : (f.references first stop).Pairwise fun r r' => r.token ≠ r'.token :=
    (references_increasing f first stop).imp Nat.ne_of_lt
  have : Std.Symm fun r r' : Reference => r.token ≠ r'.token := ⟨fun _ _ h => h.symm⟩
  exact hpairwise.forall hr hr' hne h

theorem scope_unique {t : Text} {s s' : Scope} (hs : s ∈ (parse t).scopes)
    (hs' : s' ∈ (parse t).scopes) {index : Nat} (h : s.containsToken index)
    (h' : s'.containsToken index) : s = s' := by
  by_contra hne
  have hpairwise : (parse t).scopes.Pairwise fun s s' =>
      ∀ i, ¬(s.containsToken i ∧ s'.containsToken i) := by
    refine (scopes_pairwise t).imp fun hle i => ?_
    simp only [Scope.containsToken, Bool.and_eq_true, decide_eq_true_eq]
    omega
  have : Std.Symm fun s s' : Scope => ∀ i, ¬(s.containsToken i ∧ s'.containsToken i) :=
    ⟨fun _ _ h i hi => h i hi.symm⟩
  exact hpairwise.forall hs hs' hne index ⟨h, h'⟩

theorem containsToken_of_mem {s : Scope} {r : Reference} (hr : r ∈ f.references s.first s.stop) :
    s.containsToken r.token := by
  obtain ⟨_, -, -, -, hfirst, hstop, -⟩ := references_token hr
  rw [Scope.containsToken, Bool.and_eq_true, decide_eq_true_eq, decide_eq_true_eq]
  exact ⟨hfirst, hstop⟩

end SourceFile

end NamespaceMigration
