import NamespaceMigration.Proofs.Rewriting.Respelled

/-! The references after the first step. A text whose `use` statements are well-formed keeps its
statements, so the scan of every scope finds the references that it found before, some of them written
in full. -/
namespace NamespaceMigration

open Lexer (tokenize)

namespace SourceFile

variable {t : Text}

def UsesWellFormed (f : SourceFile) : Prop := ∀ e ∈ f.errors, e.fault ≠ .malformedUse

instance (f : SourceFile) : Decidable f.UsesWellFormed :=
  inferInstanceAs (Decidable (∀ e ∈ f.errors, e.fault ≠ .malformedUse))

theorem requalified_reference {p : Nat} (h : Requalified t p) :
    ∃ s ∈ (parse t).scopes, ∃ r ∈ (parse t).references s.first s.stop,
      r.token = (Code.ofText t).tokenIndex p := by
  obtain ⟨item, hitem, -, hnew⟩ := h
  obtain ⟨htoken, htrivia⟩ := item_spec hitem
  obtain ⟨new, hnew⟩ := Option.isSome_iff_exists.mp hnew
  rcases qualified?_cases htoken hnew with ⟨s, hs, r, hr, hindex, -⟩ | ⟨hkind, -⟩
  · exact ⟨s, hs, r, hr, by rw [hindex, Code.tokenIndex_eq hitem]⟩
  · rw [hkind] at htrivia
    cases htrivia

theorem importsFree_qualify (t : Text) :
    (parse t).root.Everywhere (Parser.ImportsFree (.ofText t) (Requalified t)) := by
  refine everywhere_of_outline [] 0 _ fun l hl items hitems p hp hinside => ?_
  obtain ⟨s, -, r, hr, hindex⟩ := requalified_reference hp
  obtain ⟨-, -, -, -, -, -, houtside⟩ := references_token hr
  refine houtside (l.statement.first, l.statement.stop) (List.mem_filterMap.mpr ⟨l, hl, ?_⟩) ?_
  · rw [Statement.importItems?, hitems]
    rfl
  · rw [hindex]
    exact hinside

theorem root_parse (t : Text) : (parse t).root =
    ⟨.sourceFile, 0, (parse t).tokens.size, none, (Parser.topStatements (.ofText t)).value⟩ := rfl

theorem alike_qualify (h : (parse t).UsesWellFormed) :
    (parse t).Alike (parse (Adaptation.qualify t)) where
  root := by
    have hfine : Parser.Fine (.ofText t) (Requalified t) (Parser.topStatements (.ofText t)) :=
      ⟨fun e he => h e (List.mem_append_right _ he), fun s hs => (importsFree_qualify t).child hs⟩
    have hordered : (Code.ofText t).Ordered := Code.ordered_ofTokens _ _
    obtain ⟨-, hvalue⟩ := Parser.topStatements_like hordered (code_respelled t) hfine
    rw [root_parse, root_parse, Statement.bare, Statement.bare, hvalue, length_tokens_qualify]
  size := (length_tokens_qualify t).symm

/-- The name at a position of a window is one that the first step writes in full. -/
def RequalifiedIn (f : SourceFile) (w : Window) (p : Nat) : Prop :=
  ∃ item, w[p]? = some item ∧ f.Requalifies item.2

/-- The items of the tokens from `first` up to `stop`. -/
def windowItems (t : Text) (first stop : Nat) : List (Nat × Token) :=
  (Code.itemsOf (tokenize t)).filter fun item => first ≤ item.1 && item.1 < stop

theorem window_parse (t : Text) (first stop : Nat) :
    (parse t).window first stop = (windowItems t first stop).toArray := window_eq (parse t) first stop

theorem windowItems_qualify (t : Text) (first stop : Nat) : List.Forall₂ (parse t).SameItem
    (windowItems t first stop) (windowItems (Adaptation.qualify t) first stop) := by
  refine List.rel_filter ?_ (items_qualify t)
  rintro ⟨index, x⟩ ⟨index', y⟩ ⟨hindex, -⟩
  dsimp only at hindex ⊢
  rw [hindex]

theorem windowItem_cases (t : Text) (first stop p : Nat) :
    (((parse t).window first stop)[p]? = none ∧
      ((parse (Adaptation.qualify t)).window first stop)[p]? = none) ∨
    ∃ item item', ((parse t).window first stop)[p]? = some item ∧
      ((parse (Adaptation.qualify t)).window first stop)[p]? = some item' ∧
      (parse t).SameItem item item' := by
  rw [window_parse, window_parse, List.getElem?_toArray, List.getElem?_toArray]
  exact forall₂_getElem? (windowItems_qualify t first stop) p

theorem item_of_index? {w : Window} {p index : Nat} (h : w.index? p = some index) :
    ∃ token, w[p]? = some (index, token) := by
  obtain ⟨⟨_, token⟩, hitem, rfl⟩ := Option.map_eq_some_iff.mp h
  exact ⟨token, hitem⟩

theorem requalifiedIn_reference {s : Scope} (hs : s ∈ (parse t).scopes) {p : Nat}
    (hp : (parse t).RequalifiedIn ((parse t).window s.first s.stop) p) :
    ∃ r ∈ (parse t).references s.first s.stop,
      ((parse t).window s.first s.stop).index? p = some r.token := by
  obtain ⟨item, hitem, -, hnew⟩ := hp
  obtain ⟨htoken, htrivia, hfirst, hstop⟩ := mem_window hitem
  obtain ⟨new, hnew⟩ := Option.isSome_iff_exists.mp hnew
  rcases qualified?_cases htoken hnew with ⟨s', hs', r, hr, hindex, -⟩ | ⟨hkind, -⟩
  · have hinside : s.containsToken r.token := by
      rw [Scope.containsToken, Bool.and_eq_true, decide_eq_true_eq, decide_eq_true_eq, hindex]
      exact ⟨hfirst, hstop⟩
    obtain rfl := scope_unique hs hs' hinside (containsToken_of_mem hr)
    exact ⟨r, hr, by rw [Window.index?, hitem, hindex]; rfl⟩
  · rw [hkind] at htrivia
    cases htrivia

theorem window_respelled {s : Scope} (hs : s ∈ (parse t).scopes) :
    ((parse t).window s.first s.stop).Respelled
      ((parse (Adaptation.qualify t)).window s.first s.stop)
      ((parse t).RequalifiedIn ((parse t).window s.first s.stop)) where
  index p := by
    rcases windowItem_cases t s.first s.stop p with
      ⟨hnone, hnone'⟩ | ⟨item, item', hitem, hitem', hindex, -⟩
    · rw [Window.index?, Window.index?, hnone, hnone']
    · rw [Window.index?, Window.index?, hitem, hitem', Option.map_some, Option.map_some, hindex]
  same p hp := by
    rcases windowItem_cases t s.first s.stop p with
      ⟨hnone, hnone'⟩ | ⟨item, item', hitem, hitem', hitems⟩
    · rw [Window.kind?, Window.kind?, Window.text, Window.text, hnone, hnone']
      exact ⟨rfl, rfl⟩
    · obtain ⟨htoken, htrivia, -⟩ := mem_window hitem
      have hkept : ¬(parse t).Requalifies item.2 := fun hchanged => hp ⟨item, hitem, hchanged⟩
      obtain ⟨hkind, htext⟩ := (sameItem_cases hitems htoken htrivia).2 hkept
      rw [Window.kind?, Window.kind?, Window.text, Window.text, hitem, hitem', Option.map_some,
        Option.map_some, Option.map_some, Option.map_some, hkind, htext]
      exact ⟨rfl, rfl⟩
  name p hp := by
    obtain ⟨item, hitem, hchanged⟩ := hp
    obtain ⟨htoken, htrivia, -⟩ := mem_window hitem
    rcases windowItem_cases t s.first s.stop p with
      ⟨hnone, -⟩ | ⟨item₁, item', hitem₁, hitem', hitems⟩
    · rw [hnone] at hitem
      cases hitem
    · rw [hitem, Option.some.injEq] at hitem₁
      subst hitem₁
      refine ⟨item.2.kind, by rw [Window.kind?, hitem]; rfl, hchanged.1, ?_⟩
      rw [Window.kind?, hitem', Option.map_some, (sameItem_cases hitems htoken htrivia).1 hchanged]
  free p hp := by
    obtain ⟨r, hr, hindex⟩ := requalifiedIn_reference hs hp
    rw [references, List.range_eq_range'] at hr
    obtain ⟨q, token, hq, -, -, -, hfree⟩ := referencesAt_free (ScanState.initial_settled _ 0) r hr
    obtain ⟨token', hp⟩ := item_of_index? hindex
    rwa [window_injective hp hq]

/-- The scan finds the same references, with the texts that they have now. -/
theorem references_qualify (h : (parse t).UsesWellFormed) {s : Scope} (hs : s ∈ (parse t).scopes) :
    (parse (Adaptation.qualify t)).references s.first s.stop =
      ((parse t).references s.first s.stop).map fun r =>
        ⟨r.token, r.kind, (parse (Adaptation.qualify t)).tokenText r.token⟩ := by
  have hsize : ((parse (Adaptation.qualify t)).window s.first s.stop).size =
      ((parse t).window s.first s.stop).size := by
    rw [window_parse, window_parse, List.size_toArray, List.size_toArray]
    exact (windowItems_qualify t s.first s.stop).length_eq.symm
  rw [references, references, ← (alike_qualify h).importSpans, hsize]
  refine referencesAt_respelled (window_respelled hs) ?_ ?_ List.nodup_range ?_
  · intro p index token hitem
    obtain ⟨htoken, -⟩ := mem_window hitem
    rw [tokenText, htoken]
    rfl
  · intro p q index hp hq
    obtain ⟨token, hp⟩ := item_of_index? hp
    obtain ⟨token', hq⟩ := item_of_index? hq
    exact window_injective hp hq
  · exact fun p _ hp => requalifiedIn_reference hs hp

end SourceFile
end NamespaceMigration
