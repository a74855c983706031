import NamespaceMigration.Proofs.References.Scanning
import NamespaceMigration.Proofs.References.TypePlaces
import NamespaceMigration.Proofs.Statements.ImportKinds

/-! Names beside imports. A name next to code that imports are not written with belongs to none. -/
namespace NamespaceMigration
namespace SourceFile

variable {t : Text} {first stop p index index' : Nat} {token token' : Token}

/-- Whether a token belongs to a `use` statement. -/
def isImported (f : SourceFile) (index : Nat) : Bool :=
  f.importSpans.any fun span => span.1 ≤ index && index < span.2

theorem mem_items_of_window {f : SourceFile} (hitem : (f.window first stop)[p]? = some (index, token)) :
    (index, token) ∈ Code.itemsOf f.tokens.toList := by
  rw [getElem?_window] at hitem
  exact List.mem_of_mem_filter (List.mem_of_getElem? hitem)

/-- Between neighbours in a window there is no code. -/
theorem window_gap {f : SourceFile} (hitem : (f.window first stop)[p]? = some (index, token))
    (hnext : (f.window first stop)[p + 1]? = some (index', token')) {i : Nat} {between : Token}
    (hmem : (i, between) ∈ Code.itemsOf f.tokens.toList) : i ≤ index ∨ index' ≤ i := by
  by_contra hno
  obtain ⟨-, -, hfirst, -⟩ := mem_window hitem
  obtain ⟨-, -, -, hstop⟩ := mem_window hnext
  have hinside : (i, between) ∈ (Code.itemsOf f.tokens.toList).filter
      fun item => first ≤ item.1 && item.1 < stop := by
    refine List.mem_filter.mpr ⟨hmem, ?_⟩
    rw [Bool.and_eq_true, decide_eq_true_eq, decide_eq_true_eq]
    omega
  obtain ⟨q, hq⟩ := List.mem_iff_getElem?.mp hinside
  rw [← getElem?_window] at hq
  rcases Nat.lt_trichotomy q p with hqp | heq | hpq
  · have := window_lt hq hitem hqp
    omega
  · rw [heq, hitem] at hq
    cases hq
    omega
  · rcases Nat.eq_or_lt_of_le (Nat.succ_le_of_lt hpq) with heq | hnq
    · rw [← heq, hnext] at hq
      cases hq
      omega
    · have := window_lt hnext hq hnq
      omega

/-- The import that a token belongs to, from its first token to its last. -/
theorem exists_import (h : (parse t).isImported index) :
    ∃ a b first last, (a, first) ∈ Code.itemsOf (parse t).tokens.toList ∧
      (b, last) ∈ Code.itemsOf (parse t).tokens.toList ∧ first.kind.isName = false ∧ last.kind.isName = false ∧
        a ≤ index ∧ index ≤ b ∧ ∀ item ∈ Code.itemsOf (parse t).tokens.toList, a ≤ item.1 → item.1 ≤ b →
          item.2.kind.isOfImport := by
  have ho : (Code.ofText t).Ordered := Code.ordered_ofTokens _ _
  have hitems : (Code.ofText t).items = (Code.itemsOf (parse t).tokens.toList).toArray := rfl
  obtain ⟨span, hspan, hinside⟩ := List.any_eq_true.mp h
  rw [Bool.and_eq_true, decide_eq_true_eq, decide_eq_true_eq] at hinside
  obtain ⟨p, n, hlt, hle, rfl, hkinds⟩ := exists_importKinds hspan
  have hkind {k : Nat} {item : Nat × Token} (hk : (Code.ofText t).items[k]? = some item) :
      (Code.ofText t).kind? k = some item.2.kind := by
    rw [Code.kind?, hk]
    rfl
  have hmem {k : Nat} {item : Nat × Token} (hk : (Code.ofText t).items[k]? = some item) :
      item ∈ Code.itemsOf (parse t).tokens.toList := by
    rw [hitems, List.getElem?_toArray] at hk
    exact List.mem_of_getElem? hk
  obtain ⟨⟨a, opening⟩, ha⟩ := Code.exists_item (show p < (Code.ofText t).size by omega)
  obtain ⟨⟨b, closing⟩, hb⟩ := Code.exists_item (show n - 1 < (Code.ofText t).size by omega)
  obtain ⟨closer, hclosers, hcloser⟩ := Code.exists_kind_of_isAtAny hkinds.last
  have hindex : (Code.ofText t).tokenIndex p = a := Code.tokenIndex_eq ha
  have hindex' : (Code.ofText t).tokenIndex (n - 1) = b := Code.tokenIndex_eq hb
  rw [hindex, hindex'] at hinside
  refine ⟨a, b, opening, closing, hmem ha, hmem hb, ?_, ?_, hinside.1, Nat.le_of_lt_succ hinside.2, ?_⟩
  · rw [← Option.some.inj (hkinds.first.symm.trans (hkind ha))]
    rfl
  · rw [← Option.some.inj (hcloser.symm.trans (hkind hb))]
    have hnames : ∀ kind ∈ ([.semicolon, .closeTag] : List TokenKind), kind.isName = false := by decide
    exact hnames closer hclosers
  · intro item hitem hfirst hlast
    obtain ⟨k, hk⟩ := List.mem_iff_getElem?.mp hitem
    rw [← List.getElem?_toArray, ← hitems] at hk
    have hsize : k < (Code.ofText t).size := (Array.getElem?_eq_some_iff.mp hk).1
    rw [← Code.tokenIndex_eq hk, ← hindex] at hfirst
    rw [← Code.tokenIndex_eq hk, ← hindex'] at hlast
    have hpk := (ho.tokenIndex_le_iff (by omega) hsize).mp hfirst
    have hkn := (ho.tokenIndex_le_iff hsize (by omega)).mp hlast
    have hof := hkinds.holds k hpk (by omega)
    rwa [hkind hk] at hof

/-- Code next to an imported name is written with what imports are written with. -/
theorem not_imported_of_neighbour (hitem : ((parse t).window first stop)[p]? = some (index, token))
    (hnext : ((parse t).window first stop)[p + 1]? = some (index', token')) :
    (token.kind.isName → token'.kind.isOfImport = false → (parse t).isImported index = false) ∧
      (token'.kind.isName → token.kind.isOfImport = false → (parse t).isImported index' = false) := by
  have hlt := window_lt hitem hnext (Nat.lt_succ_self p)
  have hsame {i : Nat} {x y : Token} (hx : (i, x) ∈ Code.itemsOf (parse t).tokens.toList)
      (hy : (i, y) ∈ Code.itemsOf (parse t).tokens.toList) : x = y :=
    Option.some.inj ((Code.mem_itemsOf.mp hx).1.symm.trans (Code.mem_itemsOf.mp hy).1)
  constructor
  · intro hname hother
    by_contra himported
    obtain ⟨a, b, _, closing, -, hb, -, hclosing, hfirst, hlast, hall⟩ := exists_import (by simpa using himported)
    have hne : index ≠ b := by
      rintro rfl
      rw [hsame (mem_items_of_window hitem) hb, hclosing] at hname
      cases hname
    have hgap := window_gap hitem hnext hb
    have hof := hall _ (mem_items_of_window hnext) (by omega) (by omega)
    rw [hother] at hof
    cases hof
  · intro hname hother
    by_contra himported
    obtain ⟨a, b, opening, _, ha, -, hopening, -, hfirst, hlast, hall⟩ := exists_import (by simpa using himported)
    have hne : index' ≠ a := by
      rintro rfl
      rw [hsame (mem_items_of_window hnext) ha, hopening] at hname
      cases hname
    have hgap := window_gap hitem hnext ha
    have hof := hall _ (mem_items_of_window hitem) (by omega) (by omega)
    rw [hother] at hof
    cases hof

end SourceFile

open TokenKind (leadsType followsType precedesTypeName followsTypeName)

namespace Window

variable {w : Window} {s : ScanState} {p j : Nat} {type : List Piece} {piece : Piece}

/-- Between the neighbours of a type nothing but the remembered brackets and words tells what a name is. -/
theorem classify?_type {before after : TokenKind} (hbefore : w.back? p 1 = some before)
    (hafter : w.kind? (p + 1) = some after) (hprecedes : before.precedesTypeName)
    (hfollows : after.followsTypeName)
    (hreference : ¬(w.back? p 1 = some .ampersand ∧ w.back? p 2 = some .kwFunction))
    (hbuiltin : Word.isBuiltin (w.text p) = false)
    (hrules : s.stack.head? = some .traitRules → w.isVisibility (p - 1) = false)
    (htype : w.isTypeName s p) : w.classify? s p = some .type := by
  have hnone : precedesNoReference before = false := by
    cases before <;> first | rfl | cases hprecedes
  have hnot : before ≠ .ident ∧ before ≠ .kwCase ∧ before ≠ .kwAs := by
    refine ⟨?_, ?_, ?_⟩ <;> rintro rfl <;> cases hprecedes
  have hnot' : after ≠ .ident ∧ after ≠ .equals ∧ after ≠ .colon ∧ after ≠ .kwAs ∧ after ≠ .kwInsteadof := by
    refine ⟨?_, ?_, ?_, ?_, ?_⟩ <;> rintro rfl <;> cases hfollows
  have hplain : w.isPlainWord s p = false := by
    simp [isPlainWord, hbefore, hafter, hnot, hnot', hbuiltin]
  have hfunction : (w.back? p 1 == some .ampersand && w.back? p 2 == some .kwFunction) = false := by
    simpa using hreference
  rw [classify?]
  rw [hfunction, hplain, hbefore, hafter, Option.any_some, hnone, Bool.and_false]
  simp only [Bool.false_eq_true, if_false, htype, if_true]
  split
  · rename_i hhead
    rw [hrules (by simpa using hhead)]
    simp [hnot, hnot']
  · rfl

theorem not_isVisibility {kind : TokenKind} (hback : w.back? p 1 = some kind)
    (hkind : (kind != .keyword && kind != .kwReadonly) = true) : w.isVisibility (p - 1) = false := by
  have hat : w.kind? (p - 1) = some kind := by
    rw [back?] at hback
    split at hback
    · cases hback
    · exact hback
  rw [isVisibility, hat]
  cases kind <;> first | rfl | cases hkind

namespace TypeAt

variable (h : w.TypeAt p type)
include h

theorem classify?_name (hpiece : type[j]? = some piece) (hname : piece.1.isName)
    (hbuiltin : Word.isBuiltin piece.2 = false)
    (hrules : s.stack.head? = some .traitRules → w.isVisibility (p + j - 1) = false)
    (htype : w.isTypeName s (p + j)) : w.classify? s (p + j) = some .type := by
  obtain ⟨before, hbefore, hprecedes⟩ := h.exists_before hpiece hname
  obtain ⟨after, hafter, hfollows⟩ := h.exists_after hpiece hname
  rw [← (h.reads j piece hpiece).2] at hbuiltin
  exact classify?_type hbefore hafter hprecedes hfollows (h.not_byReference hpiece) hbuiltin hrules htype

end TypeAt
end Window

namespace SourceFile

variable {t : Text} {first stop p j : Nat} {type : List Piece}

/-- The names of a type that begins at a position of a range are reported as types. -/
def ReportsType (f : SourceFile) (first stop p : Nat) (type : List Piece) : Prop :=
  ∀ j piece, type[j]? = some piece → piece.1.isName → Word.isBuiltin piece.2 = false →
    ∃ index token, (f.window first stop)[p + j]? = some (index, token) ∧
      ⟨index, .type, piece.2⟩ ∈ f.references first stop

/-- The state of the scan of a range before a position. -/
def scanState (f : SourceFile) (first stop p : Nat) : ScanState :=
  (f.window first stop).stateAt f.isImported p

theorem references_eq (f : SourceFile) (first stop : Nat) : f.references first stop =
    referencesAt (f.window first stop) f.isImported .initial (List.range (f.window first stop).size) := rfl

/-- A name of a type is reported where a neighbour of the type stands in no import and the scan takes the name
for a type. -/
theorem reported_of_typeAt {piece : Piece} (h : ((parse t).window first stop).TypeAt p type)
    (hside : (∃ kind, ((parse t).window first stop).back? p 1 = some kind ∧ kind.isOfImport = false) ∨
      ∃ kind, ((parse t).window first stop).kind? (p + type.length) = some kind ∧ kind.isOfImport = false)
    (hpiece : type[j]? = some piece) (hname : piece.1.isName) (hbuiltin : Word.isBuiltin piece.2 = false)
    (hrules : ((parse t).scanState first stop (p + j)).stack.head? = some .traitRules →
      ((parse t).window first stop).isVisibility (p + j - 1) = false)
    (htype : ((parse t).window first stop).isTypeName ((parse t).scanState first stop (p + j)) (p + j)) :
    ∃ index token, ((parse t).window first stop)[p + j]? = some (index, token) ∧
      ⟨index, .type, piece.2⟩ ∈ (parse t).references first stop := by
  obtain ⟨hkind, htext⟩ := h.reads j piece hpiece
  obtain ⟨⟨index, token⟩, hitem, hkind'⟩ := Option.map_eq_some_iff.mp hkind
  have htext' : token.text = piece.2 := by
    rw [← htext, Window.text, hitem]
    rfl
  have hname' : token.kind.isName := by rwa [show token.kind = piece.1 from hkind']
  refine ⟨index, token, hitem, ?_⟩
  rw [references_eq, ← htext']
  refine mem_referencesAt hitem hname' ?_ (h.classify?_name hpiece hname hbuiltin hrules htype)
  rcases h.exists_other hpiece hname hside with ⟨kind, hback, hother⟩ | ⟨kind, hnext, hother⟩
  · obtain ⟨q, hq⟩ : ∃ q, p + j = q + 1 := by
      refine Nat.exists_eq_add_one_of_ne_zero fun hzero => ?_
      rw [hzero] at hback
      cases hback
    rw [hq] at hback hitem
    obtain ⟨⟨_, previous⟩, hprevious, rfl⟩ := Option.map_eq_some_iff.mp hback
    exact (not_imported_of_neighbour hprevious hitem).2 hname' hother
  · obtain ⟨⟨_, next⟩, hitem', rfl⟩ := Option.map_eq_some_iff.mp hnext
    exact (not_imported_of_neighbour hitem hitem').1 hname' hother

/-- Before a variable a type without words is reported. -/
theorem reportsType_variable {inParameters : Bool}
    (h : ((parse t).window first stop).VariableTypeAt inParameters p type)
    (hparameters : (((parse t).scanState first stop p).stack.find? (· ≠ .group) == some .parameters) =
      inParameters)
    (hrules : ((parse t).scanState first stop p).stack.head? ≠ some .traitRules) :
    (parse t).ReportsType first stop p type := by
  intro j piece hpiece hname hbuiltin
  have hj : j ≤ type.length := Nat.le_of_lt (List.getElem?_eq_some_iff.mp hpiece).1
  have hside : ∃ kind, ((parse t).window first stop).kind? (p + type.length) = some kind ∧
      kind.isOfImport = false := by
    obtain ⟨reference?, last, hreference, hlast, hreads⟩ := h.ends
    cases reference? with
    | none => exact ⟨_, hreads.kind?, by rcases hlast with heq | heq <;> rw [heq] <;> rfl⟩
    | some a => exact ⟨_, hreads.kind?, by rw [hreference a rfl]; rfl⟩
  refine reported_of_typeAt h.toTypeAt (.inr hside) hpiece hname hbuiltin (fun hhead => ?_) ?_
  · rcases h.head?_stack (parse t).isImported hj with hgroup | houtside
    · cases hgroup.symm.trans hhead
    · exact absurd (houtside.symm.trans hhead) hrules
  · have hrun := h.inTypeRun ((parse t).scanState first stop (p + j)).stack
      (by rw [scanState, h.find?_stack _ hj]; exact hparameters) hj
    simp [Window.isTypeName, hrun]

/-- After the colon of a result type its names up to the first word are reported. -/
theorem reportsType_result (h : ((parse t).window first stop).TypeAt p type)
    (hcolon : ((parse t).window first stop).back? p 1 = some .colon)
    (hresult : ((parse t).scanState first stop p).resultType) :
    (parse t).ReportsType first stop p (type.takeWhile fun q => q.1 != .keyword) := by
  intro j piece hpiece hname hbuiltin
  have hlt := (List.getElem?_eq_some_iff.mp hpiece).1
  obtain ⟨rest, hrest⟩ := List.takeWhile_prefix (l := type) fun q : Piece => q.1 != .keyword
  have hpiece' : type[j]? = some piece := by
    rw [← hrest, List.getElem?_append_left hlt]
    exact hpiece
  have hreads : ((parse t).window first stop).Reads p ((type.takeWhile fun q => q.1 != .keyword).take j) := by
    rw [← hrest, ← List.take_append_drop j (type.takeWhile _), List.append_assoc] at h
    exact (Window.reads_append.mp h.reads).1
  have hrun := Window.resultType_run (parse t).isImported hreads fun q hq => ?_
  · rw [List.length_take_of_le (Nat.le_of_lt hlt)] at hrun
    refine reported_of_typeAt h (.inl ⟨_, hcolon, rfl⟩) hpiece' hname hbuiltin (fun _ => ?_) ?_
    · rcases h.before_cases hpiece' hname with ⟨kind, hback, hkind⟩ | rfl
      · exact Window.not_isVisibility hback (by rcases hkind with rfl | rfl | rfl | rfl <;> rfl)
      · exact Window.not_isVisibility hcolon rfl
    · have hresult' : ((parse t).scanState first stop (p + j)).resultType := hrun.trans hresult
      simp [Window.isTypeName, hresult']
  · have hmem := List.mem_of_mem_take hq
    have hword : q.1 ≠ .keyword := by
      simpa using List.all_eq_true.mp List.all_takeWhile q hmem
    have hkinds := h.allowed q (List.takeWhile_subset _ hmem)
    revert hword hkinds
    cases q.1 <;> simp [TokenKind.isName, TokenKind.isTypeSign, ScanState.continuesResultType]

end SourceFile

end NamespaceMigration
