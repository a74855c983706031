import Mathlib.Data.List.Induction
import Mathlib.Logic.Relation
import NamespaceMigration.Proofs.Relocation.Blocks
import NamespaceMigration.Proofs.Statements.Headers

/-! The directives in effect at a statement. They are set on the way from the root to the statement, by the
blocks around it and by what comes before it on every level. This is the order in which they are written, so the
last one of a key decides. -/
namespace NamespaceMigration

open Text (eqIgnoreCase)

theorem Text.eqIgnoreCase_iff {s t : Text} : eqIgnoreCase s t ↔ s.toLowerAscii = t.toLowerAscii := by
  rw [eqIgnoreCase, beq_iff_eq]

/-- One directive for every key that is set, with the value that it was set to last. -/
structure IsEffective (written : List (Nat × Directive)) (found : List Directive) : Prop where
  once : found.Pairwise fun d e => ¬eqIgnoreCase d.key e.key
  keys : ∀ key, (∃ d ∈ found, eqIgnoreCase d.key key) ↔ ∃ w ∈ written, eqIgnoreCase w.2.key key
  last : ∀ d ∈ found, ∃ w ∈ written, eqIgnoreCase w.2.key d.key ∧ w.2.value = d.value ∧
    ∀ w' ∈ written, eqIgnoreCase w'.2.key d.key → w'.1 ≤ w.1

namespace Directive

theorem exists_key_set (found : List Directive) (d : Directive) (key : Text) :
    (∃ e ∈ set found d, eqIgnoreCase e.key key) ↔
      (∃ e ∈ found, eqIgnoreCase e.key key) ∨ eqIgnoreCase d.key key := by
  induction found with
  | nil => simp [set]
  | cons e found ih =>
    rw [set]
    split
    · rename_i hsame
      rw [Text.eqIgnoreCase_iff] at hsame
      simp only [List.exists_mem_cons_iff, Text.eqIgnoreCase_iff, hsame]
      exact ⟨Or.inl, fun h => h.elim id Or.inl⟩
    · rw [List.exists_mem_cons_iff, List.exists_mem_cons_iff, ih, or_assoc]

/-- A directive that is set comes in the place of the one with its key. -/
theorem mem_set {found : List Directive} (honce : found.Pairwise fun d e => ¬eqIgnoreCase d.key e.key)
    {d e : Directive} (h : e ∈ set found d) :
    e ∈ found ∧ ¬eqIgnoreCase e.key d.key ∨ eqIgnoreCase d.key e.key ∧ e.value = d.value := by
  induction found with
  | nil =>
    obtain rfl := List.mem_singleton.mp h
    exact Or.inr ⟨by rw [Text.eqIgnoreCase_iff], rfl⟩
  | cons first found ih =>
    rw [List.pairwise_cons] at honce
    rw [set] at h
    split at h
    · rename_i hsame
      rcases List.mem_cons.mp h with rfl | h
      · exact Or.inr ⟨by rwa [Text.eqIgnoreCase_iff, eq_comm, ← Text.eqIgnoreCase_iff], rfl⟩
      · refine Or.inl ⟨List.mem_cons_of_mem first h, fun hkey => honce.1 e h ?_⟩
        rw [Text.eqIgnoreCase_iff] at hsame hkey ⊢
        rw [hsame, hkey]
    · rename_i hother
      rcases List.mem_cons.mp h with rfl | h
      · exact Or.inl ⟨List.mem_cons_self, hother⟩
      · exact (ih honce.2 h).imp_left fun hmem => ⟨List.mem_cons_of_mem first hmem.1, hmem.2⟩

theorem once_set {found : List Directive} (honce : found.Pairwise fun d e => ¬eqIgnoreCase d.key e.key)
    (d : Directive) : (set found d).Pairwise fun d e => ¬eqIgnoreCase d.key e.key := by
  induction found with
  | nil => exact List.pairwise_singleton _ _
  | cons first found ih =>
    have hcons := List.pairwise_cons.mp honce
    rw [set]
    split
    · exact List.pairwise_cons.mpr hcons
    · rename_i hother
      rw [List.pairwise_cons]
      refine ⟨fun e he => ?_, ih hcons.2⟩
      rcases mem_set hcons.2 he with ⟨hmem, -⟩ | ⟨hkey, -⟩
      · exact hcons.1 e hmem
      · rw [Text.eqIgnoreCase_iff] at hother hkey ⊢
        rwa [← hkey]

end Directive

namespace IsEffective

variable {written : List (Nat × Directive)} {found : List Directive}

theorem set (h : IsEffective written found) {w : Nat × Directive} (hlast : ∀ w' ∈ written, w'.1 ≤ w.1) :
    IsEffective (written ++ [w]) (Directive.set found w.2) where
  once := Directive.once_set h.once w.2
  keys key := by
    rw [Directive.exists_key_set, h.keys]
    simp only [List.mem_append, List.mem_singleton, or_and_right, exists_or, exists_eq_left]
  last d hd := by
    rcases Directive.mem_set h.once hd with ⟨hmem, hother⟩ | ⟨hkey, hvalue⟩
    · obtain ⟨w', hw', hkey, hvalue, hmax⟩ := h.last d hmem
      refine ⟨w', List.mem_append_left _ hw', hkey, hvalue, ?_⟩
      rw [List.forall_mem_append, List.forall_mem_singleton]
      refine ⟨hmax, fun hkey' => absurd ?_ hother⟩
      rwa [Text.eqIgnoreCase_iff, eq_comm, ← Text.eqIgnoreCase_iff]
    · refine ⟨w, List.mem_append_right _ List.mem_cons_self, hkey, hvalue.symm, ?_⟩
      rw [List.forall_mem_append, List.forall_mem_singleton]
      exact ⟨fun w' hw' _ => hlast w' hw', fun _ => Nat.le_refl _⟩

theorem foldl_set {written : List (Nat × Directive)} (h : written.Pairwise fun w w' => w.1 ≤ w'.1) :
    IsEffective written ((written.map (·.2)).foldl Directive.set []) := by
  induction written using List.reverseRecOn with
  | nil => exact ⟨.nil, by simp, List.forall_mem_nil _⟩
  | append_singleton written w ih =>
    obtain ⟨hwritten, -, hlast⟩ := List.pairwise_append.mp h
    rw [List.map_append, List.foldl_append]
    exact (ih hwritten).set fun w' hw' => hlast w' hw' w List.mem_cons_self

end IsEffective

/-- Where a declare writes its keys: one token for each, in order, behind its first token and before what is
inside it. -/
structure Statement.HasKeys (f : SourceFile) (s : Statement) (found : List Directive) (places : List Nat) :
    Prop where
  keys : List.Forall₂ (fun i d => (f.tokenText i).toLowerAscii = d.key) places found
  order : places.Pairwise (· < ·)
  inside : ∀ i ∈ places, s.first < i ∧ i < s.stop
  before : ∀ child ∈ s.children, ∀ i ∈ places, i < child.first

/-- If the statement is a declare, it writes its keys. -/
def Statement.WritesKeys (f : SourceFile) (s : Statement) : Prop :=
  ∀ found block, s.kind = .declare found block → ∃ places, s.HasKeys f found places

theorem SourceFile.tokenText_tokenIndex {t : Text} {q : Nat} (hq : q < (Code.ofText t).size) :
    (parse t).tokenText ((Code.ofText t).tokenIndex q) = (Code.ofText t).text q := by
  obtain ⟨item, hitem⟩ := Code.exists_item hq
  have hmem := hitem
  rw [Code.ofText, Code.items_ofTokens, List.getElem?_toArray] at hmem
  have htoken : (parse t).tokens[item.1]? = some item.2 := by
    rw [parse, List.getElem?_toArray]
    exact (Code.mem_itemsOf.mp (List.mem_of_getElem? hmem)).1
  rw [Code.tokenIndex_eq hitem, tokenText, htoken, Code.text, hitem]
  rfl

namespace Parser

/-- The positions of the keys between two positions. -/
theorem exists_keys (c : Code) (close fuel p : Nat) : ∃ qs : List Nat,
    List.Forall₂ (fun q d => q < c.size ∧ (c.text q).toLowerAscii = d.key) qs (directives c close fuel p).1 ∧
      qs.Pairwise (· < ·) ∧ ∀ q ∈ qs, p ≤ q ∧ q < close := by
  induction fuel generalizing p with
  | zero => exact ⟨[], .nil, .nil, List.forall_mem_nil _⟩
  | succ fuel ih =>
    rw [directives]
    split
    · exact ⟨[], .nil, .nil, List.forall_mem_nil _⟩
    · rename_i hclose
      split
      · rename_i hkey
        have hforward : ∀ q next, valueStep c close q = some next → q < next := by
          intro q next hstep
          rw [(valueStep_eq_some hstep).2.2]
          exact Nat.lt_succ_self q
        have hstop := le_follow hforward (c.size + 1) (p + 2)
        obtain ⟨qs, hkeys, horder, hinside⟩ := ih (follow (valueStep c close) (c.size + 1) (p + 2) + 1)
        refine ⟨p :: qs, .cons ⟨Code.lt_size_of_isAt hkey.1, rfl⟩ hkeys, ?_, ?_⟩
        · refine List.pairwise_cons.mpr ⟨fun q hq => ?_, horder⟩
          have hlater := (hinside q hq).1
          omega
        · refine List.forall_mem_cons.mpr ⟨⟨Nat.le_refl p, by omega⟩, fun q hq => ?_⟩
          have hlater := hinside q hq
          omega
      · exact ⟨[], .nil, .nil, List.forall_mem_nil _⟩

theorem declareStatement_kind {c : Code} (inner : Inner) (p : Nat) :
    ∃ block, (declareStatement c inner p).value.1 =
      .declare (directives c (c.groupEnd (p + 1) - 1) (c.size + 1) (p + 2)).1 block := by
  simp only [declareStatement]
  split_ifs
  · exact ⟨true, rfl⟩
  · exact ⟨true, rfl⟩
  · exact ⟨false, rfl⟩

theorem node_writesKeys {t : Text} (depth p : Nat) : (node (.ofText t) p
    (shape (.ofText t) (statement (.ofText t) depth) p)).value.WritesKeys (SourceFile.parse t) := by
  intro found block hkind
  generalize hc : Code.ofText t = c at hkind ⊢
  have ho : c.Ordered := hc ▸ Code.ordered_ofTokens _ _
  obtain ⟨hopen, hshape⟩ := shape_directive hkind
  have hp : p + 1 < c.size := Code.lt_size_of_isAt hopen
  have hgroup := ho.groupEnd_reaches_succ hp
  have hinner : ∀ q, q < c.size → (statement c depth q).value.Placed c q (statement c depth q).next :=
    fun q hq => statement_placed ho hq
  have hrow := declareStatement_inRow ho hinner hopen
  have hcovers := node_covers ho (declareStatement_reaches ho (fun q hq => (hinner q hq).reaches) hopen)
  obtain ⟨block', hfound⟩ := declareStatement_kind (c := c) (statement c depth) p
  rw [hshape] at hkind ⊢
  change (declareStatement c (statement c depth) p).value.1 = _ at hkind
  rw [hfound, StatementKind.declare.injEq] at hkind
  obtain ⟨rfl, rfl⟩ := hkind
  obtain ⟨qs, hkeys, horder, hinside⟩ := exists_keys c (c.groupEnd (p + 1) - 1) (c.size + 1) (p + 2)
  have hsize : ∀ q ∈ qs, q < c.size := fun q hq => by
    have hclose := (hinside q hq).2
    have hend := hgroup.2
    omega
  refine ⟨qs.map c.tokenIndex, ?_, ?_, ?_, ?_⟩
  · rw [List.forall₂_map_left_iff]
    refine hkeys.imp fun q d h => ?_
    subst hc
    rw [SourceFile.tokenText_tokenIndex h.1, h.2]
  · rw [List.pairwise_map]
    exact horder.imp_of_mem fun {a b} ha _ hab => ho.tokenIndex_lt hab (hsize a ha)
  · rw [List.forall_mem_map]
    intro q hq
    have hbounds := hinside q hq
    have hle := hrow.le
    refine ⟨?_, ((hcovers.mem_iff ho (hsize q hq)).mpr ⟨by omega, by omega⟩).2⟩
    rw [hcovers.first]
    exact ho.tokenIndex_lt (by omega) (by omega)
  · intro child hchild
    rw [List.forall_mem_map]
    intro q hq
    have hbounds := hinside q hq
    obtain ⟨r, m, hr, -, hplaced⟩ := hrow.exists_placed hchild
    rw [hplaced.covers.first]
    exact ho.tokenIndex_lt (by omega) (hsize q hq)

theorem topStatements_writeKeys {t : Text} : ∀ s ∈ (topStatements (.ofText t)).value,
    s.Everywhere (Statement.WritesKeys (SourceFile.parse t)) := by
  refine topStatements_everywhere_of_depth (fun _ _ _ h => by cases h) node_writesKeys ?_
  intro p _ found block h
  obtain ⟨_, _, _, hspace, -⟩ := namespaceStatement_kind (c := .ofText t) (statement _ (_ + 1)) p
  cases hspace.symm.trans h

end Parser

namespace SourceFile

variable {t : Text}

theorem outline_writesKeys : ∀ l ∈ (parse t).outline, l.statement.WritesKeys (parse t) :=
  outline_forall (fun _ _ h => by cases h) Parser.topStatements_writeKeys

end SourceFile

mutual

theorem outline_children (above : List Level) (number : Nat) (s : Statement)
    (habove : ∀ level outer, above = level :: outer →
      ∃ later, level.statement.children = level.earlier.reverse ++ s :: later) :
    ∀ l ∈ outline above number s, ∀ level outer, l.above = level :: outer →
      ∃ later, level.statement.children = level.earlier.reverse ++ l.statement :: later := by
  match s with
  | ⟨kind, first, stop, doc?, children⟩ =>
    rw [outline, List.forall_mem_cons]
    exact ⟨habove, outlineAll_children above number _ [] (number + 1) children rfl⟩

theorem outlineAll_children (above : List Level) (number : Nat) (parent : Statement)
    (earlier : List Statement) (next : Nat) (later : List Statement)
    (hparent : parent.children = earlier.reverse ++ later) :
    ∀ l ∈ outlineAll above number parent earlier next later, ∀ level outer, l.above = level :: outer →
      ∃ later, level.statement.children = level.earlier.reverse ++ l.statement :: later := by
  match later with
  | [] => simp [outlineAll]
  | s :: later =>
    rw [outlineAll, List.forall_mem_append]
    constructor
    · apply outline_children
      rintro level outer ⟨⟩
      exact ⟨later, hparent⟩
    · apply outlineAll_children
      rw [hparent, List.reverse_cons, List.append_assoc]
      rfl

end

namespace SourceFile

variable {t : Text}

theorem children_eq {f : SourceFile} {l : Located} (hl : l ∈ f.outline) {level : Level} {outer : List Level}
    (habove : l.above = level :: outer) :
    ∃ later, level.statement.children = level.earlier.reverse ++ l.statement :: later :=
  outline_children [] 0 f.root (fun _ _ h => by cases h) l hl level outer habove

/-- The statement that another one stands directly inside. -/
def IsParent (f : SourceFile) (p l : Located) : Prop := p ∈ f.outline ∧ l.parent? = some p.number

/-- The declares in scope at a statement, with what they set: the blocks around it, and the statements that
come before it, or before one around it, inside the same statement. -/
inductive InForce (f : SourceFile) (l : Located) : Located → List Directive → Prop
  | block {s : Located} {found : List Directive} : Relation.TransGen f.IsParent s l →
      s.statement.kind = .declare found true → InForce f l s found
  | earlier {s x : Located} {found : List Directive} : Relation.ReflTransGen f.IsParent x l →
      s ∈ f.outline → s.parent? = x.parent? → s.statement.first < x.statement.first →
        s.statement.kind = .declare found false → InForce f l s found

theorem InForce.declare {f : SourceFile} {l s : Located} {found : List Directive} (h : f.InForce l s found) :
    s ∈ f.outline ∧ ∃ block, s.statement.kind = .declare found block := by
  cases h with
  | block habove hkind =>
    obtain ⟨_, hparent, -⟩ := Relation.TransGen.head'_iff.mp habove
    exact ⟨hparent.1, true, hkind⟩
  | earlier _ hs _ _ hkind => exact ⟨hs, false, hkind⟩

/-- What is in scope inside a statement: what is in scope at that statement, its own directives, and what
comes before. -/
theorem inForce_iff {f : SourceFile} {p l s : Located} {found : List Directive} (hparent : f.IsParent p l) :
    f.InForce l s found ↔ f.InForce p s found ∨ s = p ∧ s.statement.kind = .declare found true ∨
      s ∈ f.outline ∧ s.parent? = l.parent? ∧ s.statement.first < l.statement.first ∧
        s.statement.kind = .declare found false := by
  have hunique : ∀ q, f.IsParent q l → q = p := fun q hq =>
    eq_of_number hq.1 hparent.1 (Option.some.inj (hq.2.symm.trans hparent.2))
  constructor
  · intro h
    cases h with
    | block habove hkind =>
      obtain ⟨q, hq, hql⟩ := Relation.TransGen.tail'_iff.mp habove
      obtain rfl := hunique q hql
      rcases Relation.reflTransGen_iff_eq_or_transGen.mp hq with rfl | hq
      · exact .inr (.inl ⟨rfl, hkind⟩)
      · exact .inl (.block hq hkind)
    | earlier hx hs hsame hfirst hkind =>
      rcases Relation.ReflTransGen.cases_tail hx with rfl | ⟨q, hq, hql⟩
      · exact .inr (.inr ⟨hs, hsame, hfirst, hkind⟩)
      · obtain rfl := hunique q hql
        exact .inl (.earlier hq hs hsame hfirst hkind)
  · rintro (h | ⟨rfl, hkind⟩ | ⟨hs, hsame, hfirst, hkind⟩)
    · cases h with
      | block habove hkind => exact .block (habove.tail hparent) hkind
      | earlier hx hs hsame hfirst hkind => exact .earlier (hx.tail hparent) hs hsame hfirst hkind
    · exact .block (.single hparent) hkind
    · exact .earlier .refl hs hsame hfirst hkind

/-- Nothing is in scope at the root. -/
theorem not_inForce_root {f : SourceFile} {l s : Located} {found : List Directive} (hl : l ∈ f.outline)
    (habove : l.above = []) : ¬f.InForce l s found := by
  have hnone : l.parent? = none := by rw [Located.parent?, habove]; rfl
  have hroot : ∀ s ∈ f.outline, s.parent? = none → s = ⟨0, f.root, []⟩ := fun s hs hparent =>
    (mem_outline_cases hs).resolve_right fun htail => by
      obtain ⟨p, -, hp, -⟩ := exists_parent htail
      cases hparent.symm.trans hp
  have hno : ∀ q, ¬f.IsParent q l := fun q hq => by cases hnone.symm.trans hq.2
  intro h
  cases h with
  | block habove _ =>
    obtain ⟨q, -, hql⟩ := Relation.TransGen.tail'_iff.mp habove
    exact hno q hql
  | earlier hx hs hsame hfirst _ =>
    rcases Relation.ReflTransGen.cases_tail hx with rfl | ⟨q, -, hql⟩
    · rw [hroot _ hs (hsame.trans hnone), hroot _ hl hnone] at hfirst
      exact Nat.lt_irrefl _ hfirst
    · exact hno q hql

/-- The directives that a statement sets, each with the place of its key. -/
def placed (places : Statement → List Nat) (s : Statement) (found : List Directive) : List (Nat × Directive) :=
  (places s).zip found

/-- The directives that are set on some levels, each with the place of its key. -/
def placedAbove (places : Statement → List Nat) : List Level → List (Nat × Directive)
  | [] => []
  | level :: outer =>
    placedAbove places outer ++ (placed places level.statement level.statement.blockDirectives ++
      level.earlier.reverse.flatMap fun s => placed places s s.laterDirectives)

/-- The places of the keys of all declares. -/
def HasPlaces (f : SourceFile) (places : Statement → List Nat) : Prop :=
  ∀ l ∈ f.outline, ∀ found block, l.statement.kind = .declare found block →
    l.statement.HasKeys f found (places l.statement)

theorem exists_places (t : Text) : ∃ places, (parse t).HasPlaces places := by
  have hexists : ∀ s : Statement, ∃ places, (∃ l ∈ (parse t).outline, l.statement = s) →
      ∀ found block, s.kind = .declare found block → s.HasKeys (parse t) found places := by
    intro s
    by_cases hs : (∃ l ∈ (parse t).outline, l.statement = s) ∧ ∃ found block, s.kind = .declare found block
    · obtain ⟨⟨l, hl, rfl⟩, found, block, hkind⟩ := hs
      obtain ⟨places, hkeys⟩ := outline_writesKeys l hl found block hkind
      refine ⟨places, fun _ found' block' hkind' => ?_⟩
      rw [hkind, StatementKind.declare.injEq] at hkind'
      rwa [← hkind'.1]
    · exact ⟨[], fun hl found block hkind => absurd ⟨hl, found, block, hkind⟩ hs⟩
  choose places hplaces using hexists
  exact ⟨places, fun l hl => hplaces l.statement ⟨l, hl, rfl⟩⟩

section Placed

variable {places : Statement → List Nat} {s : Statement} {found : List Directive} {w : Nat × Directive}

/-- Directives with their places, which are in order, behind the first token of a statement and before what is
inside. -/
structure IsPlacedIn (s : Statement) (found : List Directive) (written : List (Nat × Directive)) : Prop where
  all : written.map Prod.snd = found
  order : written.Pairwise fun w w' => w.1 < w'.1
  inside : ∀ w ∈ written, s.first < w.1 ∧ w.1 < s.stop
  before : ∀ child ∈ s.children, ∀ w ∈ written, w.1 < child.first

theorem isPlacedIn_of_hasKeys {f : SourceFile} (h : s.HasKeys f found (places s)) :
    IsPlacedIn s found (placed places s found) := by
  have hzip : (placed places s found).map Prod.fst = places s :=
    List.map_fst_zip (Nat.le_of_eq h.keys.length_eq)
  have hplaces : ∀ w ∈ placed places s found, w.1 ∈ places s := fun w hw => (List.of_mem_zip hw).1
  constructor
  · exact List.map_snd_zip (Nat.le_of_eq h.keys.length_eq.symm)
  · rw [← List.pairwise_map (f := Prod.fst), hzip]
    exact h.order
  · exact fun w hw => h.inside w.1 (hplaces w hw)
  · exact fun child hchild w hw => h.before child hchild w.1 (hplaces w hw)

theorem isPlacedIn_nil : IsPlacedIn s [] (placed places s []) := by
  rw [placed, List.zip_nil_right]
  exact ⟨rfl, .nil, List.forall_mem_nil _, fun _ _ => List.forall_mem_nil _⟩

theorem isPlacedIn_block {f : SourceFile} (hplaces : f.HasPlaces places) {l : Located} (hl : l ∈ f.outline) :
    IsPlacedIn l.statement l.statement.blockDirectives
      (placed places l.statement l.statement.blockDirectives) := by
  rw [Statement.blockDirectives]
  split
  · rename_i hkind
    exact isPlacedIn_of_hasKeys (hplaces l hl _ _ hkind)
  · exact isPlacedIn_nil

theorem isPlacedIn_later {f : SourceFile} (hplaces : f.HasPlaces places) {l : Located} (hl : l ∈ f.outline) :
    IsPlacedIn l.statement l.statement.laterDirectives
      (placed places l.statement l.statement.laterDirectives) := by
  rw [Statement.laterDirectives]
  split
  · rename_i hkind
    exact isPlacedIn_of_hasKeys (hplaces l hl _ _ hkind)
  · exact isPlacedIn_nil

theorem mem_placed_block : w ∈ placed places s s.blockDirectives ↔
    ∃ found, s.kind = .declare found true ∧ w ∈ placed places s found := by
  rw [Statement.blockDirectives]
  split
  · rename_i found hkind
    simp [hkind]
  · rename_i hother
    rw [placed, List.zip_nil_right]
    constructor
    · exact fun h => absurd h List.not_mem_nil
    · rintro ⟨found, hkind, -⟩
      exact absurd hkind (hother found)

theorem mem_placed_later : w ∈ placed places s s.laterDirectives ↔
    ∃ found, s.kind = .declare found false ∧ w ∈ placed places s found := by
  rw [Statement.laterDirectives]
  split
  · rename_i found hkind
    simp [hkind]
  · rename_i hother
    rw [placed, List.zip_nil_right]
    constructor
    · exact fun h => absurd h List.not_mem_nil
    · rintro ⟨found, hkind, -⟩
      exact absurd hkind (hother found)

end Placed

/-- The directives in scope at a statement, in the order of their places. -/
structure IsPlacedAt (f : SourceFile) (places : Statement → List Nat) (l : Located)
    (written : List (Nat × Directive)) : Prop where
  all : l.directives = (written.map Prod.snd).foldl Directive.set []
  order : written.Pairwise fun w w' => w.1 < w'.1
  before : ∀ w ∈ written, w.1 < l.statement.first
  mem : ∀ w, w ∈ written ↔ ∃ s found, f.InForce l s found ∧ w ∈ placed places s.statement found

section Level

variable {places : Statement → List Nat} {p l : Located} {earlier later : List Statement}

theorem exists_located {f : SourceFile} (hp : p ∈ f.outline) {s : Statement} (hs : s ∈ p.statement.children) :
    ∃ l ∈ f.outline, l.parent? = some p.number ∧ l.statement = s := by
  rw [← outline_inside f p hp] at hs
  obtain ⟨l, hl, rfl⟩ := List.mem_map.mp hs
  rw [List.mem_filter, beq_iff_eq] at hl
  exact ⟨l, hl.1, hl.2, rfl⟩

theorem mem_children {f : SourceFile} (hparent : f.IsParent p l) (hl : l ∈ f.outline) :
    l.statement ∈ p.statement.children := by
  rw [← outline_inside f p hparent.1]
  exact List.mem_map_of_mem (List.mem_filter.mpr ⟨hl, by rw [hparent.2, beq_self_eq_true]⟩)

/-- The statements before another one inside the same statement. -/
theorem mem_earlier (hparent : (parse t).IsParent p l)
    (hchildren : p.statement.children = earlier ++ l.statement :: later) (s : Statement) :
    s ∈ earlier ↔ ∃ l' ∈ (parse t).outline, l'.parent? = l.parent? ∧
      l'.statement.first < l.statement.first ∧ l'.statement = s := by
  have hapart : p.statement.children.Pairwise fun s s' => s.first < s'.first := by
    refine (children_apart hparent.1).imp_of_mem fun {s s'} hs _ hle => ?_
    obtain ⟨_, _, hrow, -⟩ := exists_row hparent.1
    obtain ⟨_, _, -, -, hplaced⟩ := hrow.exists_placed hs
    exact Nat.lt_of_lt_of_le (hplaced.covers.first_lt_stop (Code.ordered_ofTokens _ _)) hle
  rw [hchildren] at hapart
  obtain ⟨-, hlater, hearlier⟩ := List.pairwise_append.mp hapart
  rw [hparent.2]
  constructor
  · intro hs
    obtain ⟨l', hl', hsame, rfl⟩ := exists_located hparent.1 (hchildren ▸ List.mem_append_left _ hs)
    exact ⟨l', hl', hsame, hearlier _ hs _ List.mem_cons_self, rfl⟩
  · rintro ⟨l', hl', hsame, hfirst, rfl⟩
    have hmem := mem_children ⟨hparent.1, hsame⟩ hl'
    rw [hchildren] at hmem
    rcases List.mem_append.mp hmem with hmem | hmem
    · exact hmem
    · rcases List.mem_cons.mp hmem with heq | hmem
      · rw [heq] at hfirst
        exact absurd hfirst (Nat.lt_irrefl _)
      · exact absurd hfirst (Nat.lt_asymm ((List.pairwise_cons.mp hlater).1 _ hmem))

end Level

theorem isPlacedAt {places : Statement → List Nat} (hplaces : (parse t).HasPlaces places) {l : Located}
    (hl : l ∈ (parse t).outline) : (parse t).IsPlacedAt places l (placedAbove places l.above) := by
  have hrooted := rooted hl
  obtain ⟨number, statement, above⟩ := l
  induction above generalizing number statement with
  | nil =>
    refine ⟨rfl, .nil, List.forall_mem_nil _, fun w => ?_⟩
    constructor
    · intro hw
      cases hw
    · rintro ⟨s, found, hforce, -⟩
      exact absurd hforce (not_inForce_root hl rfl)
  | cons level outer ih =>
    let p : Located := ⟨level.number, level.statement, outer⟩
    let l : Located := ⟨number, statement, level :: outer⟩
    have hp : p ∈ (parse t).outline := (hrooted level outer (List.suffix_refl _)).1
    have hparent : (parse t).IsParent p l := ⟨hp, rfl⟩
    have hout := ih level.number level.statement hp (rooted hp)
    obtain ⟨later, hchildren⟩ := children_eq hl rfl
    have hmem := mem_earlier hparent hchildren
    have hblock := isPlacedIn_block hplaces hp
    have hapart := children_apart hp
    rw [hchildren] at hapart
    obtain ⟨hrow, -, hends⟩ := List.pairwise_append.mp hapart
    have hhere : statement ∈ level.statement.children :=
      hchildren ▸ List.mem_append_right _ List.mem_cons_self
    have hearlier : ∀ s ∈ level.earlier.reverse, s ∈ level.statement.children ∧ s.stop ≤ statement.first ∧
        IsPlacedIn s s.laterDirectives (placed places s s.laterDirectives) := by
      intro s hs
      obtain ⟨l', hl', -, -, rfl⟩ := (hmem s).mp hs
      exact ⟨hchildren ▸ List.mem_append_left _ hs, hends _ hs _ List.mem_cons_self, isPlacedIn_later hplaces hl'⟩
    -- What is set further out, by the block and by the statements before, in this order.
    have hlater : ∀ w ∈ level.earlier.reverse.flatMap (fun s => placed places s s.laterDirectives),
        w.1 < statement.first ∧ level.statement.first < w.1 ∧
          ∀ v ∈ placed places level.statement level.statement.blockDirectives, v.1 < w.1 := by
      intro w hw
      obtain ⟨s, hs, hw⟩ := List.mem_flatMap.mp hw
      obtain ⟨hchild, hstop, hplaced⟩ := hearlier s hs
      have hinside := hplaced.inside w hw
      have hfirst : level.statement.first ≤ s.first := (inside_parent hp s hchild).1
      refine ⟨by omega, by omega, fun v hv => ?_⟩
      exact Nat.lt_trans (hblock.before s hchild v hv) hinside.1
    constructor
    · have hall : (level.earlier.reverse.flatMap fun s => placed places s s.laterDirectives).map Prod.snd =
          level.earlier.reverse.flatMap Statement.laterDirectives := by
        rw [List.map_flatMap]
        exact List.flatMap_congr fun s hs => (hearlier s hs).2.2.all
      have hfold := hout.all
      rw [Located.directives] at hfold ⊢
      rw [placedAbove, List.map_append, List.map_append, hblock.all, hall, List.foldl_append, ← hfold,
        List.reverse_cons, List.flatMap_append, List.foldl_append, List.flatMap_singleton]
    · rw [placedAbove, List.pairwise_append, List.pairwise_append, List.pairwise_flatMap]
      refine ⟨hout.order, ⟨hblock.order, ⟨fun s hs => (hearlier s hs).2.2.order, ?_⟩,
        fun v hv w hw => (hlater w hw).2.2 v hv⟩, ?_⟩
      · refine hrow.imp_of_mem fun {s s'} hs hs' hle w hw w' hw' => ?_
        have hinside := (hearlier s hs).2.2.inside w hw
        have hinside' := (hearlier s' hs').2.2.inside w' hw'
        omega
      · intro v hv w hw
        have hbefore : v.1 < level.statement.first := hout.before v hv
        rcases List.mem_append.mp hw with hw | hw
        · exact Nat.lt_trans hbefore (hblock.inside w hw).1
        · exact Nat.lt_trans hbefore (hlater w hw).2.1
    · rw [placedAbove, List.forall_mem_append, List.forall_mem_append]
      refine ⟨fun w hw => ?_, fun w hw => hblock.before statement hhere w hw, fun w hw => (hlater w hw).1⟩
      exact Nat.lt_of_lt_of_le (hout.before w hw) (inside_parent hp statement hhere).1
    · intro w
      rw [placedAbove, List.mem_append, List.mem_append, hout.mem, mem_placed_block, List.mem_flatMap]
      constructor
      · rintro (⟨s, found, hforce, hw⟩ | ⟨found, hkind, hw⟩ | ⟨s, hs, hw⟩)
        · exact ⟨s, found, (inForce_iff hparent).mpr (.inl hforce), hw⟩
        · exact ⟨p, found, (inForce_iff hparent).mpr (.inr (.inl ⟨rfl, hkind⟩)), hw⟩
        · obtain ⟨l', hl', hsame, hfirst, rfl⟩ := (hmem s).mp hs
          obtain ⟨found, hkind, hw⟩ := mem_placed_later.mp hw
          exact ⟨l', found, (inForce_iff hparent).mpr (.inr (.inr ⟨hl', hsame, hfirst, hkind⟩)), hw⟩
      · rintro ⟨s, found, hforce, hw⟩
        rcases (inForce_iff hparent).mp hforce with hforce | ⟨rfl, hkind⟩ | ⟨hs, hsame, hfirst, hkind⟩
        · exact .inl ⟨s, found, hforce, hw⟩
        · exact .inr (.inl ⟨found, hkind, hw⟩)
        · refine .inr (.inr ⟨s.statement, (hmem _).mpr ⟨s, hs, hsame, hfirst, rfl⟩, ?_⟩)
          exact mem_placed_later.mpr ⟨found, hkind, hw⟩

/-- The directives in effect at a statement are the last ones in scope. -/
theorem directives_last (t : Text) : ∃ places, (parse t).HasPlaces places ∧
    ∀ l ∈ (parse t).outline.tail,
      (l.directives.Pairwise fun d e => ¬eqIgnoreCase d.key e.key) ∧
      (∀ key, (∃ d ∈ l.directives, eqIgnoreCase d.key key) ↔
        ∃ s found, (parse t).InForce l s found ∧ ∃ d ∈ found, eqIgnoreCase d.key key) ∧
      ∀ d ∈ l.directives, ∃ s found w, (parse t).InForce l s found ∧
        w ∈ placed places s.statement found ∧ eqIgnoreCase w.2.key d.key ∧ w.2.value = d.value ∧
        ∀ s' found', (parse t).InForce l s' found' → ∀ w' ∈ placed places s'.statement found',
          eqIgnoreCase w'.2.key d.key → w'.1 ≤ w.1 := by
  obtain ⟨places, hplaces⟩ := exists_places t
  refine ⟨places, hplaces, fun l hl => ?_⟩
  have hwritten := isPlacedAt hplaces (List.mem_of_mem_tail hl)
  have heffective := IsEffective.foldl_set (hwritten.order.imp Nat.le_of_lt)
  rw [← hwritten.all] at heffective
  refine ⟨heffective.once, fun key => ?_, fun d hd => ?_⟩
  · rw [heffective.keys]
    constructor
    · rintro ⟨w, hw, hkey⟩
      obtain ⟨s, found, hforce, hw⟩ := (hwritten.mem w).mp hw
      exact ⟨s, found, hforce, w.2, (List.of_mem_zip hw).2, hkey⟩
    · rintro ⟨s, found, hforce, d, hd, hkey⟩
      obtain ⟨hs, block, hkind⟩ := hforce.declare
      rw [← (isPlacedIn_of_hasKeys (hplaces s hs found block hkind)).all] at hd
      obtain ⟨w, hw, rfl⟩ := List.mem_map.mp hd
      exact ⟨w, (hwritten.mem w).mpr ⟨s, found, hforce, hw⟩, hkey⟩
  · obtain ⟨w, hw, hkey, hvalue, hlast⟩ := heffective.last d hd
    obtain ⟨s, found, hforce, hw⟩ := (hwritten.mem w).mp hw
    refine ⟨s, found, w, hforce, hw, hkey, hvalue, fun s' found' hforce' w' hw' => ?_⟩
    exact hlast w' ((hwritten.mem w').mpr ⟨s', found', hforce', hw'⟩)

end SourceFile
end NamespaceMigration
