import Mathlib.Data.List.Pairwise
import Std.Data.HashMap
import NamespaceMigration.Plan.Index
import NamespaceMigration.Proofs.FirstCome

/-! The index of a project as a view of its files. It answers with the first component in reading order, so a
new name leads back to the decision that owns it. Hash tables that keep the first entry for a key give the
same answers, in whatever order they are merged. -/
namespace NamespaceMigration

/-- Where a component stands: the positions of its file, its decision and itself. -/
structure ComponentPlace where
  file : Nat
  decision : Nat
  component : Nat
deriving DecidableEq

/-- Reading order. -/
def ComponentPlace.Before (p q : ComponentPlace) : Prop :=
  p.file < q.file ∨ p.file = q.file ∧
    (p.decision < q.decision ∨ p.decision = q.decision ∧ p.component < q.component)

theorem ComponentPlace.Before.asymm {p q : ComponentPlace} (h : p.Before q) : ¬q.Before p := by
  unfold Before at h ⊢
  omega

/-- The component that stands at a place. -/
def componentAt? (files : List FilePlan) (p : ComponentPlace) : Option Component := do
  let file ← files[p.file]?
  let decision ← file.decisions[p.decision]?
  decision.components[p.component]?

/-- What the index keeps of a component. -/
def Component.entry (k : Component) (p : ComponentPlace) : IndexEntry :=
  ⟨k.symbolKind, k.old, k.new, p.file, p.decision⟩

/-- All components with their places. -/
def placedComponents (files : List FilePlan) : List (ComponentPlace × Component) :=
  files.zipIdx.flatMap fun (file, i) => file.decisions.zipIdx.flatMap fun (decision, j) =>
    decision.components.zipIdx.map fun (k, n) => (⟨i, j, n⟩, k)

section Places

variable {files : List FilePlan}

theorem mem_placedComponents {p : ComponentPlace} {k : Component} :
    (p, k) ∈ placedComponents files ↔ componentAt? files p = some k := by
  obtain ⟨i, j, n⟩ := p
  simp only [placedComponents, componentAt?, List.mem_flatMap, List.mem_map, Prod.exists,
    List.mem_zipIdx_iff_getElem?, Prod.mk.injEq, ComponentPlace.mk.injEq, Option.bind_eq_bind,
    Option.bind_eq_some_iff]
  constructor
  · rintro ⟨file, _, hfile, d, _, hd, _, _, hk, ⟨rfl, rfl, rfl⟩, rfl⟩
    exact ⟨file, hfile, d, hd, hk⟩
  · rintro ⟨file, hfile, d, hd, hk⟩
    exact ⟨file, i, hfile, d, j, hd, k, n, hk, ⟨rfl, rfl, rfl⟩, rfl⟩

theorem pairwise_placedComponents : (placedComponents files).Pairwise fun a b => a.1.Before b.1 := by
  rw [placedComponents, List.pairwise_flatMap]
  constructor
  · rintro ⟨file, i⟩ -
    rw [List.pairwise_flatMap]
    constructor
    · rintro ⟨d, j⟩ -
      rw [List.pairwise_map]
      exact (pairwise_lt_zipIdx _ 0).imp fun h => .inr ⟨rfl, .inr ⟨rfl, h⟩⟩
    · refine (pairwise_lt_zipIdx _ 0).imp fun {a b} h x hx y hy => ?_
      obtain ⟨_, -, rfl⟩ := List.mem_map.mp hx
      obtain ⟨_, -, rfl⟩ := List.mem_map.mp hy
      exact .inr ⟨rfl, .inl h⟩
  · refine (pairwise_lt_zipIdx _ 0).imp fun {a b} h x hx y hy => ?_
    obtain ⟨_, -, hx⟩ := List.mem_flatMap.mp hx
    obtain ⟨_, -, rfl⟩ := List.mem_map.mp hx
    obtain ⟨_, -, hy⟩ := List.mem_flatMap.mp hy
    obtain ⟨_, -, rfl⟩ := List.mem_map.mp hy
    exact .inl h

theorem flatMap_zipIdx {α β : Type} (l : List α) (f : α → List β) :
    l.zipIdx.flatMap (fun a => f a.1) = l.flatMap f := by
  rw [← List.flatMap_map Prod.fst f, List.zipIdx_map_fst]

theorem entries_ofFiles (files : List FilePlan) :
    (RenameIndex.ofFiles files).entries = (placedComponents files).map fun a => a.2.entry a.1 := by
  rw [RenameIndex.ofFiles, placedComponents, List.map_flatMap]
  refine List.flatMap_congr fun file _ => ?_
  rw [List.map_flatMap]
  refine List.flatMap_congr fun decision _ => ?_
  rw [List.map_map]
  let entry (k : Component) : IndexEntry := ⟨k.symbolKind, k.old, k.new, file.2, decision.2⟩
  change decision.1.components.map entry = decision.1.components.zipIdx.map (entry ∘ Prod.fst)
  rw [← List.map_map, List.zipIdx_map_fst]

end Places

/-- An answer of the index: the entry of the first component that is asked for, with its positions, or nothing
if there is no such component. -/
def IsFirstEntry (files : List FilePlan) (asked : Component → Prop) : Option IndexEntry → Prop
  | some e => ∃ p k, componentAt? files p = some k ∧ asked k ∧ e = k.entry p ∧
      ∀ q k', componentAt? files q = some k' → q.Before p → ¬asked k'
  | none => ∀ p k, componentAt? files p = some k → ¬asked k

theorem isFirstEntry_find? {files : List FilePlan} {asked : Component → Prop} {test : IndexEntry → Bool}
    (h : ∀ k p, test (k.entry p) ↔ asked k) :
    IsFirstEntry files asked ((RenameIndex.ofFiles files).entries.find? test) := by
  rw [entries_ofFiles, List.find?_map]
  cases hfind : (placedComponents files).find? (test ∘ fun a => a.2.entry a.1) with
  | none =>
    intro p k hk hasked
    exact List.find?_eq_none.mp hfind (p, k) (mem_placedComponents.mpr hk) ((h k p).mpr hasked)
  | some a =>
    obtain ⟨p, k⟩ := a
    obtain ⟨htest, earlier, later, hall, hearlier⟩ := List.find?_eq_some_iff_append.mp hfind
    have hmem : (p, k) ∈ placedComponents files := List.mem_of_find?_eq_some hfind
    refine ⟨p, k, mem_placedComponents.mp hmem, (h k p).mp htest, rfl, fun q k' hk' hbefore hasked => ?_⟩
    have hmem' := mem_placedComponents.mpr hk'
    have hordered : (placedComponents files).Pairwise fun a b => a.1.Before b.1 := pairwise_placedComponents
    rw [hall, List.pairwise_append, List.pairwise_cons] at hordered
    rw [hall, List.mem_append, List.mem_cons] at hmem'
    rcases hmem' with hmem' | hsame | hmem'
    · exact Bool.eq_false_iff.mp (by simpa using hearlier _ hmem') ((h k' q).mpr hasked)
    · cases hsame
      exact hbefore.asymm hbefore
    · exact hbefore.asymm (hordered.2.1.1 _ hmem')

/-- The component has the name that is asked for, of that kind, as its old one. -/
def Component.HasOld (kind : SymbolKind) (name : Text) (k : Component) : Prop :=
  k.symbolKind = kind ∧ k.old.key kind = lookupKey kind name

/-- The component has the name that is asked for, of that kind, as its new one. -/
def Component.HasNew (kind : SymbolKind) (name : Text) (k : Component) : Prop :=
  k.symbolKind = kind ∧ k.new.key kind = lookupKey kind name

namespace RenameIndex

variable (files : List FilePlan) (kind : SymbolKind) (name : Text)

theorem find?_isFirstEntry :
    IsFirstEntry files (Component.HasOld kind name) ((ofFiles files).find? kind name) :=
  isFirstEntry_find? fun k p => by
    rw [Bool.and_eq_true, beq_iff_eq, beq_iff_eq]
    rfl

theorem findNew?_isFirstEntry :
    IsFirstEntry files (Component.HasNew kind name) ((ofFiles files).findNew? kind name) :=
  isFirstEntry_find? fun k p => by
    rw [Bool.and_eq_true, beq_iff_eq, beq_iff_eq]
    rfl

end RenameIndex

/-- The decision at the positions of its file and itself. -/
def decisionAt? (files : List FilePlan) (i j : Nat) : Option Decision := do
  let file ← files[i]?
  file.decisions[j]?

theorem componentAt?_eq_some_iff {files : List FilePlan} {p : ComponentPlace} {k : Component} :
    componentAt? files p = some k ↔
      ∃ d, decisionAt? files p.file p.decision = some d ∧ d.components[p.component]? = some k := by
  simp only [componentAt?, decisionAt?, Option.bind_eq_bind, Option.bind_eq_some_iff]
  constructor
  · rintro ⟨file, hfile, d, hd, hk⟩
    exact ⟨d, ⟨file, hfile, hd⟩, hk⟩
  · rintro ⟨d, ⟨file, hfile, hd⟩, hk⟩
    exact ⟨file, hfile, d, hd, hk⟩

/-- All decisions with their positions. -/
def placedDecisions (files : List FilePlan) : List ((Nat × Nat) × Decision) :=
  files.zipIdx.flatMap fun (file, i) => file.decisions.zipIdx.map fun (d, j) => ((i, j), d)

theorem mem_placedDecisions {files : List FilePlan} {i j : Nat} {d : Decision} :
    ((i, j), d) ∈ placedDecisions files ↔ decisionAt? files i j = some d := by
  simp only [placedDecisions, decisionAt?, List.mem_flatMap, List.mem_map, Prod.exists,
    List.mem_zipIdx_iff_getElem?, Prod.mk.injEq, Option.bind_eq_bind, Option.bind_eq_some_iff]
  constructor
  · rintro ⟨file, _, hfile, _, _, hd, ⟨rfl, rfl⟩, rfl⟩
    exact ⟨file, hfile, hd⟩
  · rintro ⟨file, hfile, hd⟩
    exact ⟨file, i, hfile, d, j, hd, ⟨rfl, rfl⟩, rfl⟩

theorem map_snd_placedDecisions (files : List FilePlan) :
    (placedDecisions files).map (·.2) = files.flatMap (·.decisions) := by
  rw [placedDecisions, List.map_flatMap, ← flatMap_zipIdx files]
  refine List.flatMap_congr fun a _ => ?_
  rw [List.map_map]
  exact List.zipIdx_map_fst 0 a.1.decisions

namespace ProjectPlan

variable {root : Text} {c : PlanConfig} {files : List FilePlan}

theorem not_rivals_of_ne {i j i' j' : Nat} {d d' : Decision}
    (hd : decisionAt? (ProjectPlan.ofFiles root c files).files i j = some d)
    (hd' : decisionAt? (ProjectPlan.ofFiles root c files).files i' j' = some d')
    (hne : (i, j) ≠ (i', j')) : ¬d.Rivals d' := by
  have hapart := decisions_ofFiles_apart root c files
  have hall : (ProjectPlan.ofFiles root c files).decisions.map (·.2) =
      (placedDecisions (ProjectPlan.ofFiles root c files).files).map (·.2) := by
    rw [map_snd_placedDecisions, decisions, List.map_flatMap]
    exact List.flatMap_congr fun file _ => by rw [List.map_map]; exact List.map_id _
  rw [hall, List.pairwise_map] at hapart
  have hsymm : Std.Symm fun a b : (Nat × Nat) × Decision => ¬a.2.Rivals b.2 :=
    ⟨fun _ _ hr hr' => hr hr'.symm⟩
  exact hapart.forall (mem_placedDecisions.mpr hd) (mem_placedDecisions.mpr hd')
    fun heq => hne (congrArg Prod.fst heq)

/-- A new name that stays is found with the positions of its own decision. -/
theorem findNew?_of_component {i j : Nat} {d : Decision} {k : Component}
    (hd : decisionAt? (ProjectPlan.ofFiles root c files).files i j = some d) (hk : k ∈ d.components) :
    ∃ e, (ProjectPlan.ofFiles root c files).index.findNew? k.symbolKind k.new.text = some e ∧
      e.file = i ∧ e.decision = j := by
  have hfirst := RenameIndex.findNew?_isFirstEntry (ProjectPlan.ofFiles root c files).files
    k.symbolKind k.new.text
  obtain ⟨n, hn⟩ := List.mem_iff_getElem?.mp hk
  have hplace : componentAt? (ProjectPlan.ofFiles root c files).files ⟨i, j, n⟩ = some k :=
    componentAt?_eq_some_iff.mpr ⟨d, hd, hn⟩
  change ∃ e, (RenameIndex.ofFiles (ProjectPlan.ofFiles root c files).files).findNew? _ _ = some e ∧ _
  cases hfound : (RenameIndex.ofFiles (ProjectPlan.ofFiles root c files).files).findNew? k.symbolKind k.new.text with
  | none =>
    rw [hfound] at hfirst
    exact absurd ⟨rfl, rfl⟩ (hfirst _ k hplace)
  | some e =>
    rw [hfound] at hfirst
    obtain ⟨p, k', hk', ⟨hkind, hkey⟩, rfl, -⟩ := hfirst
    obtain ⟨d', hd', hn'⟩ := componentAt?_eq_some_iff.mp hk'
    refine ⟨_, rfl, ?_⟩
    by_contra hother
    refine not_rivals_of_ne hd hd' (fun heq => hother ?_) ⟨k.identity, List.mem_map_of_mem hk, ?_⟩
    · cases heq
      exact ⟨rfl, rfl⟩
    · have hidentity : k'.identity = k.identity := by
        rw [Component.identity, Component.identity, hkind, hkey]
        rfl
      rw [← hidentity]
      exact List.mem_map_of_mem (List.mem_of_getElem? hn')

end ProjectPlan

namespace IndexEntry

/-- The names of an entry, without its positions. -/
def names (e : IndexEntry) : SymbolKind × QualifiedName × QualifiedName := (e.kind, e.old, e.new)

end IndexEntry

namespace RenameIndex

variable (x y z : RenameIndex) (kind : SymbolKind) (name : Text)

theorem find?_merge : (merge x y).find? kind name = (x.find? kind name).or (y.find? kind name) :=
  List.find?_append

theorem findNew?_merge :
    (merge x y).findNew? kind name = (x.findNew? kind name).or (y.findNew? kind name) :=
  List.find?_append

theorem map_names_ofFiles (files : List FilePlan) : (ofFiles files).entries.map IndexEntry.names =
    files.flatMap fun file => file.decisions.flatMap fun decision =>
      decision.components.map fun k => (k.symbolKind, k.old, k.new) := by
  rw [ofFiles, List.map_flatMap, ← flatMap_zipIdx files]
  refine List.flatMap_congr fun file _ => ?_
  rw [List.map_flatMap, ← flatMap_zipIdx file.1.decisions]
  exact List.flatMap_congr fun decision _ => List.map_map

theorem map_names_append (ps qs : List FilePlan) : (ofFiles (ps ++ qs)).entries.map IndexEntry.names =
    (merge (ofFiles ps) (ofFiles qs)).entries.map IndexEntry.names := by
  rw [merge, List.map_append, map_names_ofFiles, map_names_ofFiles, map_names_ofFiles, List.flatMap_append]

theorem map_names_find? {x y : RenameIndex}
    (h : x.entries.map IndexEntry.names = y.entries.map IndexEntry.names) (kind : SymbolKind) (name : Text) :
    (x.find? kind name).map IndexEntry.names = (y.find? kind name).map IndexEntry.names ∧
      (x.findNew? kind name).map IndexEntry.names = (y.findNew? kind name).map IndexEntry.names := by
  let old (n : SymbolKind × QualifiedName × QualifiedName) := n.1 == kind && n.2.1.key kind == lookupKey kind name
  let new (n : SymbolKind × QualifiedName × QualifiedName) := n.1 == kind && n.2.2.key kind == lookupKey kind name
  have hold := congrArg (List.find? old) h
  have hnew := congrArg (List.find? new) h
  rw [List.find?_map, List.find?_map] at hold hnew
  exact ⟨hold, hnew⟩

end RenameIndex

/-- A text is hashed as a string. -/
instance : Hashable Text := ⟨fun t => hash (String.ofList t)⟩

/-- The index as hash tables: for every kind one from the keys of old names, and one from those of new names. -/
structure RenameTable where
  byOld : SymbolKind → Std.HashMap Text IndexEntry
  byNew : SymbolKind → Std.HashMap Text IndexEntry

/-- Rows that are entered into a table one after the other. A row whose key is there already is left out. -/
def enterRows (m : Std.HashMap Text IndexEntry) (rows : List (Text × IndexEntry)) :
    Std.HashMap Text IndexEntry := rows.foldl (fun m row => m.insertIfNew row.1 row.2) m

namespace RenameTable

def empty : RenameTable := ⟨fun _ => ∅, fun _ => ∅⟩

def enter (x : RenameTable) (e : IndexEntry) : RenameTable where
  byOld kind := if kind = e.kind then (x.byOld kind).insertIfNew (e.old.key kind) e else x.byOld kind
  byNew kind := if kind = e.kind then (x.byNew kind).insertIfNew (e.new.key kind) e else x.byNew kind

/-- The tables of files, filled in one pass over all components. -/
def ofFiles (files : List FilePlan) : RenameTable :=
  files.zipIdx.foldl (fun x (file, i) => file.decisions.zipIdx.foldl (fun x (decision, j) =>
    decision.components.foldl (fun x k => x.enter ⟨k.symbolKind, k.old, k.new, i, j⟩) x) x) empty

/-- The second tables are folded into the first ones. The rows of each come in some order. -/
structure Merges (x y z : RenameTable) : Prop where
  byOld : ∀ kind, ∃ rows, rows.Perm (y.byOld kind).toList ∧ z.byOld kind = enterRows (x.byOld kind) rows
  byNew : ∀ kind, ∃ rows, rows.Perm (y.byNew kind).toList ∧ z.byNew kind = enterRows (x.byNew kind) rows

/-- The tables answer like an index. -/
structure Shows (x : RenameTable) (index : RenameIndex) : Prop where
  byOld : ∀ kind name, (x.byOld kind)[lookupKey kind name]? = index.find? kind name
  byNew : ∀ kind name, (x.byNew kind)[lookupKey kind name]? = index.findNew? kind name

section Rows

variable {m : Std.HashMap Text IndexEntry} {key : Text}

theorem getElem?_insertIfNew_or (m : Std.HashMap Text IndexEntry) (key other : Text) (e : IndexEntry) :
    (m.insertIfNew other e)[key]? = m[key]?.or (if other = key then some e else none) := by
  rw [Std.HashMap.getElem?_insertIfNew]
  by_cases hkey : other = key
  · subst hkey
    by_cases hmem : other ∈ m
    · rw [if_neg (fun h => h.2 hmem), Std.HashMap.getElem?_eq_some_getElem hmem]
      rfl
    · rw [if_pos ⟨beq_self_eq_true other, hmem⟩, Std.HashMap.getElem?_eq_none hmem, if_pos rfl]
      rfl
  · rw [if_neg (fun h => hkey (eq_of_beq h.1)), if_neg hkey, Option.or_none]

theorem getElem?_enterRows (rows : List (Text × IndexEntry)) :
    (enterRows m rows)[key]? = m[key]?.or ((rows.find? fun row => row.1 == key).map Prod.snd) := by
  induction rows generalizing m with
  | nil => exact (Option.or_none).symm
  | cons row rows ih =>
    change (enterRows (m.insertIfNew row.1 row.2) rows)[key]? = _
    rw [ih, getElem?_insertIfNew_or, Option.or_assoc, List.find?_cons]
    by_cases hkey : row.1 = key
    · rw [if_pos hkey, hkey, beq_self_eq_true]
      rfl
    · rw [if_neg hkey, beq_eq_false_iff_ne.mpr hkey]
      rfl

theorem find?_rows {rows : List (Text × IndexEntry)} (h : rows.Perm m.toList) :
    (rows.find? fun row => row.1 == key).map Prod.snd = m[key]? := by
  cases hfind : rows.find? fun row => row.1 == key with
  | none =>
    refine (Option.eq_none_iff_forall_ne_some.mpr fun e he => ?_).symm
    have hmem := h.mem_iff.mpr (Std.HashMap.mem_toList_iff_getElem?_eq_some.mpr he)
    exact List.find?_eq_none.mp hfind _ hmem (beq_self_eq_true key)
  | some row =>
    obtain ⟨k, e⟩ := row
    have htest := List.find?_some hfind
    obtain rfl : k = key := eq_of_beq htest
    exact (Std.HashMap.mem_toList_iff_getElem?_eq_some.mp
      (h.mem_iff.mp (List.mem_of_find?_eq_some hfind))).symm

end Rows

theorem Merges.getElem? {x y z : RenameTable} (h : Merges x y z) (kind : SymbolKind) (key : Text) :
    (z.byOld kind)[key]? = (x.byOld kind)[key]?.or (y.byOld kind)[key]? ∧
      (z.byNew kind)[key]? = (x.byNew kind)[key]?.or (y.byNew kind)[key]? := by
  obtain ⟨rows, hperm, hold⟩ := h.byOld kind
  obtain ⟨rows', hperm', hnew⟩ := h.byNew kind
  rw [hold, hnew, getElem?_enterRows, getElem?_enterRows, find?_rows hperm, find?_rows hperm']
  exact ⟨rfl, rfl⟩

theorem Shows.merge {x y z : RenameTable} {a b : RenameIndex} (hx : x.Shows a) (hy : y.Shows b)
    (h : Merges x y z) : z.Shows (.merge a b) where
  byOld kind name := by
    rw [(h.getElem? kind _).1, hx.byOld, hy.byOld, RenameIndex.find?_merge]
  byNew kind name := by
    rw [(h.getElem? kind _).2, hx.byNew, hy.byNew, RenameIndex.findNew?_merge]

theorem shows_empty : Shows empty .empty :=
  ⟨fun _ _ => Std.HashMap.getElem?_empty, fun _ _ => Std.HashMap.getElem?_empty⟩

/-- An entry comes behind those that are there. -/
theorem Shows.enter {x : RenameTable} {a : RenameIndex} (h : x.Shows a) (e : IndexEntry) :
    (x.enter e).Shows (.merge a ⟨[e]⟩) := by
  have hone (kind : SymbolKind) (m : Std.HashMap Text IndexEntry) (key other : Text) :
      (if kind = e.kind then m.insertIfNew other e else m)[key]? =
        m[key]?.or (if e.kind == kind && other == key then some e else none) := by
    by_cases hkind : kind = e.kind
    · subst hkind
      rw [if_pos rfl, getElem?_insertIfNew_or, beq_self_eq_true, Bool.true_and]
      simp only [beq_iff_eq]
    · rw [if_neg hkind, beq_eq_false_iff_ne.mpr (Ne.symm hkind), Bool.false_and]
      exact Option.or_none.symm
  constructor
  · intro kind name
    rw [RenameIndex.find?_merge, ← h.byOld, RenameTable.enter]
    dsimp only
    rw [hone, RenameIndex.find?, List.find?_singleton]
  · intro kind name
    rw [RenameIndex.findNew?_merge, ← h.byNew, RenameTable.enter]
    dsimp only
    rw [hone, RenameIndex.findNew?, List.find?_singleton]

theorem Shows.enterAll {x : RenameTable} {a : RenameIndex} (h : x.Shows a) (es : List IndexEntry) :
    (es.foldl RenameTable.enter x).Shows (.merge a ⟨es⟩) := by
  induction es generalizing x a with
  | nil =>
    rw [RenameIndex.merge, List.append_nil]
    exact h
  | cons e es ih =>
    have hnext := ih (h.enter e)
    rw [RenameIndex.merge, RenameIndex.merge, List.append_assoc] at hnext
    exact hnext

theorem shows_ofFiles (files : List FilePlan) : (ofFiles files).Shows (.ofFiles files) := by
  have hfold : ofFiles files = (RenameIndex.ofFiles files).entries.foldl RenameTable.enter empty := by
    rw [ofFiles, RenameIndex.ofFiles, List.foldl_flatMap]
    simp only [List.foldl_flatMap, List.foldl_map]
  rw [hfold]
  exact shows_empty.enterAll _

/-- Tables with the same rows. -/
def Same (x y : RenameTable) : Prop :=
  ∀ kind, (x.byOld kind).Equiv (y.byOld kind) ∧ (x.byNew kind).Equiv (y.byNew kind)

theorem same_of_getElem? {x y : RenameTable}
    (h : ∀ kind (key : Text), (x.byOld kind)[key]? = (y.byOld kind)[key]? ∧
      (x.byNew kind)[key]? = (y.byNew kind)[key]?) : x.Same y := fun kind =>
  ⟨.of_forall_getElem?_eq fun key => (h kind key).1, .of_forall_getElem?_eq fun key => (h kind key).2⟩

theorem Merges.assoc {x y z xy yz left right : RenameTable} (hxy : Merges x y xy) (hleft : Merges xy z left)
    (hyz : Merges y z yz) (hright : Merges x yz right) : left.Same right := by
  refine same_of_getElem? fun kind key => ?_
  rw [(hleft.getElem? kind key).1, (hleft.getElem? kind key).2, (hxy.getElem? kind key).1,
    (hxy.getElem? kind key).2, (hright.getElem? kind key).1, (hright.getElem? kind key).2,
    (hyz.getElem? kind key).1, (hyz.getElem? kind key).2, Option.or_assoc, Option.or_assoc]
  exact ⟨rfl, rfl⟩

theorem Merges.empty_right {x y : RenameTable} (h : Merges x empty y) : y.Same x := by
  refine same_of_getElem? fun kind key => ?_
  have hnone : (∅ : Std.HashMap Text IndexEntry)[key]? = none := Std.HashMap.getElem?_empty
  rw [(h.getElem? kind key).1, (h.getElem? kind key).2, empty, hnone, Option.or_none, Option.or_none]
  exact ⟨rfl, rfl⟩

theorem Merges.empty_left {x y : RenameTable} (h : Merges empty x y) : y.Same x := by
  refine same_of_getElem? fun kind key => ?_
  have hnone : (∅ : Std.HashMap Text IndexEntry)[key]? = none := Std.HashMap.getElem?_empty
  rw [(h.getElem? kind key).1, (h.getElem? kind key).2, empty, hnone, Option.none_or, Option.none_or]
  exact ⟨rfl, rfl⟩

end RenameTable

/-- The index answers with the first component in reading order, and leads from the new names that stay to
their own decisions. Merging indexes is associative, has the empty index on both sides, prefers the entries of
the first index, and finds the names that it finds for all files at once. Hash tables that are filled in one
pass, and merged in any order of their rows, give these answers. -/
theorem RenameIndex.isFirstWins :
    (∀ files kind name, IsFirstEntry files (Component.HasOld kind name) ((ofFiles files).find? kind name) ∧
      IsFirstEntry files (Component.HasNew kind name) ((ofFiles files).findNew? kind name)) ∧
    (∀ root c files i j d, decisionAt? (ProjectPlan.ofFiles root c files).files i j = some d →
      ∀ k ∈ d.components, ∃ e,
        (ProjectPlan.ofFiles root c files).index.findNew? k.symbolKind k.new.text = some e ∧
          e.file = i ∧ e.decision = j) ∧
    (∀ x y z, merge (merge x y) z = merge x (merge y z)) ∧
    (∀ x, merge x empty = x ∧ merge empty x = x) ∧
    (∀ x y kind name, (merge x y).find? kind name = (x.find? kind name).or (y.find? kind name) ∧
      (merge x y).findNew? kind name = (x.findNew? kind name).or (y.findNew? kind name)) ∧
    (∀ ps qs kind name,
      ((ofFiles (ps ++ qs)).find? kind name).map IndexEntry.names =
        ((merge (ofFiles ps) (ofFiles qs)).find? kind name).map IndexEntry.names ∧
      ((ofFiles (ps ++ qs)).findNew? kind name).map IndexEntry.names =
        ((merge (ofFiles ps) (ofFiles qs)).findNew? kind name).map IndexEntry.names) ∧
    (∀ files, (RenameTable.ofFiles files).Shows (ofFiles files)) ∧
    (∀ x y z a b, RenameTable.Shows x a → RenameTable.Shows y b → RenameTable.Merges x y z →
      z.Shows (merge a b)) ∧
    (∀ x y z xy yz left right, RenameTable.Merges x y xy → RenameTable.Merges xy z left →
      RenameTable.Merges y z yz → RenameTable.Merges x yz right → left.Same right) ∧
    (∀ x y, RenameTable.Merges x .empty y → y.Same x) ∧
    (∀ x y, RenameTable.Merges .empty x y → y.Same x) := by
  refine ⟨fun files kind name => ⟨find?_isFirstEntry files kind name, findNew?_isFirstEntry files kind name⟩,
    fun _ _ _ _ _ _ hd _ hk => ProjectPlan.findNew?_of_component hd hk,
    fun x y z => ?_, fun x => ⟨?_, rfl⟩,
    fun x y kind name => ⟨find?_merge x y kind name, findNew?_merge x y kind name⟩,
    fun ps qs => map_names_find? (map_names_append ps qs), RenameTable.shows_ofFiles,
    fun _ _ _ _ _ hx hy h => hx.merge hy h, fun _ _ _ _ _ _ _ hxy hleft hyz hright => hxy.assoc hleft hyz hright,
    fun _ _ h => h.empty_right, fun _ _ h => h.empty_left⟩
  · exact congrArg RenameIndex.mk (List.append_assoc x.entries y.entries z.entries)
  · exact congrArg RenameIndex.mk (List.append_nil x.entries)

/-- Two files with a class each, and a third one that declares the second class again. -/
def classesApart : List FilePlan :=
  [.ofText (.ofLead "Acme") "a.php" "<?php class A \x7b\x7d",
    .ofText (.ofLead "Acme") "b.php" "<?php class B \x7b\x7d"]

def classAgain : List FilePlan := [.ofText (.ofLead "Acme") "c.php" "<?php class B \x7b\x7d class C \x7b\x7d"]

/-- The new name of the second class leads to the second file, and the tables of the last file, folded into those
of the others from the last row to the first, leave it there. -/
theorem RenameIndex.findNew?_classesApart :
    let p := ProjectPlan.ofFiles "src" (.ofLead "Acme") (classesApart ++ classAgain)
    let x := RenameTable.ofFiles classesApart
    let y := RenameTable.ofFiles classAgain
    let z : RenameTable :=
      ⟨fun kind => enterRows (x.byOld kind) (y.byOld kind).toList.reverse,
        fun kind => enterRows (x.byNew kind) (y.byNew kind).toList.reverse⟩
    (∃ e, p.index.findNew? .type "Acme\\B" = some e ∧ e.file = 1 ∧ e.decision = 0) ∧
      ((z.byNew .type)[lookupKey .type "Acme\\B"]?).map IndexEntry.file = some 1 := by
  intro p x y z
  let k : Component := ⟨.classLike .classDecl, ⟨"B"⟩, ⟨"Acme\\B"⟩⟩
  obtain ⟨-, hback, -, -, -, -, hshows, hmerge, -⟩ := isFirstWins
  constructor
  · have hmem : (decisionAt? p.files 1 0).any (fun d => decide (k ∈ d.components)) = true := by decide +kernel
    obtain ⟨d, hd, hk⟩ := (Option.any_eq_true _ _).mp hmem
    exact hback "src" (.ofLead "Acme") (classesApart ++ classAgain) 1 0 d hd k (of_decide_eq_true hk)
  · have hz := hmerge x y z _ _ (hshows classesApart) (hshows classAgain)
      ⟨fun kind => ⟨_, List.reverse_perm _, rfl⟩, fun kind => ⟨_, List.reverse_perm _, rfl⟩⟩
    rw [hz.byNew]
    decide +kernel

end NamespaceMigration
