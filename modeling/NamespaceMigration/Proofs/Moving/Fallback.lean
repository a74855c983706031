import NamespaceMigration.Adaptation.Extraction
import NamespaceMigration.Plan.Conflict
import NamespaceMigration.Proofs.Statements.Names

/-! What a bare function or constant means when its code moves to another namespace. At run time the
namespaced symbol counts, and the global one if there is none. -/
namespace NamespaceMigration

namespace ProjectPlan

variable (p : ProjectPlan)

def components : List Component := p.decisions.flatMap (·.2.components)

/-- Whether the project declares a symbol before the migration. -/
def declares (kind : SymbolKind) (n : QualifiedName) : Bool :=
  p.components.any fun c => c.symbolKind == kind && c.old.key kind == n.key kind

/-- Whether the project declares a symbol after the migration. -/
def gains (kind : SymbolKind) (n : QualifiedName) : Bool :=
  p.components.any fun c => c.symbolKind == kind && c.new.key kind == n.key kind

/-- What a symbol is after the migration. Symbols that are not in the index stay. -/
def migrated (kind : SymbolKind) (n : QualifiedName) : QualifiedName :=
  ((RenameIndex.ofFiles p.files).find? kind n.text).elim n (·.new)

/-- What a name means before the migration. -/
def meantBefore (kind : SymbolKind) : Resolution → QualifiedName
  | .resolved n => n
  | .fallback namespaced global => if p.declares kind namespaced then namespaced else global

/-- What a bare name means after the migration in its new namespace: what is written for it in full,
or else the namespaced symbol if the project declares one now, or else the global one. -/
def meantAfter (kind : SymbolKind) (space? : Option Text) (name : Text) (written? : Option Text) :
    QualifiedName :=
  match written? with
  | some written => .ofText written
  | none => if p.gains kind (.join space? name) then .join space? name else .ofText name

variable {p}

theorem mem_components {c : Component} :
    c ∈ p.components ↔ ∃ file ∈ p.files, ∃ d ∈ file.decisions, c ∈ d.components := by
  simp only [components, decisions, List.mem_flatMap, List.mem_map]
  constructor
  · rintro ⟨-, ⟨file, hfile, d, hd, rfl⟩, hc⟩
    exact ⟨file, hfile, d, hd, hc⟩
  · rintro ⟨file, hfile, d, hd, hc⟩
    exact ⟨_, ⟨file, hfile, d, hd, rfl⟩, hc⟩

/-- The index has the components of all accepted decisions, and no others. -/
theorem exists_entry_iff {kind : SymbolKind} {old new : QualifiedName} :
    (∃ e ∈ (RenameIndex.ofFiles p.files).entries, e.kind = kind ∧ e.old = old ∧ e.new = new) ↔
      ∃ c ∈ p.components, c.symbolKind = kind ∧ c.old = old ∧ c.new = new := by
  rw [RenameIndex.ofFiles]
  simp only [List.mem_flatMap, List.mem_map]
  constructor
  · rintro ⟨e, ⟨⟨file, i⟩, hfile, ⟨d, j⟩, hd, c, hc, rfl⟩, rfl, rfl, rfl⟩
    rw [List.mk_mem_zipIdx_iff_getElem?] at hfile hd
    exact ⟨c, mem_components.mpr ⟨file, List.mem_of_getElem? hfile, d, List.mem_of_getElem? hd, hc⟩,
      rfl, rfl, rfl⟩
  · rintro ⟨c, hc, rfl, rfl, rfl⟩
    obtain ⟨file, hfile, d, hd, hc⟩ := mem_components.mp hc
    obtain ⟨i, hi⟩ := List.mem_iff_getElem?.mp hfile
    obtain ⟨j, hj⟩ := List.mem_iff_getElem?.mp hd
    exact ⟨_, ⟨(file, i), List.mk_mem_zipIdx_iff_getElem?.mpr hi, (d, j),
      List.mk_mem_zipIdx_iff_getElem?.mpr hj, c, hc, rfl⟩, rfl, rfl, rfl⟩

theorem gains_iff {kind : SymbolKind} {n : QualifiedName} :
    p.gains kind n ↔ ∃ c ∈ p.components, c.symbolKind = kind ∧ c.new.key kind = n.key kind := by
  simp [gains]

theorem declares_iff {kind : SymbolKind} {n : QualifiedName} :
    p.declares kind n ↔ ∃ c ∈ p.components, c.symbolKind = kind ∧ c.old.key kind = n.key kind := by
  simp [declares]

theorem find?_spec {kind : SymbolKind} {n : QualifiedName} {e : IndexEntry}
    (h : (RenameIndex.ofFiles p.files).find? kind n.text = some e) : e.kind = kind ∧ e.old.key kind = n.key kind ∧
      p.gains kind e.new := by
  have hkey : e.kind = kind ∧ e.old.key kind = n.key kind := by
    simpa [QualifiedName.key] using List.find?_some h
  obtain ⟨c, hc, hkind, -, hnew⟩ :=
    exists_entry_iff.mp ⟨e, List.mem_of_find?_eq_some h, hkey.1, rfl, rfl⟩
  exact ⟨hkey.1, hkey.2, gains_iff.mpr ⟨c, hc, hkind, by rw [hnew]⟩⟩

theorem find?_isSome_iff {kind : SymbolKind} {n : QualifiedName} :
    ((RenameIndex.ofFiles p.files).find? kind n.text).isSome ↔ p.declares kind n := by
  rw [RenameIndex.find?, List.find?_isSome, declares_iff]
  constructor
  · rintro ⟨e, he, hkey⟩
    have hkey' : e.kind = kind ∧ e.old.key kind = n.key kind := by
      simpa [QualifiedName.key] using hkey
    obtain ⟨c, hc, hkind, hold, -⟩ := exists_entry_iff.mp ⟨e, he, hkey'.1, rfl, rfl⟩
    exact ⟨c, hc, hkind, by rw [hold, hkey'.2]⟩
  · rintro ⟨c, hc, hkind, hkey⟩
    obtain ⟨e, he, hek, hold, -⟩ := exists_entry_iff.mpr ⟨c, hc, hkind, rfl, rfl⟩
    exact ⟨e, he, by simpa [hek, hold, QualifiedName.key] using hkey⟩

theorem find?_eq_none_iff {kind : SymbolKind} {n : QualifiedName} :
    (RenameIndex.ofFiles p.files).find? kind n.text = none ↔ p.declares kind n = false := by
  rw [← Option.not_isSome_iff_eq_none, find?_isSome_iff, Bool.not_eq_true]

end ProjectPlan

namespace QualifiedName

theorem key_join_ne {space name : Text} (hs : IsSpace space) (hn : '\\' ∉ name) (kind : SymbolKind) :
    (join (some space) name).key kind ≠ (ofText name).key kind := by
  intro h
  have hlen := congrArg List.length h
  rw [join_some hs hn, key, key, ofText, dropBackslashes_of_not_mem hn,
    key_of_space kind hs.head hs.ne_nil hn, lookupKey, dropBackslashes_of_not_mem hn,
    Text.splitAtLast?_eq_none_iff.mpr hn] at hlen
  split at hlen
  · rw [List.length_append, List.length_cons] at hlen
    dsimp only at hlen
    omega
  · have hcons : Text.toLowerFrom [] ('\\' :: name) = '\\' :: Text.toLowerFrom ['\\'] name := rfl
    rw [Text.toLower, Text.toLower, Text.length_toLowerFrom_append, hcons, List.length_cons,
      Text.length_toLowerFrom ['\\'] []] at hlen
    omega

end QualifiedName

/-- Two meanings are left to bare functions and constants of a namespace. -/
theorem NameContext.resolve_eq_fallback {c : NameContext} {name : Text} {kind : SymbolKind}
    {here global : QualifiedName} (h : c.resolve name kind = .fallback here global) :
    '\\' ∉ name ∧ ∃ space, c.space? = some space ∧ here = .join (some space) name ∧
      global = .ofText name := by
  rw [resolve.eq_def] at h
  split at h
  · cases h
  · split at h
    · split at h
      · cases h
      · split at h <;> cases h
    · rename_i hsplit
      split at h
      · cases h
      · split at h
        · cases h
        · rename_i hspace
          obtain ⟨space, hs⟩ : ∃ space, c.space? = some space :=
            Option.ne_none_iff_exists'.mp fun hs => hspace (Or.inr (Or.inl hs))
          cases h
          exact ⟨Text.splitAtFirst?_eq_none_iff.mp hsplit, space, hs, by rw [hs], rfl⟩

namespace ProjectPlan

variable {p : ProjectPlan}

theorem fallbackName?_eq_some {kind : SymbolKind} {here global new : QualifiedName}
    (h : (RenameIndex.ofFiles p.files).fallbackName? (.fallback here global) kind = some new) :
    new = p.migrated kind (p.meantBefore kind (.fallback here global)) := by
  obtain ⟨e, he, hnew⟩ : ∃ e, ((RenameIndex.ofFiles p.files).find? kind here.text).or
      ((RenameIndex.ofFiles p.files).find? kind global.text) = some e ∧ e.new = new := by
    rw [RenameIndex.fallbackName?] at h
    obtain ⟨e, he, hnew⟩ := Option.bind_eq_some_iff.mp h
    split at hnew
    · exact ⟨e, he, Option.some.inj hnew⟩
    · cases hnew
  cases hfind : (RenameIndex.ofFiles p.files).find? kind here.text with
  | some e' =>
    rw [hfind, Option.some_or, Option.some.injEq] at he
    have hdecl : p.declares kind here := find?_isSome_iff.mp (by rw [hfind]; rfl)
    rw [meantBefore, if_pos hdecl, migrated, hfind, Option.elim_some, he, hnew]
  | none =>
    rw [hfind, Option.none_or] at he
    rw [meantBefore, find?_eq_none_iff.mp hfind, if_neg Bool.false_ne_true, migrated, he,
      Option.elim_some, hnew]

theorem changes_eq_false {kind : SymbolKind} {here global : QualifiedName} {e : IndexEntry}
    (h : (RenameIndex.ofFiles p.files).fallbackName? (.fallback here global) kind = none)
    (he : ((RenameIndex.ofFiles p.files).find? kind here.text).or
      ((RenameIndex.ofFiles p.files).find? kind global.text) = some e) : e.new = e.old := by
  rw [RenameIndex.fallbackName?] at h
  have hif := Option.bind_eq_none_iff.mp h e he
  split at hif
  · cases hif
  · rename_i hc
    have hsame : e.old = e.new := by simpa [IndexEntry.changes] using hc
    exact hsame.symm

/-- A symbol whose name is left as it is stays what it was. -/
theorem migrated_key_of_fallbackName?_none {kind : SymbolKind} {here global : QualifiedName}
    (h : (RenameIndex.ofFiles p.files).fallbackName? (.fallback here global) kind = none) :
    (p.migrated kind (p.meantBefore kind (.fallback here global))).key kind =
      (p.meantBefore kind (.fallback here global)).key kind := by
  have hstays {n : QualifiedName}
      (hn : ∀ e, (RenameIndex.ofFiles p.files).find? kind n.text = some e → e.new = e.old) :
      (p.migrated kind n).key kind = n.key kind := by
    rw [migrated]
    cases hfind : (RenameIndex.ofFiles p.files).find? kind n.text with
    | none => rfl
    | some e => rw [Option.elim_some, hn e hfind, (find?_spec hfind).2.1]
  cases hfind : (RenameIndex.ofFiles p.files).find? kind here.text with
  | some e =>
    have hdecl : p.declares kind here := find?_isSome_iff.mp (by rw [hfind]; rfl)
    rw [meantBefore, if_pos hdecl]
    refine hstays fun e' he' => changes_eq_false h ?_
    rw [he', Option.some_or]
  | none =>
    rw [meantBefore, find?_eq_none_iff.mp hfind, if_neg Bool.false_ne_true]
    refine hstays fun e he => changes_eq_false h ?_
    rw [hfind, he, Option.none_or]

/-- A bare name keeps its meaning exactly if it is written in full, or its namespace keeps the
symbol that it means there, or its new namespace has no such symbol. -/
theorem bare_keeps_meaning_iff {c : NameContext} (hc : c.IsPlain) {name : Text} {kind : SymbolKind}
    {here global : QualifiedName} (h : c.resolve name kind = .fallback here global)
    (space? : Option Text) :
    let written? := ((RenameIndex.ofFiles p.files).fallbackName? (.fallback here global) kind).map (·.written)
    (p.meantAfter kind space? name written?).key kind =
        (p.migrated kind (p.meantBefore kind (.fallback here global))).key kind ↔
      written?.isSome ∨
        if p.declares kind here then (QualifiedName.join space? name).key kind = here.key kind
        else p.gains kind (.join space? name) →
          (QualifiedName.join space? name).key kind = global.key kind := by
  intro written?
  cases hnew : (RenameIndex.ofFiles p.files).fallbackName? (.fallback here global) kind with
  | some new =>
    have hwritten : written? = some new.written := by rw [← Option.map_some, ← hnew]
    rw [hwritten, meantAfter, QualifiedName.key_written, fallbackName?_eq_some hnew]
    simp
  | none =>
    have hwritten : written? = none := by rw [← Option.map_none, ← hnew]
    obtain ⟨hname, space, hspace, hhere, rfl⟩ := NameContext.resolve_eq_fallback h
    rw [hwritten, meantAfter, migrated_key_of_fallbackName?_none hnew, meantBefore, Option.isSome_none,
      Bool.false_eq_true, false_or]
    cases hdecl : p.declares kind here with
    | true =>
      rw [if_pos rfl, if_pos rfl]
      cases hgains : p.gains kind (.join space? name) with
      | true => rw [if_pos rfl]
      | false =>
        rw [if_neg Bool.false_ne_true]
        constructor
        · intro hkey
          rw [hhere] at hkey
          exact absurd hkey.symm (QualifiedName.key_join_ne (hc.space space hspace) hname kind)
        · intro hkey
          -- The symbol stays in its namespace, so the project declares it there afterwards.
          obtain ⟨e, he⟩ := Option.isSome_iff_exists.mp (find?_isSome_iff.mpr hdecl)
          obtain ⟨-, hold, hgain⟩ := find?_spec he
          rw [changes_eq_false hnew (by rw [he, Option.some_or])] at hgain
          rw [gains, hkey, ← hold] at hgains
          rw [gains, hgains] at hgain
          contradiction
    | false =>
      rw [if_neg Bool.false_ne_true, if_neg Bool.false_ne_true]
      cases hgains : p.gains kind (.join space? name) with
      | true => simp
      | false => simp

end ProjectPlan

namespace Extraction

/-- The text in which a declaration is adapted: under its old namespace, with its directives and
imports. -/
def carried? (f : SourceFile) (d : Decision) : Option Text := do
  let l ← f.findByTokens? d.tokens.first d.tokens.stop
  let s ← f.scopes.find? (·.containsToken l.statement.first)
  some (d.surroundings ((f.scopeUses s).map fun u => f.statementText u.statement) ++
    (f.rangeWithDoc l.statement).of f.text ++ ['\n'])

end Extraction

/-- A bare function or constant whose code moves to a namespace means afterwards what its symbol becomes,
exactly if it is written in full, or the new namespace has the symbol that its old namespace had, or
neither namespace has a symbol of its name. -/
theorem SourceFile.bare_keeps_meaning_iff (p : ProjectPlan) (t : Text) {s : Scope}
    (hs : s ∈ (parse t).scopes) {r : Reference} {here global : QualifiedName}
    (h : ((parse t).context s).resolve r.text r.kind = .fallback here global)
    (space? : Option Text) :
    let f := parse t
    let written? := (f.renameReference? (.ofFiles p.files) (f.context s) r).map (·.text)
    (p.meantAfter r.kind space? r.text written?).key r.kind =
        (p.migrated r.kind (p.meantBefore r.kind (.fallback here global))).key r.kind ↔
      written?.isSome ∨
        if p.declares r.kind here then
          (QualifiedName.join space? r.text).key r.kind = here.key r.kind
        else p.gains r.kind (.join space? r.text) →
          (QualifiedName.join space? r.text).key r.kind = global.key r.kind := by
  intro f written?
  have hfull : isWrittenInFull r.text = false := by
    by_contra hfull
    have hhead : r.text.head? = some '\\' := by simpa [isWrittenInFull] using hfull
    exact (NameContext.resolve_eq_fallback h).1 (List.mem_of_mem_head? hhead)
  have hwritten : written? =
      ((RenameIndex.ofFiles p.files).fallbackName? (.fallback here global) r.kind).map (·.written) := by
    change (f.renameReference? _ (f.context s) r).map (·.text) = _
    rw [SourceFile.renameReference?, hfull, h]
    cases (RenameIndex.ofFiles p.files).fallbackName? (.fallback here global) r.kind <;> rfl
  rw [hwritten]
  exact ProjectPlan.bare_keeps_meaning_iff (context_isPlain hs) h space?

/-- The bare functions and constants of a declaration that moves to the new namespace of its decision. -/
theorem Extraction.carried_keeps_meaning_iff (p : ProjectPlan) : ∀ entry ∈ p.decisions, ∀ source,
    ∀ t ∈ carried? (.parse source) entry.2,
    let f := SourceFile.parse (Adaptation.qualify t)
    ∀ s ∈ f.scopes, ∀ r ∈ f.references s.first s.stop, ∀ here global,
    (f.context s).resolve r.text r.kind = .fallback here global →
    let written? := (f.renameReference? (.ofFiles p.files) (f.context s) r).map (·.text)
    (p.meantAfter r.kind entry.2.newSpace? r.text written?).key r.kind =
        (p.migrated r.kind (p.meantBefore r.kind (.fallback here global))).key r.kind ↔
      written?.isSome ∨
        if p.declares r.kind here then
          (QualifiedName.join entry.2.newSpace? r.text).key r.kind = here.key r.kind
        else p.gains r.kind (.join entry.2.newSpace? r.text) →
          (QualifiedName.join entry.2.newSpace? r.text).key r.kind = global.key r.kind :=
  fun entry _ _ t _ _ hs _ _ _ _ h =>
    SourceFile.bare_keeps_meaning_iff p (Adaptation.qualify t) hs h entry.2.newSpace?

/-- A class takes a part of its name into its namespace, and calls a function of the old one. -/
def splitSource : Text := "<?php namespace A; class B_C { function f() { return g(); } }"

def splitClass : Decision where
  kind := .classLike .classDecl
  span := ⟨1, 1, 19, 61⟩
  tokens := ⟨6, 30⟩
  spaceTokens? := some ⟨1, 30⟩
  oldSpace? := some ['A']
  newSpace? := some "A\\B"
  components := [⟨.classLike .classDecl, ⟨"A\\B_C"⟩, ⟨"A\\B\\C"⟩⟩]
  directives := []
  target := "A/B/C.php"
  exclusive := true
  risky := true
  ignored := false
  summary := "class A\\B_C"

/-- The function stays where it is. -/
def splitFunction : Decision where
  kind := .function
  span := ⟨1, 1, 19, 34⟩
  tokens := ⟨6, 13⟩
  spaceTokens? := some ⟨1, 13⟩
  oldSpace? := some ['A']
  newSpace? := some ['A']
  components := [⟨.function, ⟨"A\\g"⟩, ⟨"A\\g"⟩⟩]
  directives := []
  target := "includes/include.0.php"
  exclusive := false
  risky := false
  ignored := false
  summary := "function A\\g"

def splitFile : FilePlan := ⟨"a.php", [], false, [splitClass, splitFunction], []⟩

def splitPlan : ProjectPlan := ⟨"/src", "includes", ['A'], [splitFile], .ofFiles [splitFile]⟩

def splitText : Text := "<?php\n\nnamespace A;\n\nclass B_C { function f() { return g(); } }\n"

theorem splitText_scopes : (SourceFile.parse (Adaptation.qualify splitText)).scopes.length = 1 := by
  decide +kernel

def splitScope : Scope :=
  (SourceFile.parse (Adaptation.qualify splitText)).scopes.get
    ⟨0, by rw [splitText_scopes]; decide⟩

theorem split_changes_meaning :
    (splitPlan.meantAfter .function (some "A\\B") ['g'] none).key .function ≠
      (splitPlan.migrated .function (splitPlan.meantBefore .function
        (.fallback ⟨"A\\g"⟩ ⟨['g']⟩))).key .function := by
  let f := SourceFile.parse (Adaptation.qualify splitText)
  let called : Reference := ⟨23, .function, ['g']⟩
  obtain ⟨hdecision, hcarried⟩ : (splitFile, splitClass) ∈ splitPlan.decisions ∧
      Extraction.carried? (.parse splitSource) splitClass = some splitText := by decide +kernel
  obtain ⟨hreference, hmeans, hwritten⟩ : called ∈ f.references splitScope.first splitScope.stop ∧
      (f.context splitScope).resolve called.text called.kind = .fallback ⟨"A\\g"⟩ ⟨['g']⟩ ∧
      (f.renameReference? (.ofFiles splitPlan.files) (f.context splitScope) called).map (·.text) =
        none := by
    decide +kernel
  have hscope : splitScope ∈ f.scopes := List.get_mem _ _
  have h := Extraction.carried_keeps_meaning_iff splitPlan _ hdecision splitSource _ hcarried _ hscope
    _ hreference _ _ hmeans
  dsimp only at h
  rw [hwritten] at h
  exact h.not.mpr (by decide +kernel)

end NamespaceMigration
