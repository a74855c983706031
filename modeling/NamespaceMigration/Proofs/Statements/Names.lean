import NamespaceMigration.Name.Scope
import NamespaceMigration.Proofs.Fallible
import NamespaceMigration.Proofs.Lexing.Names
import NamespaceMigration.Proofs.Naming.Alias
import NamespaceMigration.Proofs.Statements.Everywhere

/-! Names in statements. They are texts of name tokens, so namespaces have no backslash at either end
and the short names that imports bind have none at all. -/
namespace NamespaceMigration

namespace Code

def ofText (t : Text) : Code := .ofTokens (Lexer.tokenize t) (Text.byteSize t)

theorem items_mem {tokens : List Token} {byteSize p : Nat} {item : Nat × Token}
    (h : (ofTokens tokens byteSize).items[p]? = some item) : item.2 ∈ tokens := by
  rw [ofTokens] at h
  dsimp only at h
  rw [List.getElem?_toArray] at h
  have hmem := List.mem_of_getElem? h
  rw [List.mem_filter, List.mem_map] at hmem
  obtain ⟨⟨⟨token, index⟩, hmem, rfl⟩, -⟩ := hmem
  exact (List.mem_zipIdx' hmem).2 ▸ List.getElem_mem _

theorem hasNameShape {t : Text} {p : Nat} {kind : TokenKind} (h : (ofText t).kind? p = some kind) :
    Lexer.HasNameShape kind ((ofText t).text p) := by
  rw [kind?, Option.map_eq_some_iff] at h
  obtain ⟨item, hitem, rfl⟩ := h
  rw [text, hitem]
  refine Lexer.pieces_shape (p := (item.2.kind, item.2.text)) (t := t) ?_
  exact List.mem_map.mpr ⟨item.2, items_mem hitem, rfl⟩

theorem isAt_iff {c : Code} {kind : TokenKind} {p : Nat} : c.isAt kind p ↔ c.kind? p = some kind := by
  simp [isAt]

end Code

theorem Lexer.IsName.isSpace {name : Text} (h : Lexer.IsName name) : IsSpace name where
  ne_nil := h.ne_nil
  head := by
    intro hc
    have := h.1
    rw [hc] at this
    simp [Lexer.isNameStart] at this
  last := by
    intro hc
    obtain ⟨u, rfl⟩ := List.getLast?_eq_some_iff.mp hc
    exact absurd (Lexer.IsName.of_append h).2.1 (by simp)

namespace Code

theorem exists_kind_of_isAtAny {c : Code} {kinds : List TokenKind} {p : Nat} (h : c.isAtAny kinds p) :
    ∃ kind ∈ kinds, c.kind? p = some kind := by
  rw [isAtAny, Option.any_eq_true] at h
  obtain ⟨kind, hkind, hmem⟩ := h
  exact ⟨kind, List.contains_iff_mem.mp hmem, hkind⟩

theorem isName_text {t : Text} {p : Nat} (h : (ofText t).isAtAny [.ident, .nameQualified] p) :
    Lexer.IsName ((ofText t).text p) := by
  obtain ⟨kind, hmem, hkind⟩ := exists_kind_of_isAtAny h
  refine (hasNameShape hkind).isName ?_ ?_ <;>
  · simp only [List.mem_cons, List.not_mem_nil, or_false] at hmem
    rcases hmem with rfl | rfl <;> decide

end Code

theorem Lexer.IsName.dropBackslashes {name : Text} (h : Lexer.IsName name) :
    dropBackslashes name = name := dropBackslashes_eq_self h.isSpace.head

theorem Lexer.HasNameShape.dropBackslashes {kind : TokenKind} {t : Text} (h : HasNameShape kind t)
    (hkind : kind.isName) : IsName (dropBackslashes t) := by
  by_cases hfull : kind = .nameFullyQualified
  · subst hfull
    obtain ⟨u, rfl, hu⟩ := h
    change IsName (NamespaceMigration.dropBackslashes u)
    rwa [hu.dropBackslashes]
  · have hname := h.isName hkind hfull
    rwa [hname.dropBackslashes]

/-- The names of an imported item as they are read. -/
structure ImportItem.IsPlain (item : ImportItem) : Prop where
  name : Lexer.IsName item.name
  short : '\\' ∉ item.shortName

/-- The names of a statement as the parser reads them. -/
def StatementKind.HasPlainNames : StatementKind → Prop
  | .space (some name) _ _ => Lexer.IsName name
  | .imports items => ∀ item ∈ items, item.IsPlain
  | _ => True

namespace Parser

variable {t : Text}

theorem importAlias_not_mem {p : Nat} {short : Text}
    (h : (importAlias (.ofText t) p).1 = some short) : '\\' ∉ short := by
  rw [importAlias] at h
  split at h
  · rename_i hp
    cases h
    exact (Code.hasNameShape (Code.isAt_iff.mp hp.2)).2
  · cases h

theorem shortName_not_mem {item : ImportItem} (h : ∀ short, item.alias? = some short → '\\' ∉ short) :
    '\\' ∉ item.shortName := by
  rw [ImportItem.shortName]
  cases ha : item.alias? with
  | some short => exact h short ha
  | none => exact lastSegment_not_mem item.name

section Items

variable {P : ImportItem → Prop} (hitem : ∀ kind name q token lead?, Lexer.IsName name →
  P ⟨kind, name, (importAlias (.ofText t) q).1, token, lead?⟩)
include hitem

theorem groupItems_forall {kind : SymbolKind} {lead : Text} (hlead : Lexer.IsName lead) {fuel p : Nat}
    {found : List ImportItem × Nat} (h : groupItems (.ofText t) kind lead fuel p = .ok found) :
    ∀ item ∈ found.1, P item := by
  induction fuel generalizing p found with
  | zero => cases h
  | succ fuel ih =>
    simp only [groupItems] at h
    split_ifs at h with hclose hname hcomma
    · cases h
      simp
    · have hname := Code.isName_text (by simpa using hname)
      obtain ⟨⟨items, stop⟩, hrest, hfound⟩ := bind_eq_ok h
      cases hfound
      rw [List.forall_mem_cons]
      exact ⟨hitem _ _ _ _ _ (hlead.join hname), ih hrest⟩
    · have hname := Code.isName_text (by simpa using hname)
      cases h
      rw [List.forall_mem_singleton]
      exact hitem _ _ _ _ _ (hlead.join hname)

/-- An import has a name, and the alias that is read after it. -/
theorem importItems_forall {kind : SymbolKind} {fuel p : Nat} {found : List ImportItem × Nat}
    (h : importItems (.ofText t) kind fuel p = .ok found) : ∀ item ∈ found.1, P item := by
  induction fuel generalizing p found with
  | zero => cases h
  | succ fuel ih =>
    have hmore {items : List ImportItem} {next : Nat} (hitems : ∀ item ∈ items, P item)
        (h : (if (Code.ofText t).isAt .comma next then do
            let rest ← importItems (.ofText t) kind fuel (next + 1)
            .ok (items ++ rest.1, rest.2)
          else .ok (items, next)) = .ok found) : ∀ item ∈ found.1, P item := by
      split at h
      · obtain ⟨⟨more, stop⟩, hrest, hfound⟩ := bind_eq_ok h
        cases hfound
        exact List.forall_mem_append.mpr ⟨hitems, ih hrest⟩
      · cases h
        exact hitems
    rw [importItems] at h
    split at h
    · cases h
    · rename_i hat
      have hname : Lexer.IsName (dropBackslashes ((Code.ofText t).text p)) := by
        obtain ⟨kind, hmem, hkind⟩ := Code.exists_kind_of_isAtAny (by simpa using hat)
        refine (Code.hasNameShape hkind).dropBackslashes ?_
        simp only [List.mem_cons, List.not_mem_nil, or_false] at hmem
        rcases hmem with rfl | rfl | rfl <;> rfl
      dsimp only at h
      split at h
      · obtain ⟨⟨items, next⟩, hitems, h⟩ := bind_eq_ok h
        exact hmore (groupItems_forall hitem hname hitems) h
      · refine hmore ?_ h
        rw [List.forall_mem_singleton]
        exact hitem _ _ _ _ _ hname

end Items

theorem importItems_plain {kind : SymbolKind} {fuel p : Nat} {found : List ImportItem × Nat}
    (h : importItems (.ofText t) kind fuel p = .ok found) : ∀ item ∈ found.1, item.IsPlain :=
  importItems_forall (fun _ _ _ _ _ hname => ⟨hname, shortName_not_mem fun _ => importAlias_not_mem⟩) h

theorem useStatement_plain (p : Nat) : (useStatement (.ofText t) p).value.HasPlainNames := by
  rw [useStatement]
  split
  · trivial
  · rename_i items next hitems
    dsimp only
    split
    · exact importItems_plain hitems
    · trivial

theorem isAt_of_classKeyword? {c : Code} {p : Nat} {kind : ClassKind}
    (h : classKeyword? c p = some kind) : c.isAt .ident (p + 1) := by
  rw [classKeyword?] at h
  split at h
  · cases h
  · rename_i hident
    simpa using hident

theorem declaration_plain (c : Code) (p : Nat) : (declaration c p).value.HasPlainNames := by
  rw [declaration]
  split
  · trivial
  · split <;> trivial

theorem shape_plain (inner : Inner) (p : Nat) : (shape (.ofText t) inner p).value.1.HasPlainNames := by
  rw [shape]
  split <;> try trivial
  · exact useStatement_plain p
  · split
    · simp only [declareStatement]
      split_ifs <;> trivial
    · exact declaration_plain _ p
  · split
    · trivial
    · exact declaration_plain _ p
  · exact declaration_plain _ p

theorem namespaceStatement_plain (inner : Inner) (p : Nat) :
    (namespaceStatement (.ofText t) inner p).value.1.HasPlainNames := by
  have hname : ∀ name, (if (Code.ofText t).isAtAny [.ident, .nameQualified] (p + 1) then
      some ((Code.ofText t).text (p + 1)) else none) = some name → Lexer.IsName name := by
    intro name h
    split at h
    · rename_i hat
      cases h
      exact Code.isName_text hat
    · cases h
  have hspace {name? : Option Text} {token? : Option Nat} {braced : Bool}
      (h : ∀ name, name? = some name → Lexer.IsName name) :
      (StatementKind.space name? token? braced).HasPlainNames := by
    cases name? with
    | none => trivial
    | some name => exact h name rfl
  unfold namespaceStatement
  dsimp only
  generalize (if (Code.ofText t).isAtAny [.ident, .nameQualified] (p + 1) then p + 2 else p + 1) = next
  split
  · exact hspace hname
  · exact hspace hname

end Parser

theorem SourceFile.outline_plain (t : Text) :
    ∀ l ∈ (SourceFile.parse t).outline, l.statement.kind.HasPlainNames :=
  SourceFile.outline_forall (P := fun s => s.kind.HasPlainNames) trivial
    (Parser.topStatements_everywhere (c := .ofText t) (fun _ => trivial) Parser.shape_plain
      fun inner p _ => Parser.namespaceStatement_plain inner p)

theorem NameContext.addImport_isPlain {c : NameContext} (hc : c.IsPlain) {item : ImportItem}
    (h : '\\' ∉ item.shortName) : (c.addImport item).IsPlain := by
  rw [addImport]
  cases hadd : c.addAlias? (.ofText item.name) item.shortName item.kind with
  | none => exact hc
  | some c' => exact addAlias?_isPlain hc h hadd

namespace SourceFile

theorem mem_scopeImports {f : SourceFile} {s : Scope} {item : ImportItem}
    (hitem : item ∈ f.scopeImports s) :
    ∃ l ∈ f.outline, ∃ items, l.statement.kind = .imports items ∧ item ∈ items := by
  rw [scopeImports, List.mem_flatMap] at hitem
  obtain ⟨l, hl, hitem⟩ := hitem
  rw [Statement.importItems?] at hitem
  split at hitem
  · rename_i hkind
    exact ⟨l, List.mem_of_mem_filter hl, _, hkind, hitem⟩
  · simp at hitem

/-- The name of a scope is that of a namespace statement of the file. -/
theorem exists_space {f : SourceFile} {s : Scope} (hs : s ∈ f.scopes) {space : Text}
    (h : s.space? = some space) :
    ∃ l ∈ f.outline, ∃ token? braced, l.statement.kind = .space (some space) token? braced := by
  rw [scopes] at hs
  split at hs
  · rw [List.mem_singleton] at hs
    subst hs
    cases h
  · obtain ⟨l, hl, hsome⟩ := List.mem_filterMap.mp hs
    split at hsome
    · rename_i name? token? braced hkind
      cases hsome
      change name? = some space at h
      subst h
      exact ⟨l, List.mem_of_mem_filter hl, _, _, hkind⟩
    · cases hsome

theorem scopeImports_plain {t : Text} {s : Scope} :
    ∀ item ∈ (SourceFile.parse t).scopeImports s, item.IsPlain := by
  intro item hitem
  obtain ⟨l, hl, items, hkind, hmem⟩ := mem_scopeImports hitem
  have hplain := outline_plain t l hl
  rw [hkind] at hplain
  exact hplain item hmem

theorem scopes_space {t : Text} {s : Scope} (hs : s ∈ (SourceFile.parse t).scopes) {space : Text}
    (h : s.space? = some space) : Lexer.IsName space := by
  obtain ⟨l, hl, _, _, hkind⟩ := exists_space hs h
  have hplain := outline_plain t l hl
  rw [hkind] at hplain
  exact hplain

theorem context_isPlain {t : Text} {s : Scope} (hs : s ∈ (SourceFile.parse t).scopes) :
    ((SourceFile.parse t).context s).IsPlain := by
  have hempty : (NameContext.empty s.space?).IsPlain := by
    refine ⟨fun space h => ?_, ?_, ?_⟩
    · exact (scopes_space hs (Option.filter_eq_some_iff.mp h).1).isSpace
    · intro kind e he
      simp [NameContext.empty] at he
    · intro kind
      simp [NameContext.empty]
  have himports : (((SourceFile.parse t).scopeImports s).foldl NameContext.addImport
      (.empty s.space?)).IsPlain := by
    refine List.foldlRecOn _ _ hempty fun c hc item hitem => ?_
    exact NameContext.addImport_isPlain hc (scopeImports_plain item hitem).short
  refine List.foldlRecOn _ _ himports fun c hc entry _ => ?_
  exact ⟨hc.space, hc.segment, hc.unique⟩

theorem context_references (f : SourceFile) (s : Scope) : (f.context s).references = .const [] := by
  have himports : ((f.scopeImports s).foldl NameContext.addImport (.empty s.space?)).references =
      .const [] := by
    refine List.foldlRecOn (motive := fun c : NameContext => c.references = .const []) _ _ rfl ?_
    intro c hc item _
    rw [NameContext.addImport]
    cases hadd : c.addAlias? (.ofText item.name) item.shortName item.kind with
    | none => exact hc
    | some c' =>
      obtain ⟨-, rfl⟩ := NameContext.addAlias?_eq_some_iff.mp hadd
      exact hc
  exact List.foldlRecOn (motive := fun c : NameContext => c.references = .const []) _ _ himports
    fun _ hc _ _ => hc

end SourceFile
end NamespaceMigration
