import NamespaceMigration.Proofs.Relocation.Retargeting
import NamespaceMigration.Proofs.Rewriting.ImportOrder

/-! The imports of a file, scope by scope, and what becomes of them when one of the imported names gets another
one. -/
namespace NamespaceMigration

open Lexer (pieces)
open SourceFile (parse)

/-- The name of a namespace and what is imported in it. -/
abbrev ImportRow := Option Text × List ImportItem

/-- What a file imports in each of its scopes. -/
def SourceFile.importTable (f : SourceFile) : List ImportRow := f.scopes.map fun s => (s.space?, f.scopeImports s)

def ImportRow.move (shift : Nat) (row : ImportRow) : ImportRow := (row.1, row.2.map (ImportItem.move shift))

namespace Statement

def imported (s : Statement) : List ImportItem := s.importItems?.getD []

/-- What is imported directly in a namespace. -/
def importRow? (s : Statement) : Option ImportRow :=
  match s.kind with
  | .space name? _ _ => some (name?, s.children.flatMap imported)
  | _ => none

theorem imported_of_kind {s : Statement} {items : List ImportItem} (h : s.kind = .imports items) :
    s.imported = items := by
  rw [imported, SourceFile.importItems?_eq_some.mpr h]
  rfl

theorem imported_move (shift : Nat) (s : Statement) : (s.move shift).imported = s.imported.map (ImportItem.move shift) := by
  unfold imported importItems?
  rw [kind_move]
  cases s.kind <;> rfl

theorem importRow?_of_kind {s : Statement} {name? : Option Text} {token? : Option Nat} {braced : Bool}
    (h : s.kind = .space name? token? braced) : s.importRow? = some (name?, s.children.flatMap imported) := by
  unfold importRow?
  rw [h]

theorem importRow?_move (shift : Nat) (s : Statement) : (s.move shift).importRow? = s.importRow?.map (ImportRow.move shift) := by
  have himported : (s.children.map (move shift)).flatMap imported =
      (s.children.flatMap imported).map (ImportItem.move shift) := by
    rw [List.flatMap_map, List.map_flatMap]
    exact List.flatMap_congr fun child _ => imported_move shift child
  unfold importRow?
  rw [kind_move, children_move, himported]
  cases s.kind <;> rfl

end Statement

open Statement (imported importRow? imported_move importRow?_move)

/-- The imports of the statements outside others: of the namespaces, or of all if there are none. -/
def importTableOf (ss : List Statement) : List ImportRow :=
  if (ss.filterMap importRow?).isEmpty then [(none, ss.flatMap imported)] else ss.filterMap importRow?

namespace SourceFile

theorem namedScopes_rows (f : SourceFile) :
    f.namedScopes.map (fun s => (s.space?, f.scopeImports s)) = f.root.children.filterMap importRow? := by
  rw [namedScopes, List.map_filterMap, ← outline_top, List.filterMap_map]
  refine List.filterMap_congr fun l hl => ?_
  have hmem := List.mem_of_mem_filter hl
  simp only [Located.scope?, importRow?, Function.comp_apply]
  cases l.statement.kind with
  | space name? token? braced => exact congrArg (fun items => some (name?, items)) (scopeImports_eq hmem)
  | _ => rfl

theorem importTable_eq (f : SourceFile) : f.importTable = importTableOf f.root.children := by
  have hrows := f.namedScopes_rows
  have hempty : (f.root.children.filterMap importRow?).isEmpty = f.namedScopes.isEmpty := by
    rw [← hrows, List.isEmpty_map]
  rw [importTable, importTableOf, scopes_eq, hempty]
  split
  · exact congrArg (fun items => [(none, items)]) (scopeImports_eq f.root_mem_outline)
  · exact hrows

theorem scopeImports_inside {t : Text} {s : Scope} (hs : s ∈ (parse t).scopes) :
    ∀ item ∈ (parse t).scopeImports s, s.first ≤ item.nameToken ∧ item.nameToken < s.stop := by
  intro item hitem
  obtain ⟨child, hchild, -, hfirst, hstop, -⟩ := imported_inside hs hitem
  obtain ⟨hfirst', hstop'⟩ := inside_parent (home_mem_outline hs) child hchild
  obtain ⟨hhome, hhome'⟩ := home_span hs ⟨rfl, rfl⟩
  omega

theorem importTable_inOrder (t : Text) : Parser.ItemsInOrder ((parse t).importTable.flatMap (·.2)) := by
  rw [importTable, List.flatMap_map, Parser.ItemsInOrder, List.pairwise_flatMap]
  refine ⟨fun s hs => scopeImports_inOrder hs, (scopes_pairwise t).imp_of_mem fun {s s'} hs hs' hle x hx y hy => ?_⟩
  have hstop := (scopeImports_inside hs x hx).2
  have hfirst := (scopeImports_inside hs' y hy).1
  omega

end SourceFile

/-- What becomes of an import when the name at a token gets another one. -/
inductive ImportItem.Follows (token : Nat) (new : Text) (short? : Option Text) (item : ImportItem) : ImportItem → Prop
  | before : item.nameToken < token → Follows token new short? item item
  | here : item.nameToken = token → Follows token new short? item (item.retarget new short?)
  | after {index : Nat} : token < item.nameToken → token < index →
      Follows token new short? item { item with nameToken := index }

/-- Tables for the same namespaces whose imports correspond one by one. -/
def SameTable (R : ImportItem → ImportItem → Prop) : List ImportRow → List ImportRow → Prop :=
  List.Forall₂ fun x y => y.1 = x.1 ∧ List.Forall₂ R x.2 y.2

section Follows

variable {a b token : Nat} {new : Text} {short? : Option Text} (ha : token < a) (hb : token < b)
include ha hb

theorem ImportItem.follows_move (item : ImportItem) :
    ImportItem.Follows token new short? (item.move a) (item.move b) :=
  .after (Nat.lt_of_lt_of_le ha (Nat.le_add_right a _)) (Nat.lt_of_lt_of_le hb (Nat.le_add_right b _))

theorem follows_of_altered {items items' : List ImportItem}
    (h : Altered ImportItem.move a b (ImportItem.IsRetargeted token new short?) items items')
    (horder : Parser.ItemsInOrder items) : List.Forall₂ (ImportItem.Follows token new short?) items items' := by
  obtain ⟨before, x, y, vs, rfl, rfl, hxy⟩ := h
  obtain ⟨-, -, hbefore⟩ := List.pairwise_append.mp horder
  refine List.rel_append (List.forall₂_same.mpr fun item hitem => ?_) (.cons ?_ ?_)
  · exact .before (hxy.token ▸ hbefore item hitem x List.mem_cons_self)
  · exact hxy.eq ▸ .here hxy.token
  · rw [List.forall₂_map_left_iff, List.forall₂_map_right_iff, List.forall₂_same]
    exact fun item _ => ImportItem.follows_move ha hb item

/-- Rows for the same namespace of which one has an import with another name. -/
def IsRetargetedRow (a b token : Nat) (new : Text) (short? : Option Text) (row row' : ImportRow) : Prop :=
  row'.1 = row.1 ∧ Altered ImportItem.move a b (ImportItem.IsRetargeted token new short?) row.2 row'.2

theorem sameTable_of_altered {rows rows' : List ImportRow}
    (h : Altered ImportRow.move a b (IsRetargetedRow a b token new short?) rows rows')
    (horder : Parser.ItemsInOrder (rows.flatMap (·.2))) :
    SameTable (ImportItem.Follows token new short?) rows rows' := by
  obtain ⟨before, x, y, vs, rfl, rfl, hspace, halt⟩ := h
  obtain ⟨changed, hchanged, htoken⟩ : ∃ item ∈ x.2, item.nameToken = token := by
    obtain ⟨front, item, _, _, hitems, -, hitem⟩ := halt
    exact ⟨item, hitems ▸ List.mem_append_right _ List.mem_cons_self, hitem.token⟩
  rw [List.flatMap_append, List.flatMap_cons] at horder
  obtain ⟨-, hrest, hbefore⟩ := List.pairwise_append.mp horder
  have hfront (row : ImportRow) (hrow : row ∈ before) :
      List.Forall₂ (ImportItem.Follows token new short?) row.2 row.2 := by
    refine List.forall₂_same.mpr fun item hitem => .before ?_
    rw [← htoken]
    exact hbefore item (List.mem_flatMap.mpr ⟨row, hrow, hitem⟩) changed (List.mem_append_left _ hchanged)
  apply List.rel_append
  · exact List.forall₂_same.mpr fun row hrow => ⟨rfl, hfront row hrow⟩
  · apply List.Forall₂.cons
    · exact ⟨hspace, follows_of_altered ha hb halt (List.pairwise_append.mp hrest).1⟩
    · rw [List.forall₂_map_left_iff, List.forall₂_map_right_iff, List.forall₂_same]
      refine fun row _ => ⟨rfl, ?_⟩
      rw [ImportRow.move, ImportRow.move, List.forall₂_map_left_iff, List.forall₂_map_right_iff, List.forall₂_same]
      exact fun item _ => ImportItem.follows_move ha hb item

end Follows

section Tables

open NamespaceMigration.Parser (RetargetsUse RetargetsSpace)

variable {a b : Code.Place} {token : Nat} {new : Text} {short? : Option Text} {xs ys : List Statement}

theorem imported_altered (h : Altered Statement.move a.token b.token (RetargetsUse a b token new short?) xs ys) :
    Altered ImportItem.move a.token b.token (ImportItem.IsRetargeted token new short?) (xs.flatMap imported)
      (ys.flatMap imported) := by
  refine h.flatMap imported_move fun x y hxy => ?_
  obtain ⟨items, items', hkind, hkind', halt⟩ := hxy
  rw [Statement.imported_of_kind hkind, Statement.imported_of_kind hkind']
  exact halt

/-- A table whose only row has the change. -/
theorem importTableOf_altered (h : Altered Statement.move a.token b.token (RetargetsUse a b token new short?) xs ys)
    (hnone : xs.filterMap importRow? = []) :
    Altered ImportRow.move a.token b.token (IsRetargetedRow a.token b.token token new short?) (importTableOf xs)
      (importTableOf ys) := by
  have hnone' : ys.filterMap importRow? = [] := by
    obtain ⟨before, x, y, vs, rfl, rfl, items, items', -, hkind', -⟩ := h
    have hmoved (shift : Nat) (s : Statement) : (s.move shift).importRow? = none ↔ s.importRow? = none := by
      rw [importRow?_move, Option.map_eq_none_iff]
    simp only [List.filterMap_eq_nil_iff, List.forall_mem_append, List.forall_mem_cons, List.forall_mem_map,
      hmoved] at hnone ⊢
    refine ⟨hnone.1, ?_, hnone.2.2⟩
    unfold importRow?
    rw [hkind']
  unfold importTableOf
  rw [hnone, hnone']
  exact .here ⟨rfl, imported_altered h⟩ []

/-- A table with the change in the row of a namespace. -/
theorem importTableOf_altered_space
    (h : Altered Statement.move a.token b.token (RetargetsSpace a b token new short?) xs ys) :
    Altered ImportRow.move a.token b.token (IsRetargetedRow a.token b.token token new short?) (importTableOf xs)
      (importTableOf ys) := by
  have hrows : Altered ImportRow.move a.token b.token (IsRetargetedRow a.token b.token token new short?)
      (xs.filterMap importRow?) (ys.filterMap importRow?) := by
    rw [List.filterMap_eq_flatMap_toList, List.filterMap_eq_flatMap_toList]
    refine h.flatMap (fun shift s => ?_) fun x y hxy => ?_
    · rw [importRow?_move]
      cases s.importRow? <;> rfl
    · obtain ⟨name?, token?, braced, hkind, hkind', halt⟩ := hxy
      rw [Statement.importRow?_of_kind hkind, Statement.importRow?_of_kind hkind']
      exact .here ⟨rfl, imported_altered halt⟩ []
  have hsome {rows : List ImportRow} {before after : List ImportRow} {row : ImportRow} (hrows : rows = before ++ row :: after) :
      ¬rows.isEmpty := by
    simp [hrows]
  obtain ⟨before, x, y, vs, hx, hy, -⟩ := id hrows
  unfold importTableOf
  rw [if_neg (hsome hx), if_neg (hsome hy)]
  exact hrows

end Tables

theorem TokenKind.plain_of_importNames {kind : TokenKind} (h : kind ∈ importNames) : kind.isTrivia = false ∧
    kind ≠ .error ∧ kind.isOpeningBracket = false ∧ kind.isClosingBracket = false := by
  have hall : ∀ kind ∈ importNames, kind.isTrivia = false ∧ kind ≠ .error ∧ kind.isOpeningBracket = false ∧
      kind.isClosingBracket = false := by decide
  exact hall kind h

theorem Code.leadingDoc?_after {t : Text} {before after : List Piece} {p : Piece} (ht : pieces t = before ++ p :: after)
    (hp : p.1.isTrivia = false) : (ofText t).leadingDoc? (before ++ [p]).length = none := by
  rw [List.length_append, List.length_singleton, leadingDoc?_succ, ht, List.getElem?_append_right (Nat.le_refl _),
    Nat.sub_self, List.getElem?_cons_zero, Option.map_some]
  obtain ⟨kind, w⟩ := p
  dsimp only at hp ⊢
  split
  all_goals first | rfl | (rename_i heq; cases heq; cases hp)

section Pieces

variable {t t' : Text} {before after : List Piece} {p q : Piece} {short? : Option Text}
  (ht : pieces t = before ++ p :: after)
  (ht' : pieces t' = before ++ (q :: ImportItem.aliasPieces short?) ++ after)
  (hp : p.1 ∈ TokenKind.importNames) (hq : q.1 ∈ TokenKind.importNames)
include ht ht' hp hq

/-- A name with an alias in the place of a name leaves the brackets as they are. -/
theorem faults_retargeted (hfaults : (Code.ofText t).matching.faults = []) :
    (Code.ofText t').matching.faults = [] := by
  have hnest {kinds : List TokenKind} (hkinds : ∀ kind ∈ kinds, kind ≠ .error ∧ kind.isOpeningBracket = false ∧
      kind.isClosingBracket = false) : BracketMatching.nest []
        ((Piece.code before).map (·.1) ++ kinds ++ (Piece.code after).map (·.1)) =
      BracketMatching.nest [] ((Piece.code before).map (·.1) ++ (Piece.code after).map (·.1)) := by
    rw [BracketMatching.nest_append, BracketMatching.nest_append, BracketMatching.nest_append]
    cases BracketMatching.nest [] ((Piece.code before).map (·.1)) with
    | none => rfl
    | some opened => rw [Option.bind_some, Option.bind_some, BracketMatching.nest_of_plain hkinds, Option.bind_some]
  have hcode : Piece.code [p] = [p] := by
    rw [Piece.code_cons, (TokenKind.plain_of_importNames hp).1]
    rfl
  have hcode' : Piece.code (q :: ImportItem.aliasPieces short?) = q :: Piece.code (ImportItem.aliasPieces short?) := by
    rw [Piece.code_cons, (TokenKind.plain_of_importNames hq).1]
    rfl
  rw [← List.singleton_append, ← List.append_assoc] at ht
  rw [Code.matching_stretch ht, hcode] at hfaults
  rw [Code.matching_stretch ht', hcode']
  have hbalanced : BracketMatching.nest [] _ = some [] := BracketMatching.nest_of_faults hfaults
  rw [List.map_singleton, hnest (List.forall_mem_singleton.mpr (TokenKind.plain_of_importNames hp).2)] at hbalanced
  apply BracketMatching.faults_of_nest
  refine (hnest ?_).trans hbalanced
  rw [List.map_cons, List.forall_mem_cons]
  refine ⟨(TokenKind.plain_of_importNames hq).2, ?_⟩
  cases short? with
  | none => exact List.forall_mem_nil _
  | some short =>
    have hall : ∀ kind ∈ [TokenKind.kwAs, .ident], kind ≠ .error ∧ kind.isOpeningBracket = false ∧
        kind.isClosingBracket = false := by decide
    exact hall

/-- The texts are the same before the name and after it. -/
theorem Retargeted.of_pieces (hfaults : (Code.ofText t).matching.faults = []) :
    Retargeted (.after t (before ++ [p])) (.after t' (before ++ (q :: ImportItem.aliasPieces short?)))
      (Piece.code before).length (Piece.code after).length (dropBackslashes q.2) short? := by
  have hcode : Piece.code [p] = [p] := by
    rw [Piece.code_cons, (TokenKind.plain_of_importNames hp).1]
    rfl
  have hcode' : Piece.code (q :: ImportItem.aliasPieces short?) = q :: Piece.code (ImportItem.aliasPieces short?) := by
    rw [Piece.code_cons, (TokenKind.plain_of_importNames hq).1]
    rfl
  have htail : pieces t = (before ++ [p]) ++ after ++ [] := by rw [ht]; simp
  have htail' : pieces t' = (before ++ (q :: ImportItem.aliasPieces short?)) ++ after ++ [] := by rw [ht']; simp
  have hsplit : pieces t' = before ++ q :: (ImportItem.aliasPieces short? ++ after) := by rw [ht']; simp
  obtain ⟨hkind, -, hindex⟩ := Code.token_at ht (TokenKind.plain_of_importNames hp).1
  obtain ⟨hkind', htext', hindex'⟩ := Code.token_at hsplit (TokenKind.plain_of_importNames hq).1
  have hnames {c : Code} {k : Nat} {kind : TokenKind} (hkind : c.kind? k = some kind) (hmem : kind ∈ TokenKind.importNames) :
      c.isAtAny TokenKind.importNames k := by
    rw [Code.isAtAny, hkind]
    exact List.contains_iff_mem.mpr hmem
  have hdoc : (Code.ofText t').leadingDoc? (before ++ (q :: ImportItem.aliasPieces short?)).length = none := by
    cases short? with
    | none => exact Code.leadingDoc?_after hsplit (TokenKind.plain_of_importNames hq).1
    | some short =>
      have hlast : pieces t' = (before ++ [q, (.whitespace, [' ']), (.kwAs, "as"), (.whitespace, [' '])]) ++
          (.ident, short) :: after := by
        rw [ht']
        simp [ImportItem.aliasPieces]
      have hnone := Code.leadingDoc?_after hlast rfl
      rwa [List.append_assoc] at hnone
  have hback := Alongside.of_pieces htail htail' hfaults
    (.inr ⟨Code.leadingDoc?_after ht (TokenKind.plain_of_importNames hp).1, hdoc⟩) (.inl rfl)
  have hfront : Parallel (.after t []) (.after t' []) (Piece.code before).length :=
    .of_pieces (show pieces t = [] ++ before ++ p :: after from ht)
      (show pieces t' = [] ++ before ++ _ from ht'.trans (List.append_assoc ..)) hfaults (.inr ⟨rfl, rfl⟩)
  have hfirst : (Code.Place.after t (before ++ [p])).first = (Piece.code before).length + 1 := by
    rw [Code.Place.after, Piece.code_append, hcode, List.length_append]
    rfl
  have hfirst' : (Code.Place.after t' (before ++ (q :: ImportItem.aliasPieces short?))).first =
      (Piece.code before).length + ((Piece.code (ImportItem.aliasPieces short?)).length + 1) := by
    rw [Code.Place.after, Piece.code_append, hcode', List.length_append]
    rfl
  refine ⟨⟨hfront, hback, ⟨?_, ?_⟩, ?_, ?_⟩, ⟨hnames hkind hp, hnames hkind' hq⟩, ?_, ?_, hfirst, ?_⟩
  · omega
  · exact (Code.size_stretch htail).trans rfl
  · omega
  · exact (Code.size_stretch htail').trans rfl
  · exact congrArg dropBackslashes htext'
  · exact hindex'.trans hindex.symm
  · cases short? with
    | none => exact .inl ⟨rfl, hfirst'⟩
    | some short =>
      have hstretch : pieces t' = before ++ (q :: ImportItem.aliasPieces (some short)) ++ after := ht'
      obtain ⟨has, -⟩ := Code.piece_at (i := 1) (p := (.kwAs, "as")) hstretch (by rw [hcode']; rfl)
      obtain ⟨hident, hshort⟩ := Code.piece_at (i := 2) (p := (.ident, short)) hstretch (by rw [hcode']; rfl)
      exact .inr ⟨short, rfl, hfirst', Code.isAt_iff.mpr has, Code.isAt_iff.mpr hident, hshort⟩

end Pieces

namespace Parser

variable {c : Code} {k : Nat} {short? : Option Text} {items : List ImportItem} {item : ImportItem}

theorem usesName_of_statement (ho : c.Ordered) {u depth : Nat} (hu : u < c.size)
    (hkind : (statement c (depth + 1) u).value.kind = .imports items) (hitem : item ∈ items) (hk : k < c.size)
    (htoken : item.nameToken = c.tokenIndex k) (halone : item.groupLead? = none)
    (hshort : short?.isSome → item.alias? = none) : UsesName c u k short? items item := by
  change (shape c (statement c depth) u).value.1 = _ at hkind
  obtain ⟨hkeyword, hshape⟩ := shape_imports hkind
  have hvalue : (useStatement c u).value = .imports items := by
    rw [hshape] at hkind
    exact hkind
  obtain ⟨hreach, hfound⟩ := useStatement_found ho hu
  obtain ⟨q, huq, hqn, hindex⟩ := hfound items hvalue item hitem
  obtain rfl : q = k := ho.eq_of_tokenIndex (Nat.lt_of_lt_of_le hqn hreach.2) hk (hindex.symm.trans htoken)
  exact ⟨huq, hkeyword, hvalue, hitem, htoken, halone, hshort⟩

end Parser

section Pieces

open NamespaceMigration.Parser (topItem topStatements)

variable {t t' : Text} {before after : List Piece} {p q : Piece} {short? : Option Text}
  (ht : pieces t = before ++ p :: after)
  (ht' : pieces t' = before ++ (q :: ImportItem.aliasPieces short?) ++ after)
  (hp : p.1 ∈ TokenKind.importNames) (hq : q.1 ∈ TokenKind.importNames)
include ht ht' hp hq

/-- Where another name is written for one that is imported, perhaps with an alias, the file imports the same but for
that name. -/
theorem SourceFile.importTable_retargeted (herrors : (parse t).errors = []) {s : Scope} (hs : s ∈ (parse t).scopes)
    {item : ImportItem} (hitem : item ∈ (parse t).scopeImports s) (htoken : item.nameToken = before.length)
    (halone : item.groupLead? = none) (hshort : short?.isSome → item.alias? = none) :
    (parse t').errors = [] ∧ SameTable (ImportItem.Follows before.length (dropBackslashes q.2) short?)
      (parse t).importTable (parse t').importTable := by
  have ho : (Code.ofText t).Ordered := Code.ordered_ofTokens _ _
  have hfaults := faults_of_errors herrors
  have htop := topErrors herrors
  have h := Retargeted.of_pieces ht ht' hp hq hfaults
  obtain ⟨hkind, -, hindex⟩ := Code.token_at ht (TokenKind.plain_of_importNames hp).1
  have hk := Code.lt_size_of_kind? hkind
  have htoken' : item.nameToken = (Code.ofText t).tokenIndex (Piece.code before).length := htoken.trans hindex.symm
  obtain ⟨child, hchild, ⟨items, hitems, hmem⟩, -⟩ := imported_inside hs hitem
  have hplain {u : Nat} (hu : (topItem (.ofText t) u).value.kind = .imports items) :
      Parser.isNamespaceHeader (.ofText t) u = false := by
    by_contra hheader
    rw [topItem, if_pos (by simpa using hheader)] at hu
    obtain ⟨_, _, _, hspace, -⟩ := Parser.namespaceStatement_kind (c := .ofText t)
      (Parser.statement (.ofText t) ((Code.ofText t).size + 1)) u
    cases hspace.symm.trans hu
  have haltered : (topStatements (.ofText t')).errors = [] ∧
      Altered ImportRow.move (Code.Place.after t (before ++ [p])).token
        (Code.Place.after t' (before ++ (q :: ImportItem.aliasPieces short?))).token
        (IsRetargetedRow (Code.Place.after t (before ++ [p])).token
          (Code.Place.after t' (before ++ (q :: ImportItem.aliasPieces short?))).token before.length
          (dropBackslashes q.2) short?)
        (importTableOf (parse t).root.children) (importTableOf (parse t').root.children) := by
    rw [← hindex]
    rw [scopes_eq] at hs
    split at hs
    · -- The file has no namespaces.
      rename_i hempty
      obtain rfl := List.mem_singleton.mp hs
      obtain ⟨u, hu, rfl, -⟩ := Parser.topStatements_faultless ho htop hchild
      have hheader := hplain hitems
      rw [Parser.topItem_of_plain hheader] at hitems
      have huses := Parser.usesName_of_statement ho hu hitems hmem hk htoken' halone hshort
      obtain ⟨hnone, halt⟩ := Parser.topStatements_retargeted h huses htop ⟨_, hchild, Parser.topItem_first u⟩
      refine ⟨hnone, importTableOf_altered halt ?_⟩
      rw [List.isEmpty_iff] at hempty
      rw [← namedScopes_rows, hempty, List.map_nil]
    · obtain ⟨l, hl, hscope⟩ := List.mem_filterMap.mp hs
      obtain ⟨-, -, name?, token?, braced, hspace⟩ := Located.scope?_eq_some hscope
      have hhome : s.home = l := by
        rw [Located.scope?, hspace] at hscope
        cases hscope
        rfl
      rw [hhome] at hchild
      have hroot : l.statement ∈ (topStatements (.ofText t)).value := by
        change l.statement ∈ (parse t).root.children
        rw [← outline_top]
        exact List.mem_map_of_mem hl
      obtain ⟨e, he, hstatement, hnone⟩ := Parser.topStatements_faultless ho htop hroot
      rw [hstatement] at hroot hspace hchild
      have hheader : Parser.isNamespaceHeader (.ofText t) e := by
        by_contra hno
        rw [Parser.topItem_of_plain (by simpa using hno)] at hspace
        exact Parser.shape_not_space hspace
      -- The `use` statement comes after the header.
      obtain ⟨u, hlater, hu, hvalue⟩ : ∃ u, Parser.headerName (.ofText t) e + 1 + 1 ≤ u ∧ u < (Code.ofText t).size ∧
          child = (Parser.statement (.ofText t) ((Code.ofText t).size + 1) u).value := by
        rw [topItem, if_pos hheader] at hnone hchild
        have hend := (Parser.namespaceStatement_faultless ho hnone).1
        change child ∈ (Parser.namespaceStatement _ _ e).value.2 at hchild
        rw [Parser.namespaceStatement_eq hend] at hchild
        exact Parser.mem_spaceBody (fun p hp => Parser.statement_reaches ho hp) hchild
      subst hvalue
      have huses := Parser.usesName_of_statement ho hu hitems hmem hk htoken' halone hshort
      obtain ⟨hnone', halt⟩ := Parser.topStatements_retargeted_inside h huses htop hheader hlater hroot
        ⟨_, hchild, Parser.statement_first _ u⟩
      exact ⟨hnone', importTableOf_altered_space halt⟩
  obtain ⟨hnone, halt⟩ := haltered
  refine ⟨SourceFile.errors_eq_nil_iff.mpr ⟨?_, hnone⟩, ?_⟩
  · exact faults_retargeted ht ht' hp hq hfaults
  · rw [importTable_eq, importTable_eq]
    refine sameTable_of_altered ?_ ?_ halt (importTable_eq (parse t) ▸ importTable_inOrder t)
    · simp [Code.Place.after]
    · simp [Code.Place.after]

end Pieces

end NamespaceMigration
