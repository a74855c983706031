import NamespaceMigration.Adaptation.Extraction
import NamespaceMigration.Proofs.Moving.OwnFileSteps
import NamespaceMigration.Proofs.Planning.Components
import NamespaceMigration.Proofs.Planning.Writable
import NamespaceMigration.Proofs.Statements.Directives

/-! What is taken out of a file for a declaration: the statement on its own, under its new short name. The text
that is put together for it is read as what it was put together from, and each step of moving code keeps that. -/
namespace NamespaceMigration

open SourceFile (parse)
open Identifier (isSegment)

namespace Directive

theorem key_set {Q : Text → Prop} {found : List Directive} (hfound : ∀ e ∈ found, Q e.key) {d : Directive}
    (hd : Q d.key) : ∀ e ∈ set found d, Q e.key := by
  induction found with
  | nil => exact List.forall_mem_singleton.mpr hd
  | cons e found ih =>
    rw [List.forall_mem_cons] at hfound
    rw [set]
    split
    · exact List.forall_mem_cons.mpr hfound
    · exact List.forall_mem_cons.mpr ⟨hfound.1, ih hfound.2⟩

theorem key_foldl_set {Q : Text → Prop} {ds : List Directive} (h : ∀ d ∈ ds, Q d.key) {found : List Directive}
    (hfound : ∀ e ∈ found, Q e.key) : ∀ e ∈ ds.foldl set found, Q e.key := by
  induction ds generalizing found with
  | nil => exact hfound
  | cons d ds ih =>
    rw [List.forall_mem_cons] at h
    exact ih h.2 (key_set hfound h.1)

end Directive

theorem Part.print_ownHead (ds : List Directive) (space? : Option Text) (uses : List Part) :
    Piece.print (ownHead ds space? uses) =
      "<?php\n" ++ Fragment.renderDirectives ds ++ Fragment.renderSpace space? ++ uses.flatMap line ++ ['\n'] := by
  have hspace : ((space?.map ofSpace).toList.flatMap line : Text) = Fragment.renderSpace space? := by
    cases space? with
    | none => rfl
    | some name =>
      rw [Option.map_some, Option.toList_some, List.flatMap_singleton, line, print_ofSpace]
  have hrow := print_rowHead [] (head ds space? ++ uses)
  rw [head, List.flatMap_append, List.flatMap_append, flatMap_line_ofDirectives?, hspace, List.nil_append,
    ← head] at hrow
  rw [ownHead, fileHead, Piece.print_append, Piece.print_cons, print_blanks, List.append_assoc, ← List.append_assoc _ _ ['\n'],
    hrow]
  simp only [List.append_assoc]

namespace SourceFile

variable {t : Text}

theorem directives_key {l : Located} (hl : l ∈ (parse t).outline) :
    ∀ d ∈ l.directives, Lexer.IsWordOf d.key ∧ d.key.toLowerAscii = d.key := by
  obtain ⟨places, hplaces⟩ := exists_places t
  have hwritten := isPlacedAt hplaces hl
  rw [hwritten.all]
  refine Directive.key_foldl_set (Q := fun key => Lexer.IsWordOf key ∧ key.toLowerAscii = key) (fun d hd => ?_)
    (List.forall_mem_nil _)
  obtain ⟨w, hw, rfl⟩ := List.mem_map.mp hd
  obtain ⟨s, found, hforce, hw⟩ := (hwritten.mem w).mp hw
  obtain ⟨hs, block, hkind⟩ := hforce.declare
  have hwords := outline_words t s hs
  rw [hkind] at hwords
  have hword := hwords w.2 (List.of_mem_zip hw).2
  exact ⟨hword.key, hword.lower⟩

theorem space?_isSpaceName {l : Located} (hl : l ∈ (parse t).outline) {space : Text} (h : l.space? = some space) :
    IsSpaceName space := by
  have habove := outline_above_forall (P := fun s => s.kind.HasWords) (t := t) trivial
    (Parser.topStatements_everywhere (c := .ofText t) (fun _ => trivial) Parser.shape_words
      fun inner _ => Parser.namespaceStatement_words inner) l hl
  rw [Located.space?, Option.join_eq_some_iff] at h
  obtain ⟨level, hlevel, hkind⟩ := List.exists_of_findSome?_eq_some h
  have hwords := habove level hlevel
  split at hkind
  · rename_i name? token? braced hspace
    cases hkind
    rw [hspace] at hwords
    exact hwords
  · cases hkind

theorem headIsPlain {l : Located} (hl : l ∈ (parse t).outline.tail)
    (hvalues : ∀ d ∈ l.directives, Lexer.isLiteral d.value) : Part.HeadIsPlain l.directives l.space? where
  directives d hd :=
    have hkey := directives_key (List.mem_of_mem_tail hl) d hd
    ⟨hkey.1, hkey.2, hvalues d hd⟩
  once := by
    obtain ⟨_, -, hall⟩ := directives_last t
    exact (hall l hl).1.imp fun h => Bool.eq_false_iff.mpr h
  space _ := space?_isSpaceName (List.mem_of_mem_tail hl)

/-- `use` statements up to semicolons are copied as lines. -/
theorem exists_ownUses (herrors : (parse t).errors = []) (hhalts : ∀ p ∈ Lexer.pieces t, p.1 ≠ .kwHaltCompiler)
    {P : ImportItem → Prop} (hP : ∀ k item, P (item.move k) → P item) (us : List Located)
    (hus : ∀ u ∈ us, u ∈ (parse t).outline.tail ∧ (parse t).kind? (u.statement.stop - 1) = some .semicolon ∧
      ∃ items, u.statement.kind = .imports items ∧ ∀ item ∈ items, P item) :
    ∃ parts : List Part, (∀ part ∈ parts, part.IsOwnUse P) ∧
      parts.flatMap Part.line = (us.map fun u => (parse t).statementText u.statement).flatMap (· ++ ['\n']) := by
  induction us with
  | nil => exact ⟨[], List.forall_mem_nil _, rfl⟩
  | cons u us ih =>
    rw [List.forall_mem_cons] at hus
    obtain ⟨⟨hu, hlast, items, hkind, hitems⟩, hus⟩ := hus
    obtain ⟨parts, hparts, hlines⟩ := ih hus
    obtain ⟨_, _, part, items', -, -, hlead, huse, hprint, rfl⟩ := exists_isUse herrors hhalts hu hkind hlast
    refine ⟨part :: parts, List.forall_mem_cons.mpr ⟨⟨hlead, items', huse, fun item hitem => ?_⟩, hparts⟩, ?_⟩
    · exact hP _ item (hitems _ (List.mem_map_of_mem hitem))
    · rw [List.flatMap_cons, hlines, Part.line, hlead, hprint]
      rfl

/-- A whole declaration that is put into a file of its own. -/
theorem exists_isOwnFile (herrors : (parse t).errors = []) (hhalts : ∀ p ∈ Lexer.pieces t, p.1 ≠ .kwHaltCompiler)
    {l : Located} (hl : l ∈ (parse t).outline.tail) (hwhole : (parse t).IsWhole l.statement)
    {P : ImportItem → Prop} {ds : List Directive} {space? : Option Text} (hplain : Part.HeadIsPlain ds space?)
    {uses : List Part} (huses : ∀ part ∈ uses, part.IsOwnUse P) :
    ∃ (ps : List Piece) (k : Nat) (s : Statement), l.statement = s.move k ∧ Part.IsOwnFile P ds space? uses ps s ∧
      "<?php\n" ++ Fragment.renderDirectives ds ++ Fragment.renderSpace space? ++ uses.flatMap Part.line ++ ['\n'] ++
        ((parse t).rangeWithDoc l.statement).of t ++ ['\n'] = Piece.print (Part.ownFile ds space? uses ps) := by
  obtain ⟨p, n, before, ps, after, hcut⟩ := exists_isCutOut herrors hhalts hl hwhole
  obtain ⟨s, hs, hfinal⟩ :=
    hcut.exists_isFinal (Statement.isPlain_of_isDeclaration hwhole.kind) (faults_of_errors herrors) hhalts
  have hdeclaration : s.kind.isDeclaration := by
    have hkind := hwhole.kind
    rw [hs, Statement.kind_move] at hkind
    cases hs' : s.kind <;> first | rfl | (rw [hs'] at hkind; cases hkind)
  have htext : ((parse t).rangeWithDoc l.statement).of t = Piece.print ps :=
    rangeWithDoc_pieces hcut.slice.pieces hcut.slice.first.symm
      (hcut.covers.first_lt_stop (Code.ordered_ofTokens _ _)) hcut.slice.stop.symm (hcut.slice.ne_nil hcut.covers)
  refine ⟨ps, before.length, s, hs, ⟨hplain, huses, hfinal, hdeclaration⟩, ?_⟩
  rw [htext, Part.ownFile, Piece.print_append, Piece.print_append, Part.print_ownHead]
  simp only [List.append_assoc]
  rfl

end SourceFile

theorem StatementKind.own_bare (kind : StatementKind) : kind.bare.own = kind.own := by
  cases kind <;> rfl

theorem StatementKind.own_move (k : Nat) (kind : StatementKind) : (kind.move k).own = kind.own := by
  cases kind with
  | constants names => exact List.map_map
  | _ => rfl

theorem StatementKind.bare_eq_conditional_iff {kind : StatementKind} : kind.bare = .conditional ↔ kind = .conditional := by
  cases kind <;> simp [StatementKind.bare]

theorem StatementKind.move_eq_conditional_iff {k : Nat} {kind : StatementKind} :
    kind.move k = .conditional ↔ kind = .conditional := by
  cases kind <;> simp [StatementKind.move]

mutual

theorem Statement.given_bare (s : Statement) : s.bare.given = s.given := by
  match s with
  | ⟨kind, first, stop, doc?, children⟩ =>
    rw [bare, given, given, StatementKind.own_bare, Statement.givenAll_bare children]
    simp only [StatementKind.bare_eq_conditional_iff]

theorem Statement.givenAll_bare (ss : List Statement) : givenAll (ss.map bare) = givenAll ss := by
  match ss with
  | [] => rfl
  | s :: ss => rw [List.map_cons, givenAll, givenAll, Statement.given_bare s, Statement.givenAll_bare ss]

end

mutual

theorem Statement.given_move (k : Nat) (s : Statement) : (s.move k).given = s.given := by
  match s with
  | ⟨kind, first, stop, doc?, children⟩ =>
    rw [move, given, given, StatementKind.own_move, Statement.givenAll_move k children]
    simp only [StatementKind.move_eq_conditional_iff]

theorem Statement.givenAll_move (k : Nat) (ss : List Statement) : givenAll (ss.map (move k)) = givenAll ss := by
  match ss with
  | [] => rfl
  | s :: ss => rw [List.map_cons, givenAll, givenAll, Statement.given_move k s, Statement.givenAll_move k ss]

end

/-- What a statement is as a declaration. -/
def StatementKind.declares? : StatementKind → Option DeclarationKind
  | .classLike kind _ _ => some (.classLike kind)
  | .function .. => some .function
  | .constants _ => some .constant
  | .conditional => some .conditional
  | _ => none

theorem StatementKind.declares?_bare (kind : StatementKind) : kind.bare.declares? = kind.declares? := by
  cases kind <;> rfl

theorem StatementKind.declares?_move (k : Nat) (kind : StatementKind) : (kind.move k).declares? = kind.declares? := by
  cases kind <;> rfl

theorem StatementKind.exists_classLike {kind : StatementKind} {d : DeclarationKind} (h : kind.declares? = some d)
    (htype : d.isType) : ∃ classKind name token, kind = .classLike classKind name token ∧ d = .classLike classKind := by
  cases kind <;> cases h
  case classLike kind name token => exact ⟨kind, name, token, rfl, rfl⟩
  all_goals cases htype

theorem Statement.given_classLike {s : Statement} {kind : ClassKind} {name : Text} {token : Nat}
    (h : s.kind = .classLike kind name token) : s.given = [(.classLike kind, name)] := by
  obtain ⟨_, first, stop, doc?, children⟩ := s
  obtain rfl : _ = _ := h
  rw [given, if_neg StatementKind.noConfusion]
  rfl

theorem SourceFile.declares?_of_declarationAt {f : SourceFile} {l : Located} {d : Declaration}
    (h : f.declarationAt l = .ok (some d)) : l.statement.kind.declares? = some d.kind := by
  rw [declarationAt] at h
  split at h
  any_goals cases h
  · rename_i hkind
    obtain ⟨d', hcondition, heq⟩ := map_eq_ok h
    cases heq
    rw [conditionalDeclaration] at hcondition
    split at hcondition
    · cases hcondition
      rw [hkind]
      rfl
    · cases hcondition
  · split at h
    · rename_i hdeclared
      cases h
      rw [Located.declared?] at hdeclared
      cases hkind : l.statement.kind <;> rw [hkind] at hdeclared <;> cases hdeclared <;> rfl
    · cases h

namespace Part.IsOwnFile

variable {P : ImportItem → Prop} {ds : List Directive} {space? : Option Text} {uses : List Part} {ps : List Piece}
  {s : Statement} (h : IsOwnFile P ds space? uses ps s)
include h

theorem renameAll {x : RenameIndex} (hx : x.IsWritable) (hP : ∀ item, P item → x.KeepsWord item) :
    ∃ uses' ps' s', IsOwnFile (fun _ => True) ds space? uses' ps' s' ∧ s'.bare = s.bare ∧
      (Adaptation.renameAll x (Piece.print (ownFile ds space? uses ps))).text =
        Piece.print (ownFile ds space? uses' ps') := by
  obtain ⟨uses', ps', s', h', hbare, hqualified⟩ := h.qualify h.pieces
  obtain ⟨uses'', ps'', s'', h'', hbare', hrenamed⟩ := h'.rename hx hP h'.pieces
  exact ⟨uses'', ps'', s'', h'', hbare'.trans hbare, by rw [Adaptation.renameAll, hqualified, hrenamed]⟩

/-- The declaration of a decision gets its new short name. -/
theorem renameDecision {c : PlanConfig} {path t : Text} {d : Decision} (hd : d ∈ (FilePlan.ofText c path t).decisions)
    (hlegal : ∀ k ∈ d.components, ∀ s ∈ k.new.segments, isSegment s) (hkind : s.kind.declares? = some d.kind) {n : Nat}
    (hgiven : s.given = (d.components.take n).map fun k => (k.kind, k.old.short)) :
    ∃ ps' s', IsOwnFile P ds space? uses ps' s' ∧ s'.kind.declares? = some d.kind ∧
      s'.given = ((d.components.take n).map fun k => (k.kind, k.new.short)) ∧
      d.renameDeclaration (Piece.print (ownFile ds space? uses ps)) = Piece.print (ownFile ds space? uses ps') := by
  cases hexclusive : d.exclusive with
  | false =>
    refine ⟨ps, s, h, hkind, ?_, ?_⟩
    · rw [hgiven]
      refine List.map_congr_left fun k hk => ?_
      rw [FilePlan.short_of_shared hd hexclusive (List.mem_of_mem_take hk)]
    · rw [Decision.renameDeclaration, Decision.primary?, hexclusive]
      rfl
  | true =>
    obtain ⟨short, -, htype, -, hcomponents, -⟩ := FilePlan.exclusive_spec hd hexclusive
    generalize c.planned d.kind (nameIn (spaceParts d.oldSpace?) short) false = k at hcomponents
    have hprimary : d.primary? = some k := by rw [Decision.primary?, hexclusive, hcomponents]; rfl
    obtain ⟨kind, name, token, hclass, hdkind⟩ := StatementKind.exists_classLike hkind htype
    rw [Statement.given_classLike hclass, hcomponents] at hgiven
    cases n with
    | zero => cases hgiven
    | succ n =>
      rw [List.take_succ_cons, List.take_nil, List.map_singleton, List.singleton_inj, Prod.mk.injEq] at hgiven
      obtain ⟨hk, rfl⟩ := hgiven
      obtain ⟨ps', h', htext⟩ := h.renameDeclaration h.pieces hprimary hclass fun hne =>
        FilePlan.isWordOf_primary hd hprimary hne (hlegal k (hcomponents ▸ List.mem_singleton_self k))
      have hnamed : (s.named k.new.short).kind = .classLike kind k.new.short token := by
        rw [Statement.named, hclass]
      refine ⟨ps', _, h', by rw [hnamed, hdkind]; rfl, ?_, htext⟩
      rw [Statement.given_classLike hnamed, hcomponents, List.take_succ_cons, List.take_nil, List.map_singleton, ← hk]

end Part.IsOwnFile

namespace Extraction

/-- A declaration whose text can be put into a file: its brackets and those of its imports end there, no import
gets an alias that is no word, and the directives have plain values. -/
structure IsMovable (f : SourceFile) (x : RenameIndex) (l : Located) (s : Scope) : Prop where
  whole : f.IsWhole l.statement
  ended : ∀ u ∈ f.scopeUses s, f.kind? (u.statement.stop - 1) = some .semicolon
  words : ∀ item ∈ f.scopeImports s, x.KeepsWord item
  values : ∀ d ∈ l.directives, Lexer.isLiteral d.value
  halts : ∀ p ∈ Lexer.pieces f.text, p.1 ≠ .kwHaltCompiler

instance (f : SourceFile) (s : Statement) : Decidable (f.IsWhole s) :=
  decidable_of_iff (s.kind.isDeclaration ∧ (f.kind? (s.stop - 1)).any TokenKind.isStop ∧
    (s.kind = .conditional → (BracketMatching.ofKinds (f.codeKinds s)).faults = []))
    ⟨fun h => ⟨h.1, h.2.1, h.2.2⟩, fun h => ⟨h.kind, h.ends, h.balanced⟩⟩

instance (x : RenameIndex) (item : ImportItem) : Decidable (x.KeepsWord item) :=
  decidable_of_iff (item.groupLead? = none ∧ item.alias? = none ∧
      (x.newName? item.name item.kind).any (·.short ≠ lastSegment item.name) →
    Word.keywordKind? (lastSegment item.name) = none)
    (by simp [RenameIndex.KeepsWord, RenameIndex.NeedsAlias, Option.any_eq_true])

instance (f : SourceFile) (x : RenameIndex) (l : Located) (s : Scope) : Decidable (IsMovable f x l s) :=
  decidable_of_iff (f.IsWhole l.statement ∧
    (∀ u ∈ f.scopeUses s, f.kind? (u.statement.stop - 1) = some .semicolon) ∧
    (∀ item ∈ f.scopeImports s, x.KeepsWord item) ∧ (∀ d ∈ l.directives, Lexer.isLiteral d.value) ∧
    ∀ p ∈ Lexer.pieces f.text, p.1 ≠ .kwHaltCompiler)
    ⟨fun h => ⟨h.1, h.2.1, h.2.2.1, h.2.2.2.1, h.2.2.2.2⟩,
      fun h => ⟨h.whole, h.ended, h.words, h.values, h.halts⟩⟩

/-- A declaration is taken out if the text for it is that of one namespace. -/
theorem exists_ofDecision {f : SourceFile} (path : Text) {d : Decision} {x : RenameIndex} (createAliases : Bool)
    {l : Located} (hl : f.findByTokens? d.tokens.first d.tokens.stop = some l) {s : Scope}
    (hs : f.scopes.find? (·.containsToken l.statement.first) = some s) {fragment : Fragment}
    (h : Fragment.ofText (d.renameDeclaration (Adaptation.renameAll x
      (d.surroundings ((f.scopeUses s).map fun u => f.statementText u.statement) ++
        (f.rangeWithDoc l.statement).of f.text ++ ['\n'])).text) = .ok fragment) :
    ∃ e, ofDecision f path d x createAliases = .ok e ∧ e.fragment = { fragment with
      space? := d.newSpace?
      body := fragment.body ++ if createAliases then d.aliasStatement?.toList else [] } := by
  cases hresult : ofDecision f path d x createAliases with
  | error =>
    rw [ofDecision, hl] at hresult
    simp only [hs, h] at hresult
    cases hresult
  | ok e =>
    refine ⟨e, rfl, ?_⟩
    rw [ofDecision, hl] at hresult
    simp only [hs, h] at hresult
    cases hresult
    rfl

/-- A declaration is taken out as one statement that declares the same under the new short names. -/
theorem declares_new_names {c : PlanConfig} {path t : Text} {d : Decision}
    (hd : d ∈ (FilePlan.ofText c path t).decisions) (hlegal : ∀ k ∈ d.components, ∀ s ∈ k.new.segments, isSegment s)
    {x : RenameIndex} (hx : x.IsPlanned) (hxlegal : x.IsLegal) {l : Located}
    (hl : (parse t).findByTokens? d.tokens.first d.tokens.stop = some l) {scope : Scope}
    (hscope : (parse t).scopes.find? (·.containsToken l.statement.first) = some scope)
    (hmovable : IsMovable (parse t) x l scope) (createAliases : Bool) :
    ∃ declaration e text s, (parse t).declarationAt l = .ok (some declaration) ∧
      d = (parse t).decide c declaration ∧
      ofDecision (parse t) path d x createAliases = .ok e ∧ e.fragment.space? = d.newSpace? ∧
      e.fragment.body = text :: (if createAliases then d.aliasStatement?.toList else []) ∧
      (parse ("<?php\n" ++ text)).errors = [] ∧ (parse ("<?php\n" ++ text)).root.children = [s] ∧
      s.kind.declares? = some d.kind ∧
      s.given = (d.components.take declaration.names.length).map fun k => (k.kind, k.new.short) := by
  obtain ⟨m, hm, declaration, hat, hdecide⟩ := FilePlan.mem_decisions hd
  have herrors := FilePlan.errors_of_mem_decisions hd
  have htail : m ∈ (parse t).outline.tail := by
    rcases SourceFile.mem_outline_cases hm with rfl | htail
    · cases hat
    · exact htail
  have hplace := SourceFile.place_of_declarationAt hat
  obtain rfl : m = l := by
    have htokens : d.tokens = ⟨m.statement.first, m.statement.stop⟩ := by
      rw [hdecide, SourceFile.decide, hplace]
    rw [htokens, (SourceFile.parse_isTree t).found m htail] at hl
    exact Option.some.inj hl
  have hhalts : ∀ p ∈ Lexer.pieces t, p.1 ≠ .kwHaltCompiler := hmovable.halts
  -- The text for the declaration, and what it is put together from.
  obtain ⟨uses, huses, hlines⟩ := SourceFile.exists_ownUses herrors hhalts (P := x.KeepsWord) (fun _ _ => id)
    ((parse t).scopeUses scope) fun u hu => by
      obtain ⟨hu', hparent⟩ := List.mem_filter.mp hu
      rw [Bool.and_eq_true] at hparent
      obtain ⟨items, hitems⟩ := Option.isSome_iff_exists.mp hparent.2
      have htail : u ∈ (parse t).outline.tail := by
        rcases SourceFile.mem_outline_cases hu' with rfl | htail
        · cases hitems
        · exact htail
      exact ⟨htail, hmovable.ended u hu, items, SourceFile.importItems?_eq_some.mp hitems, fun item hitem =>
        hmovable.words item (List.mem_flatMap.mpr ⟨u, hu, by rwa [hitems]⟩)⟩
  obtain ⟨ps, k, s, hs, hown, htext⟩ := SourceFile.exists_isOwnFile herrors hhalts htail hmovable.whole
    (SourceFile.headIsPlain htail hmovable.values) huses
  obtain ⟨uses', ps', s', hown', hbare, hrenamed⟩ := hown.renameAll (hx.isWritable hxlegal) fun _ => id
  have hdirectives : d.directives = m.directives := by rw [hdecide, SourceFile.decide, hplace]
  have hspace : d.oldSpace? = m.space? := by rw [hdecide, SourceFile.decide, hplace]
  have hput : d.surroundings (((parse t).scopeUses scope).map fun u => (parse t).statementText u.statement) ++
      ((parse t).rangeWithDoc m.statement).of t ++ ['\n'] =
        Piece.print (Part.ownFile m.directives m.space? uses ps) := by
    unfold Decision.surroundings
    rw [← htext, hdirectives, hspace, hlines]
  -- It still declares the same.
  have hkind : s'.kind.declares? = some d.kind := by
    have hsame := congrArg (StatementKind.declares? ∘ Statement.kind) hbare
    simp only [Function.comp, Statement.bare_kind, StatementKind.declares?_bare] at hsame
    have hold := SourceFile.declares?_of_declarationAt hat
    rw [hs, Statement.kind_move, StatementKind.declares?_move] at hold
    rw [hsame, hold, hdecide, SourceFile.decide]
  have hgiven : s'.given = (d.components.take declaration.names.length).map fun k => (k.kind, k.old.short) := by
    have hnames := SourceFile.names_eq_given hm hat
    rw [hs, Statement.given_move, ← Statement.given_bare s, ← hbare, Statement.given_bare] at hnames
    rw [← hnames, hdecide]
    exact (c.take_components declaration).symm
  obtain ⟨ps'', s'', hown'', hkind', hgiven', hnamed⟩ := hown'.renameDecision hd hlegal hkind hgiven
  -- It is read back as it is.
  obtain ⟨imports, hread⟩ := hown''.ofText hown''.pieces
  rw [← hnamed, ← hrenamed, ← hput] at hread
  obtain ⟨e, he, hfragment⟩ := exists_ofDecision path createAliases hl hscope hread
  obtain ⟨hnone, hchildren⟩ := hown''.final.parse_print
  refine ⟨declaration, e, Piece.print ps'', s''.move 1, hat, hdecide, he, ?_, ?_, hnone, hchildren, ?_, ?_⟩
  · rw [hfragment]
  · rw [hfragment]
    rfl
  · rw [Statement.kind_move, StatementKind.declares?_move, hkind']
  · rw [Statement.given_move, hgiven']

/-- A class under a directive, with an import. It takes a part of its name into its namespace. -/
def splitClassSource : Text := "<?php declare(ticks=1); namespace A; use B\\C; class D_E extends C \x7b\x7d"

theorem splitClassSource_declares : let p := FilePlan.ofText underscored "a.php" splitClassSource
    ∃ d ∈ p.decisions, d.components = [⟨.classLike .classDecl, ⟨"A\\D_E"⟩, ⟨"Acme\\A\\D\\E"⟩⟩] ∧
      ∃ (declaration : Declaration) (e : Extraction) (text : Text) (s : Statement),
        ofDecision (parse splitClassSource) "a.php" d (.ofFiles [p]) true = .ok e ∧
        e.fragment.body = text :: d.aliasStatement?.toList ∧
        (parse ("<?php\n" ++ text)).root.children = [s] ∧ s.kind.declares? = some (.classLike .classDecl) ∧
        s.given = (d.components.take declaration.names.length).map fun k => (k.kind, k.new.short) := by
  intro p
  obtain ⟨hrun, hplace, hxlegal⟩ : p.decisions.map (fun d => (d.tokens, d.kind, d.components)) =
      [(⟨19, 29⟩, .classLike .classDecl, [⟨.classLike .classDecl, ⟨"A\\D_E"⟩, ⟨"Acme\\A\\D\\E"⟩⟩])] ∧
      (((parse splitClassSource).findByTokens? 19 29).bind fun l =>
        ((parse splitClassSource).scopes.find? (·.containsToken l.statement.first)).map fun s =>
          decide (IsMovable (parse splitClassSource) (.ofFiles [p]) l s)) = some true ∧
      (RenameIndex.ofFiles [p]).IsLegal := by
    unfold RenameIndex.IsLegal
    decide +kernel
  have hx : (RenameIndex.ofFiles [p]).IsPlanned := RenameIndex.isPlanned_ofFiles fun file hfile d hd => by
    obtain rfl := List.mem_singleton.mp hfile
    exact ⟨underscored, "a.php", splitClassSource, hd⟩
  obtain ⟨d, hd, hview⟩ := List.mem_map.mp (hrun ▸ List.mem_singleton_self _)
  rw [Prod.mk.injEq, Prod.mk.injEq] at hview
  obtain ⟨htokens, hkind, hcomponents⟩ := hview
  obtain ⟨l, hl, hscope⟩ := Option.bind_eq_some_iff.mp hplace
  obtain ⟨scope, hscope, hmovable⟩ := Option.map_eq_some_iff.mp hscope
  have hlegal : ∀ k ∈ d.components, ∀ s ∈ k.new.segments, isSegment s := by
    rw [hcomponents]
    decide +kernel
  obtain ⟨declaration, e, text, s, -, -, he, -, hbody, -, hchildren, hdeclares, hgiven⟩ :=
    declares_new_names hd hlegal hx hxlegal (htokens ▸ hl) hscope (of_decide_eq_true hmovable) true
  exact ⟨d, hd, hcomponents, declaration, e, text, s, he, hbody, hchildren, hkind ▸ hdeclares, hgiven⟩

end Extraction

end NamespaceMigration
