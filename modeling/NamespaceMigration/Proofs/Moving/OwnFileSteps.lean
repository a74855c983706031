import NamespaceMigration.Adaptation.Extraction
import NamespaceMigration.Proofs.Moving.Final
import NamespaceMigration.Proofs.Relocation.ImportTargets

/-! A declaration in a file of its own, step by step. The file is read as what it was put together from, and after
a step of moving code it is such a file again. -/
namespace NamespaceMigration

open Lexer (pieces Lexes)
open SourceFile (parse writtenSlice writtenFrom)
open NamespaceMigration.Parser (manyUntil Parsed topItem isNamespaceHeader)

/-- A class with another name; everything else as it is. -/
def Statement.named (s : Statement) (u : Text) : Statement :=
  match s.kind with
  | .classLike kind _ token => { s with kind := .classLike kind u token }
  | _ => s

theorem Statement.named_self {s : Statement} {kind : ClassKind} {name : Text} {token : Nat}
    (h : s.kind = .classLike kind name token) : s.named name = s := by
  obtain ⟨kind', first, stop, doc?, children⟩ := s
  obtain rfl : kind' = _ := h
  rfl

theorem StatementKind.isDeclaration_bare (kind : StatementKind) : kind.bare.isDeclaration = kind.isDeclaration := by
  cases kind <;> rfl

/-- If an imported name has to become an alias, it is a word. -/
def RenameIndex.KeepsWord (x : RenameIndex) (item : ImportItem) : Prop :=
  x.NeedsAlias item → Word.keywordKind? (lastSegment item.name) = none

namespace Part

/-- What stands before a declaration in a file of its own, up to the empty line. -/
def ownHead (ds : List Directive) (space? : Option Text) (uses : List Part) : List Piece :=
  fileHead (head ds space? ++ uses) ++ blanks (gapAfter [] (head ds space? ++ uses) ++ ['\n'])

/-- A declaration in a file of its own. -/
def ownFile (ds : List Directive) (space? : Option Text) (uses : List Part) (ps : List Piece) : List Piece :=
  ownHead ds space? uses ++ (ps ++ [lineBreak])

/-- A part that is a `use` statement on a line of its own, and what all its imports have. -/
structure IsOwnUse (P : ImportItem → Prop) (part : Part) : Prop where
  lead : part.lead = []
  use : ∃ items, part.IsUse items ∧ ∀ item ∈ items, P item

/-- What a file with one declaration is put together from. -/
structure IsOwnFile (P : ImportItem → Prop) (ds : List Directive) (space? : Option Text) (uses : List Part)
    (ps : List Piece) (s : Statement) : Prop where
  plain : HeadIsPlain ds space?
  uses : ∀ part ∈ uses, part.IsOwnUse P
  final : IsFinal ps s
  declaration : s.kind.isDeclaration

/-- A loop over parts and a declaration reads the statements of both. -/
theorem manyUntil_final {t : Text} (item : Nat → Parsed Statement) (stop : Nat → Bool)
    (hitem : ∀ p, isNamespaceHeader (.ofText t) p = false →
      item p = Parser.statement (.ofText t) ((Code.ofText t).size + 1) p)
    (hstop : ∀ p, isNamespaceHeader (.ofText t) p = false → stop p = (Code.ofText t).atEnd p)
    {before ps : List Piece} {gap w : Text} {parts : List Part} {s : Statement} (hfinal : IsFinal ps s)
    (h : ∀ part ∈ parts, part.IsRead)
    (ht : pieces t = before ++ rowHead gap parts ++ (blanks w ++ (ps ++ [lineBreak]))) (hbefore : Ended before)
    {fuel : Nat} (hfuel : (Code.ofText t).size < (Piece.code before).length + fuel) :
    manyUntil item stop fuel (Piece.code before).length =
      ⟨rowStatements before.length gap parts ++ [s.move (before ++ rowHead gap parts ++ blanks w).length],
        (Code.ofText t).size, []⟩ := by
  have hcode : Piece.code (before ++ rowHead gap parts ++ blanks w) = Piece.code (before ++ rowHead gap parts) := by
    rw [Piece.code_append _ (blanks w), code_blanks, List.append_nil]
  have hlast : pieces t = (before ++ rowHead gap parts ++ blanks w) ++ (ps ++ [lineBreak]) := by
    rw [ht, List.append_assoc _ (blanks w)]
  refine manyUntil_rowHead hitem hstop h ht hbefore (fun p hp => ?_) (fun fuel hfuel => ?_) hfuel
  · rw [Piece.code_append, code_blanks, List.nil_append] at hp
    exact hfinal.tail.begins p hp
  · have hended : Ended (before ++ rowHead gap parts) := ended_rowHead hbefore fun part hpart => (h part hpart).toIsClosed
    have hdoc := leadingDoc?_eq_none hlast hended
    rw [← hcode]
    exact hfinal.tail.reads hlast hdoc hitem hstop (hcode ▸ hfuel)

theorem flatMap_rowStatements {α : Type} (view : Statement → List α) (hmove : ∀ shift s, view (s.move shift) = view s)
    (n : Nat) (gap : Text) (parts : List Part) :
    (rowStatements n gap parts).flatMap view = parts.flatMap (view ·.statement) := by
  induction parts generalizing n gap with
  | nil => rfl
  | cons part parts ih => rw [rowStatements, List.flatMap_cons, hmove, ih, List.flatMap_cons]

theorem exists_of_mem_rowStatements {n : Nat} {gap : Text} {parts : List Part} {s : Statement}
    (h : s ∈ rowStatements n gap parts) : ∃ k, ∃ part ∈ parts, s = part.statement.move k := by
  induction parts generalizing n gap with
  | nil => cases h
  | cons part parts ih =>
    rcases List.mem_cons.mp h with rfl | h
    · exact ⟨_, part, List.mem_cons_self, rfl⟩
    · obtain ⟨k, part, hpart, rfl⟩ := ih h
      exact ⟨k, part, List.mem_cons_of_mem _ hpart, rfl⟩

theorem kind_of_rowStatements_ofDirectives? {n : Nat} {gap : Text} (ds : List Directive) :
    ∀ before ∈ rowStatements n gap (ofDirectives? ds), before.kind = .declare ds false := by
  cases ds with
  | nil => exact List.forall_mem_nil _
  | cons d ds =>
    intro before hbefore
    obtain rfl := List.mem_singleton.mp hbefore
    rw [Statement.kind_move]
    rfl

theorem IsOwnUse.isRead {P : ImportItem → Prop} {part : Part} (h : part.IsOwnUse P) : part.IsRead := by
  obtain ⟨items, huse, -⟩ := h.use
  exact huse.alone.isRead

/-- Where all names bind or name a namespace, there is no reference. -/
theorem le_of_reference {t : Text} {ps after : List Piece} (ht : Lexer.pieces t = ps ++ after)
    (hbinds : BindsNames ((Piece.code ps).map (·.1))) {s : Scope} (hs : s ∈ (parse t).scopes) {r : Reference}
    (hr : r ∈ (parse t).references s.first s.stop) : ps.length ≤ r.token := by
  obtain ⟨token, htoken, hname, -⟩ := SourceFile.references_token hr
  have hisKind : (parse t).kind? r.token = some token.kind := by rw [SourceFile.kind?, htoken]; rfl
  have hcode : (parse t).isCode r.token := by
    rw [SourceFile.isCode, hisKind, Option.any_some, TokenKind.isTrivia_of_isName hname]
    rfl
  obtain ⟨p, hp, hindex⟩ := SourceFile.exists_position hcode
  obtain ⟨item, hitem⟩ := Code.exists_item hp
  have hfree := SourceFile.isFree_of_reference hs hr hitem (by rw [← Code.tokenIndex_eq hitem, hindex])
  have hkind : (Code.ofText t).kind? p = some token.kind := by rw [← SourceFile.kind?_tokenIndex hp, hindex, hisKind]
  rcases Nat.lt_or_ge p (Piece.code ps).length with hlt | hge
  · have hspells := Parser.spells_iff.mp (Parser.spells_pieces (show Lexer.pieces t = [] ++ ps ++ after from ht))
    have hat {q : Nat} {kind : TokenKind} (h : ((Piece.code ps).map (·.1))[q]? = some kind) :
        (Code.ofText t).kind? q = some kind := by
      have := hspells q kind h
      rwa [Piece.code_nil, List.length_nil, Nat.zero_add] at this
    have hsame : ((Piece.code ps).map (·.1))[p]? = some token.kind := by
      have hget := List.getElem?_eq_getElem (l := (Piece.code ps).map (·.1)) (i := p) (by simpa using hlt)
      rw [hget, ← hkind, hat hget]
    rcases hbinds p _ hsame hname with ⟨q, rfl, hspace⟩ | ⟨hident, hequals, hlead⟩
    · cases hfree.declared q _ rfl (hat hspace)
    · rw [hident] at hkind
      rcases hlead with ⟨q, rfl, hcomma⟩ | ⟨q, rfl, hdeclare, hparen⟩
      · exact absurd (hat hequals) (hfree.constant q rfl (hat hcomma) hkind)
      · exact absurd (hat hequals) (hfree.directive q rfl (hat hdeclare) (hat hparen) hkind)
  · obtain ⟨i, rfl⟩ := Nat.exists_eq_add_of_le hge
    have hwhole : Lexer.pieces t = ps ++ after ++ [] := by rw [ht, List.append_nil]
    rw [Code.size_stretch hwhole, Piece.code_nil, List.length_nil, Nat.add_zero] at hp
    obtain ⟨m, -, hm⟩ := Code.tokenIndex_stretch hwhole (Nat.lt_of_add_lt_add_left hp)
    omega

/-- A file with one scope whose statements are those of a head, `use` statements and a declaration. -/
structure IsOwnScope (t : Text) (ds : List Directive) (space? : Option Text) (uses : List Part) (s : Statement)
    (scope : Scope) : Prop where
  scopes : (parse t).scopes = [scope]
  home : scope.home ∈ (parse t).outline
  space : scope.space? = space?
  directives : (parse t).root.children.flatMap Statement.laterDirectives = ds
  children : ∃ front, (∀ before ∈ front, before.kind = .declare ds false) ∧
    scope.home.statement.children =
      front ++ rowStatements (fileHead (head ds space?)).length (gapAfter [] (head ds space?)) uses ++
        [s.move (ownHead ds space? uses).length]

namespace IsOwnFile

variable {P : ImportItem → Prop} {ds : List Directive} {space? : Option Text} {uses : List Part} {ps : List Piece}
  {s : Statement} (h : IsOwnFile P ds space? uses ps s)
include h

theorem isClosed : ∀ part ∈ head ds space? ++ uses, part.IsClosed :=
  List.forall_mem_append.mpr ⟨h.plain.isClosed, fun part hpart => (h.uses part hpart).isRead.toIsClosed⟩

theorem pieces : Lexer.pieces (Piece.print (ownFile ds space? uses ps)) = ownFile ds space? uses ps := by
  have hgap : (gapAfter [] (head ds space? ++ uses) ++ ['\n']).all Lexer.isSpace := by
    rw [List.all_append, gapAfter_isSpace rfl]
    rfl
  have hvisible := h.final.tail.lexes.visible_head h.final.tail.visible
  have hlexes := lexes_rowHead (show ([] : Text).all Lexer.isSpace from rfl) h.isClosed
    (lexes_blanks hgap hvisible h.final.tail.lexes)
  refine Lexer.pieces_print ?_
  rw [ownFile, ownHead, fileHead, List.append_assoc, List.cons_append]
  exact .cons (by decide) rfl hlexes

theorem isRead_head : ∀ part ∈ ofDirectives? ds, part.IsRead := ofDirectives?_isRead h.plain.directives

theorem isPlain (k : Nat) : (s.move k).IsPlain :=
  Statement.isPlain_move k (Statement.isPlain_of_isDeclaration h.declaration)

theorem laterDirectives (n m k : Nat) (gap gap' : Text) : (rowStatements n gap (ofDirectives? ds) ++
    (rowStatements m gap' uses ++ [s.move k])).flatMap Statement.laterDirectives = ds := by
  have huses : uses.flatMap (·.statement.laterDirectives) = [] := by
    refine List.flatMap_eq_nil_iff.mpr fun part hpart => ?_
    obtain ⟨items, huse, -⟩ := (h.uses part hpart).use
    rw [Statement.laterDirectives, huse.kind]
  have hlast : (s.move k).laterDirectives = [] := by
    have hkind := h.declaration
    rw [Statement.laterDirectives_move, Statement.laterDirectives]
    cases hs : s.kind <;> first | rfl | (rw [hs] at hkind; cases hkind)
  have hview := flatMap_rowStatements _ Statement.laterDirectives_move
  rw [List.flatMap_append, List.flatMap_append, hview, hview, laterDirectives_ofDirectives?, huses,
    List.flatMap_singleton, hlast, List.append_nil, List.append_nil]

theorem isOwnScope_none (hspace : space? = none) {t : Text} (ht : Lexer.pieces t = ownFile ds space? uses ps) :
    ∃ scope, IsOwnScope t ds space? uses s scope := by
  have hhead : Part.head ds space? = ofDirectives? ds := by
    rw [hspace]
    exact List.append_nil _
  have hread : ∀ part ∈ ofDirectives? ds ++ uses, part.IsRead :=
    List.forall_mem_append.mpr ⟨h.isRead_head, fun part hpart => (h.uses part hpart).isRead⟩
  have hown : ownHead ds space? uses = [(.openTag, "<?php\n".toList)] ++ rowHead [] (ofDirectives? ds ++ uses) ++
      blanks (gapAfter [] (ofDirectives? ds ++ uses) ++ ['\n']) := by
    rw [ownHead, hhead]
    rfl
  rw [ownFile, hown, List.append_assoc] at ht
  have htop := manyUntil_final (topItem (.ofText t)) (Code.ofText t).atEnd
    (fun _ => Parser.topItem_of_plain) (fun _ _ => rfl) h.final hread ht ended_openTag
    (Nat.lt_add_left _ (Nat.lt_succ_self _))
  have hroot : (parse t).root.children = rowStatements 1 [] (ofDirectives? ds) ++
      (rowStatements (fileHead (ofDirectives? ds)).length (gapAfter [] (ofDirectives? ds)) uses ++
        [s.move (ownHead ds space? uses).length]) := by
    rw [← List.append_assoc, fileHead, List.length_cons, Nat.add_comm, ← rowStatements_append, hown]
    change (Parser.topStatements (.ofText t)).value = _
    rw [Parser.topStatements_eq]
    exact congrArg Parsed.value htop
  refine ⟨_, SourceFile.scopes_of_isPlain ?_, SourceFile.root_mem_outline _, hspace.symm, hroot ▸ h.laterDirectives ..,
    rowStatements 1 [] (ofDirectives? ds), kind_of_rowStatements_ofDirectives? ds, ?_⟩
  · rw [hroot, fileHead, List.length_cons, Nat.add_comm, ← List.append_assoc, ← rowStatements_append]
    exact List.forall_mem_append.mpr
      ⟨isPlain_of_stands hread (stands_rowStatements ht), List.forall_mem_singleton.mpr (h.isPlain _)⟩
  · rw [hhead, List.append_assoc]
    exact hroot

theorem isOwnScope_some {name : Text} (hspace : space? = some name) {t : Text}
    (ht : Lexer.pieces t = ownFile ds space? uses ps) : ∃ scope, IsOwnScope t ds space? uses s scope := by
  have hname := h.plain.space name hspace
  have huses : ∀ part ∈ uses, part.IsRead := fun part hpart => (h.uses part hpart).isRead
  have hhead : Part.head ds space? = ofDirectives? ds ++ [ofSpace name] := by
    rw [hspace]
    rfl
  have hgap : gapAfter [] (ofDirectives? ds ++ [ofSpace name]) = ['\n'] := by
    cases ofDirectives? ds <;> rfl
  have hfile : fileHead (ofDirectives? ds ++ [ofSpace name]) = [(.openTag, "<?php\n".toList)] ++
      rowHead [] (ofDirectives? ds) ++ blanks (gapAfter [] (ofDirectives? ds) ++ (ofSpace name).lead) ++
        (ofSpace name).content := by
    rw [fileHead, rowHead_append, rowHead, rowHead, List.append_nil]
    simp only [List.cons_append, List.nil_append, List.append_assoc]
  have hown : ownHead ds space? uses = fileHead (ofDirectives? ds ++ [ofSpace name]) ++ rowHead ['\n'] uses ++
      blanks (gapAfter ['\n'] uses ++ ['\n']) := by
    rw [ownHead, hhead, fileHead_append, hgap, gapAfter_append, hgap]
  have hbody : Lexer.pieces t = fileHead (ofDirectives? ds ++ [ofSpace name]) ++ rowHead ['\n'] uses ++
      (blanks (gapAfter ['\n'] uses ++ ['\n']) ++ (ps ++ [lineBreak])) := by
    rw [ht, ownFile, hown, List.append_assoc _ (blanks _)]
  have hended : Ended (fileHead (ofDirectives? ds ++ [ofSpace name])) := by
    rw [hfile]
    exact (ofSpace_isClosed hname).ended _
  have hinside := manyUntil_final (Parser.statement (.ofText t) ((Code.ofText t).size + 1))
    (fun q => (Code.ofText t).atEnd q || isNamespaceHeader (.ofText t) q) (fun _ _ => rfl)
    (fun q hq => by rw [hq, Bool.or_false]) h.final huses hbody hended (Nat.lt_add_left _ (Nat.lt_succ_self _))
  have hspaced := hbody
  rw [hfile, List.append_assoc _ (rowHead _ _)] at hspaced
  rw [hfile] at hinside
  obtain ⟨s', ⟨token?, hs'⟩, -, hchildren, hitem⟩ := topItem_ofSpace hname hspaced hinside
  rw [Piece.code_append _ (blanks _), code_blanks, List.append_nil] at hitem
  have hpre : Lexer.pieces t = [(.openTag, "<?php\n".toList)] ++ rowHead [] (ofDirectives? ds) ++
      (blanks (gapAfter [] (ofDirectives? ds) ++ (ofSpace name).lead) ++ (ofSpace name).content ++
        (rowHead ['\n'] uses ++ (blanks (gapAfter ['\n'] uses ++ ['\n']) ++ (ps ++ [lineBreak])))) := by
    rw [hspaced]
    simp only [List.append_assoc]
  have htop := manyUntil_ofSpace h.isRead_head hpre ended_openTag hitem (Nat.lt_add_left _ (Nat.lt_succ_self _))
  have hroot : (parse t).root.children = rowStatements 1 [] (ofDirectives? ds) ++ [s'] := by
    change (Parser.topStatements (.ofText t)).value = _
    rw [Parser.topStatements_eq]
    exact congrArg Parsed.value htop
  obtain ⟨l, hl, rfl, hscopes⟩ := SourceFile.scopes_of_space hroot
    (isPlain_of_stands h.isRead_head (stands_rowStatements hpre)) hs'
  refine ⟨_, hscopes, hl, hspace.symm, ?_, [], List.forall_mem_nil _, ?_⟩
  · rw [hroot, List.flatMap_append, flatMap_rowStatements _ Statement.laterDirectives_move,
      laterDirectives_ofDirectives?, List.flatMap_singleton, Statement.laterDirectives, hs', List.append_nil]
  · rw [hhead, hgap, hown, hchildren, hfile]
    rfl

theorem isOwnScope {t : Text} (ht : Lexer.pieces t = ownFile ds space? uses ps) :
    ∃ scope, IsOwnScope t ds space? uses s scope := by
  cases hspace : space? with
  | none => exact hspace ▸ h.isOwnScope_none hspace ht
  | some name => exact hspace ▸ h.isOwnScope_some hspace ht

/-- The declaration is the only statement of the scope that carries code. -/
theorem bodyStatements {t : Text} {scope : Scope} (hscope : IsOwnScope t ds space? uses s scope) :
    scope.bodyStatements = [s.move (ownHead ds space? uses).length] := by
  obtain ⟨front, hfront, hchildren⟩ := hscope.children
  rw [Scope.bodyStatements_eq, hchildren, List.filter_append, List.filter_append]
  have hnone : front.filter (·.kind.isBody) = [] := List.filter_eq_nil_iff.mpr fun before hbefore => by
    rw [hfront before hbefore]
    exact Bool.false_ne_true
  have huses : ∀ (n : Nat) (gap : Text), (rowStatements n gap uses).filter (·.kind.isBody) = [] := by
    intro n gap
    refine List.filter_eq_nil_iff.mpr fun use huse => ?_
    obtain ⟨k, part, hpart, rfl⟩ := exists_of_mem_rowStatements huse
    obtain ⟨items, hitems, -⟩ := (h.uses part hpart).use
    rw [Statement.kind_move, StatementKind.isBody_move, hitems.kind]
    exact Bool.false_ne_true
  have hbody : s.kind.isBody := by
    have hkind := h.declaration
    cases hs : s.kind <;> first | rfl | (rw [hs] at hkind; cases hkind)
  rw [hnone, huses, List.nil_append, List.nil_append, List.filter_singleton, Statement.kind_move,
    StatementKind.isBody_move, hbody]
  rfl

theorem ofText {t : Text} (ht : Lexer.pieces t = ownFile ds space? uses ps) :
    ∃ imports, Fragment.ofText t = .ok ⟨ds, space?, imports, [Piece.print ps]⟩ := by
  obtain ⟨scope, hscope⟩ := h.isOwnScope ht
  have hadd : Directive.addAll [] ((parse t).root.children.flatMap Statement.laterDirectives) = (ds, none) := by
    rw [hscope.directives]
    exact Fragment.addAll_of_once (show ([] ++ ds).Pairwise _ from h.plain.once)
  have htext : ((parse t).rangeWithDoc (s.move (ownHead ds space? uses).length)).of (parse t).text =
      Piece.print ps := h.final.text ht
  refine ⟨(parse t).scopeImports scope |>.map fun item => { item with groupLead? := none }, ?_⟩
  have hfile : Fragment.ofText t = _ := Fragment.ofFile_of_scopes hscope.scopes hadd
  rw [hfile, h.bodyStatements hscope, hscope.space, List.map_singleton, htext]

/-- What is imported stands in the `use` statements. -/
theorem imported_inside {t : Text} {scope : Scope} (hscope : IsOwnScope t ds space? uses s scope) {s' : Scope}
    (hs' : s' ∈ (parse t).scopes) {item : ImportItem} (hitem : item ∈ (parse t).scopeImports s') :
    ∃ use ∈ rowStatements (fileHead (head ds space?)).length (gapAfter [] (head ds space?)) uses,
      use ∈ scope.home.statement.children ∧ (∃ items, use.kind = .imports items ∧ item ∈ items) ∧
        use.first ≤ item.nameToken ∧ item.nameToken < use.stop := by
  obtain ⟨child, hchild, ⟨items, hitems, hmem⟩, hfirst, hstop, -⟩ := SourceFile.imported_inside hs' hitem
  rw [hscope.scopes, List.mem_singleton] at hs'
  subst hs'
  obtain ⟨front, hfront, hchildren⟩ := hscope.children
  have hin := hchild
  rw [hchildren, List.mem_append, List.mem_append, List.mem_singleton] at hin
  rcases hin with (hin | hin) | rfl
  · rw [hfront child hin] at hitems
    cases hitems
  · exact ⟨child, hin, hchild, ⟨items, hitems, hmem⟩, hfirst, hstop⟩
  · have hkind := h.declaration
    rw [Statement.kind_move] at hitems
    cases hs : s.kind <;> first | (rw [hs] at hkind; cases hkind; done) | (rw [hs] at hitems; cases hitems)

theorem le_of_importsAt {t : Text} {scope : Scope} (hscope : IsOwnScope t ds space? uses s scope) {i : Nat}
    (hi : (parse t).ImportsAt i) : (fileHead (head ds space?)).length ≤ i ∧ i < (ownHead ds space? uses).length := by
  obtain ⟨s', hs', item, hitem, rfl⟩ := hi
  obtain ⟨use, huse, -, -, hfirst, hstop⟩ := h.imported_inside hscope hs' hitem
  have hle := le_first_of_rowStatements huse
  have hread : ∀ part ∈ uses, part.IsRead := fun part hpart => (h.uses part hpart).isRead
  have hlt := stop_le_of_rowStatements hread huse
  rw [ownHead, fileHead_append, List.length_append, List.length_append]
  omega

/-- A step leaves what stands before the `use` statements as it is. -/
theorem writtenSlice_head {t : Text} {renames : Prop} {edits : List TextEdit}
    (hedits : (parse t).AdaptEdits renames edits) {after : List Piece}
    (ht : Lexer.pieces t = fileHead (head ds space?) ++ after)
    {scope : Scope} (hscope : IsOwnScope t ds space? uses s scope) :
    writtenSlice t edits 0 (fileHead (head ds space?)).length = Piece.print (fileHead (head ds space?)) := by
  have hwhole : Lexer.pieces t = [] ++ fileHead (head ds space?) ++ after := ht
  refine SourceFile.writtenSlice_eq_print hedits hwhole fun i token new _ hlt hi hadapts => ?_
  rw [List.length_nil, Nat.zero_add] at hlt
  cases hadapts with
  | reference hs hr hindex =>
    have hle := le_of_reference ht (kinds_fileHead _ ▸ BindsNames.head h.plain.space) hs hr
    omega
  | comment _ _ hkind =>
    have hpiece : (Lexer.pieces t)[i]? = some (token.kind, token.text) := by
      rw [Lexer.pieces, List.getElem?_map, ← SourceFile.tokens_parse, hi]
      rfl
    rw [ht, List.getElem?_append_left hlt] at hpiece
    exact kind_fileHead ds space? _ (List.mem_of_getElem? hpiece) hkind
  | imported _ himports =>
    have hle := (h.le_of_importsAt hscope himports).1
    omega

/-- After a step that leaves each `use` statement one, the file is such a file again. -/
theorem step {Q : ImportItem → Prop} {t : Text} {renames : Prop} {edits : List TextEdit}
    (hedits : (parse t).AdaptEdits renames edits) (ht : Lexer.pieces t = ownFile ds space? uses ps)
    {scope : Scope} (hscope : IsOwnScope t ds space? uses s scope)
    (huses : ∀ before part after, Lexer.pieces t = before ++ part.content ++ after → part ∈ uses →
      part.statement.move before.length ∈ scope.home.statement.children →
      ∃ part' : Part, part'.lead = part.lead ∧
        Piece.print part'.content = writtenSlice t edits before.length part.content.length ∧
        ∃ items, part'.IsUse items ∧ ∀ item ∈ items, Q item) :
    ∃ uses' ps' s', IsOwnFile Q ds space? uses' ps' s' ∧ s'.bare = s.bare ∧
      TextEdit.applyAll edits t = Piece.print (ownFile ds space? uses' ps') := by
  have hrow : ownHead ds space? uses = fileHead (head ds space?) ++ rowHead (gapAfter [] (head ds space?)) uses ++
      blanks (gapAfter (gapAfter [] (head ds space?)) uses ++ ['\n']) := by
    rw [ownHead, fileHead_append, gapAfter_append]
  have hlast : Lexer.pieces t = ownHead ds space? uses ++ (ps ++ [lineBreak]) := ht
  have hmiddle := hlast
  rw [hrow] at hmiddle
  have hfirst := hmiddle
  rw [List.append_assoc] at hmiddle
  rw [List.append_assoc, List.append_assoc] at hfirst
  obtain ⟨front, -, hchildren⟩ := hscope.children
  have hparts := exists_adapted_rowHead hedits (Q := fun _ part' => part'.IsOwnUse Q) hmiddle
    fun before part after hbefore hpart hmem => by
      obtain ⟨part', hlead, hprint, huse⟩ := huses before part after hbefore hpart
        (hchildren ▸ List.mem_append_left _ (List.mem_append_right _ hmem))
      exact ⟨part', hlead, hprint, ⟨hlead.trans (h.uses part hpart).lead, huse⟩⟩
  obtain ⟨uses', huses', huse⟩ := hparts
  have hown : ∀ part ∈ uses', part.IsOwnUse Q :=
    ((List.forall₂_and_left (R := fun _ _ => True) _ _).mp (huses'.flip.imp fun _ _ h => ⟨h, trivial⟩)).1
  have hgap : gapAfter (gapAfter [] (head ds space?)) uses' = gapAfter (gapAfter [] (head ds space?)) uses := by
    cases huses' <;> rfl
  obtain ⟨ps', s', hfinal, hprint, hbare⟩ := h.final.adapt hedits hlast hscope.home
    (hchildren ▸ List.mem_append_right _ List.mem_cons_self)
    fun _ i hle hi => absurd (h.le_of_importsAt hscope hi).2 (Nat.not_lt.mpr hle)
  refine ⟨uses', ps', s', ⟨h.plain, hown, hfinal, ?_⟩, hbare, ?_⟩
  · have hkind := congrArg Statement.kind hbare
    rw [Statement.bare_kind, Statement.bare_kind] at hkind
    rw [← StatementKind.isDeclaration_bare, hkind, StatementKind.isDeclaration_bare]
    exact h.declaration
  · have hhead := h.writtenSlice_head hedits hfirst hscope
    have hblanks := SourceFile.writtenSlice_blanks hedits (hmiddle.trans (List.append_assoc _ _ _).symm) rfl
    rw [SourceFile.applyAll_written hedits, show (Lexer.tokenize t).flatMap (SourceFile.written edits) =
      writtenFrom t edits 0 from rfl, SourceFile.writtenFrom_eq_append _ _ (fileHead (head ds space?)).length, hhead,
      Nat.zero_add, SourceFile.writtenFrom_eq_append _ _ (rowHead (gapAfter [] (head ds space?)) uses).length, huse,
      ← List.length_append, SourceFile.writtenFrom_eq_append _ _ (blanks _).length, hblanks, ← List.length_append,
      ← hrow, ← hprint, ownFile, ownHead, fileHead_append, gapAfter_append, hgap]
    simp only [Piece.print_append, print_blanks, List.append_assoc]
    rfl

theorem qualify {t : Text} (ht : Lexer.pieces t = ownFile ds space? uses ps) :
    ∃ uses' ps' s', IsOwnFile P ds space? uses' ps' s' ∧ s'.bare = s.bare ∧
      Adaptation.qualify t = Piece.print (ownFile ds space? uses' ps') := by
  obtain ⟨scope, hscope⟩ := h.isOwnScope ht
  refine h.step (SourceFile.adaptEdits_qualify t) ht hscope fun before part after hbefore hpart hstands => ?_
  obtain ⟨items, huse, hitems⟩ := (h.uses part hpart).use
  obtain ⟨part', hlead, hprint, huse', -⟩ :=
    huse.adapt (SourceFile.adaptEdits_qualify t) hbefore hscope.home hstands
  exact ⟨part', hlead, hprint, items, huse', hitems⟩

/-- What is imported where a `use` statement stands is what that imports. -/
theorem imports_of_stands {t : Text} {scope : Scope} (hscope : IsOwnScope t ds space? uses s scope) {part : Part}
    {items : List ImportItem} (huse : part.IsUse items) {n : Nat}
    (hstands : part.statement.move n ∈ scope.home.statement.children) {s' : Scope} (hs' : s' ∈ (parse t).scopes)
    {item : ImportItem} (hitem : item ∈ (parse t).scopeImports s') (hle : n ≤ item.nameToken)
    (hlt : item.nameToken < n + part.content.length) : ∃ item' ∈ items, item = item'.move n := by
  obtain ⟨use, -, hchild, ⟨items', hitems', hmem⟩, hfirst, hstop⟩ := h.imported_inside hscope hs' hitem
  have hspan : (part.statement.move n).first = n ∧ (part.statement.move n).stop = n + part.content.length := by
    rw [Statement.first_move, Statement.stop_move, huse.first, huse.alone.isRead.last]
    exact ⟨rfl, rfl⟩
  obtain rfl : use = part.statement.move n := by
    rcases SourceFile.eq_or_of_pairwise (SourceFile.children_apart hscope.home) hchild hstands with
      hsame | hbefore | hafter
    · exact hsame
    · omega
    · omega
  rw [Statement.kind_move, huse.kind, StatementKind.move, StatementKind.imports.injEq] at hitems'
  rw [← hitems'] at hmem
  obtain ⟨item', hitem', rfl⟩ := List.mem_map.mp hmem
  exact ⟨item', hitem', rfl⟩

omit h in
/-- What a `use` statement imports can get its new name. -/
theorem fits {x : RenameIndex} {t : Text} {scope : Scope} (hscope : IsOwnScope t ds space? uses s scope)
    {before after : List Piece} {part : Part} (ht : Lexer.pieces t = before ++ part.content ++ after)
    {items : List ImportItem} (huse : part.IsUse items)
    (hstands : part.statement.move before.length ∈ scope.home.statement.children)
    (hwords : ∀ item ∈ items, x.KeepsWord item) :
    ∀ item ∈ items, x.Fits (Lexer.gapBefore false part.content item.nameToken) item := by
  intro item hitem new halone hnew
  have himported : item.move before.length ∈ (parse t).scopeImports scope := by
    rw [SourceFile.scopeImports_eq hscope.home]
    refine List.mem_flatMap.mpr ⟨_, hstands, ?_⟩
    have hitems : (part.statement.move before.length).importItems? =
        some (items.map (ImportItem.move before.length)) := by
      rw [SourceFile.importItems?_eq_some, Statement.kind_move, huse.kind]
      rfl
    rw [hitems]
    exact List.mem_map_of_mem hitem
  have hname := (SourceFile.imported_hasWords himported).name
  refine ⟨?_, fun halias hshort =>
    ⟨hname.lastSegment, lastSegment_not_mem _, hwords item hitem ⟨halone, halias, new, hnew, hshort⟩⟩⟩
  -- A gap stands before the name in the file, and so in the statement.
  obtain ⟨kind, w, hat, hkind⟩ := huse.exists_name hitem halone
  obtain ⟨u, rest, hcontent⟩ := huse.pieces.exists_use
  obtain ⟨init, p, q, after', hsplit, hlength, hgap, -⟩ := SourceFile.gap_before_import himported halone
  cases hindex : item.nameToken with
  | zero =>
    rw [hindex, hcontent, List.getElem?_cons_zero, Option.some.injEq, Prod.mk.injEq] at hat
    rw [← hat.1] at hkind
    cases hkind
  | succ j =>
    have hlt : j < part.content.length := by
      have := (List.getElem?_eq_some_iff.mp hat).1
      omega
    have hplace : init.length = before.length + j := by
      have hmoved : (item.move before.length).nameToken = before.length + item.nameToken := rfl
      rw [hmoved, hindex, List.length_append, List.length_singleton] at hlength
      omega
    have hp : part.content[j]? = some p := by
      have hpiece : (Lexer.pieces t)[before.length + j]? = some p := by
        rw [hsplit, ← hplace, List.append_assoc, List.getElem?_append_right (Nat.le_refl _), Nat.sub_self]
        rfl
      rwa [ht, List.append_assoc, List.getElem?_append_right (Nat.le_add_right _ _), Nat.add_sub_cancel_left,
        List.getElem?_append_left hlt] at hpiece
    rw [Lexer.gapBefore, hp]
    exact hgap

theorem rename {x : RenameIndex} (hx : x.IsWritable) (hP : ∀ item, P item → x.KeepsWord item) {t : Text}
    (ht : Lexer.pieces t = ownFile ds space? uses ps) :
    ∃ uses' ps' s', IsOwnFile (fun _ => True) ds space? uses' ps' s' ∧ s'.bare = s.bare ∧
      (Adaptation.rename x t).text = Piece.print (ownFile ds space? uses' ps') := by
  obtain ⟨scope, hscope⟩ := h.isOwnScope ht
  refine h.step (SourceFile.adaptEdits_rename hx.hasNames t) ht hscope fun before part after hbefore hpart hstands => ?_
  obtain ⟨items, huse, hitems⟩ := (h.uses part hpart).use
  obtain ⟨part', items', hlead, hprint, huse'⟩ := huse.rename hx hbefore hscope.home hstands
    (fun s' hs' item hitem hle hlt => h.imports_of_stands hscope huse hstands hs' hitem hle hlt)
    (fits hscope hbefore huse hstands fun item hitem => hP item (hitems item hitem))
  exact ⟨part', hlead, hprint, items', huse', fun _ _ => trivial⟩

/-- The declaration with a file of its own gets its new short name. -/
theorem renameDeclaration {t : Text} (ht : Lexer.pieces t = ownFile ds space? uses ps) {d : Decision} {c : Component}
    (hprimary : d.primary? = some c) {kind : ClassKind} {token : Nat} (hkind : s.kind = .classLike kind c.old.short token)
    (hword : c.old.short ≠ c.new.short → Lexer.IsWordOf c.new.short) :
    ∃ ps', IsOwnFile P ds space? uses ps' (s.named c.new.short) ∧
      d.renameDeclaration t = Piece.print (ownFile ds space? uses ps') := by
  rw [Decision.renameDeclaration, hprimary]
  dsimp only
  by_cases hsame : c.old.short = c.new.short
  · rw [if_pos hsame, ← hsame, Statement.named_self hkind]
    exact ⟨ps, h, by rw [← ht, Lexer.print_pieces]⟩
  · rw [if_neg hsame]
    obtain ⟨scope, hscope⟩ := h.isOwnScope ht
    obtain ⟨before, after, rfl, htoken, hfinal⟩ := h.final.rename hkind (hword hsame)
    have hstatement : ((parse t).scopes.head?.bind fun s => s.bodyStatements.head?).bind Statement.nameToken? =
        some ((ownHead ds space? uses).length + token) := by
      rw [hscope.scopes, List.head?_cons, Option.bind_some, h.bodyStatements hscope, List.head?_cons, Option.bind_some,
        Statement.nameToken?, Statement.kind_move, hkind]
      rfl
    have hpieces : Lexer.pieces t = ownHead ds space? uses ++ before ++
        (.ident, c.old.short) :: (after ++ [lineBreak]) := by
      rw [ht, ownFile]
      simp only [List.append_assoc, List.cons_append]
    have hrange := SourceFile.tokenRange_pieces hpieces
    rw [List.length_append, htoken] at hrange
    have hnamed : s.named c.new.short = { s with kind := .classLike kind c.new.short token } := by
      rw [Statement.named, hkind]
    rw [hstatement, hnamed]
    refine ⟨_, ⟨h.plain, h.uses, hfinal, rfl⟩, ?_⟩
    have hprint : t = Piece.print (ownHead ds space? uses ++ before) ++
        (c.old.short ++ Piece.print (after ++ [lineBreak])) := by
      rw [← Lexer.print_pieces t, hpieces, Piece.print_append, Piece.print_cons]
    dsimp only
    rw [hrange]
    conv_lhs => rw [hprint]
    rw [TextEdit.applyAll_single, ownFile]
    simp only [Piece.print_append, Piece.print_cons, List.append_assoc, List.cons_append]

end IsOwnFile
end Part
end NamespaceMigration
