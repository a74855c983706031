import NamespaceMigration.Proofs.Rendering.Directives
import NamespaceMigration.Proofs.Rendering.Files
import NamespaceMigration.Proofs.Rendering.Imports
import NamespaceMigration.Proofs.Statements.Declared

/-! Fragments as files. A fragment that can be written is read back from its file: its directives, its
namespace, its imports and its statements. -/
namespace NamespaceMigration

open Lexer (pieces)

/-- What an import says: what is imported, and under which short name. -/
def ImportItem.sense (item : ImportItem) : SymbolKind × Text × Text :=
  (item.kind, item.name, item.shortName)

namespace StatementKind

theorem isBody_move (shift : Nat) (kind : StatementKind) : (kind.move shift).isBody = kind.isBody := by
  cases kind <;> rfl

end StatementKind

namespace Statement

variable (shift : Nat) (s : Statement)

theorem kind_move : (s.move shift).kind = s.kind.move shift := by
  obtain ⟨kind, first, stop, doc?, children⟩ := s
  rw [move]

theorem first_move : (s.move shift).first = shift + s.first := by
  obtain ⟨kind, first, stop, doc?, children⟩ := s
  rw [move]

theorem stop_move : (s.move shift).stop = shift + s.stop := by
  obtain ⟨kind, first, stop, doc?, children⟩ := s
  rw [move]

theorem start_move : (s.move shift).doc?.getD (s.move shift).first = shift + s.doc?.getD s.first := by
  obtain ⟨kind, first, stop, doc?, children⟩ := s
  rw [move]
  cases doc? <;> rfl

theorem laterDirectives_move : (s.move shift).laterDirectives = s.laterDirectives := by
  rw [laterDirectives, laterDirectives, kind_move]
  cases s.kind <;> rfl

/-- What the imports of a statement say. -/
def senses (s : Statement) : List (SymbolKind × Text × Text) :=
  (s.importItems?.getD []).map ImportItem.sense

theorem senses_move : (s.move shift).senses = s.senses := by
  rw [senses, senses, importItems?, importItems?, kind_move]
  cases s.kind with
  | imports items =>
    change (items.map (ImportItem.move shift)).map ImportItem.sense = items.map ImportItem.sense
    rw [List.map_map]
    rfl
  | _ => rfl

theorem views_of_isBody {s : Statement} (h : s.kind.isBody) :
    s.senses = [] ∧ s.laterDirectives = [] := by
  revert h
  rw [senses, importItems?, laterDirectives]
  cases s.kind with
  | imports => exact Bool.noConfusion
  | declare directives block =>
    cases block with
    | true => exact fun _ => ⟨rfl, rfl⟩
    | false => exact Bool.noConfusion
  | _ => exact fun _ => ⟨rfl, rfl⟩

end Statement

namespace Part

/-- The text of a part that carries code. -/
def texts (part : Part) : List Text :=
  if part.statement.kind.isBody then [Piece.print part.content] else []

section Stands

variable {t : Text} {part : Part} {s : Statement}

theorem Stands.isPlain (h : Stands t part s) (hpart : part.IsRead) : s.IsPlain := by
  obtain ⟨_, _, -, rfl⟩ := h
  intro name? token? braced hkind
  rw [Statement.kind_move] at hkind
  cases hs : part.statement.kind <;> rw [hs] at hkind <;> cases hkind
  exact hpart.plain _ _ _ hs

/-- The text of a statement is that of its part. -/
theorem Stands.texts (h : Stands t part s) (hpart : part.IsRead) :
    (if s.kind.isBody then [((SourceFile.parse t).rangeWithDoc s).of t] else []) = part.texts := by
  obtain ⟨before, after, ht, rfl⟩ := h
  have hrange : ((SourceFile.parse t).rangeWithDoc (part.statement.move before.length)).of t =
      Piece.print part.content := by
    have hstart : (part.statement.move before.length).doc?.getD
        (part.statement.move before.length).first = before.length := by
      rw [Statement.start_move, hpart.first, Nat.add_zero]
    have hstop : (part.statement.move before.length).stop = before.length + part.content.length := by
      rw [Statement.stop_move, hpart.last]
    have hlt : (part.statement.move before.length).first < (part.statement.move before.length).stop := by
      rw [hstop, Statement.first_move]
      exact Nat.add_lt_add_left hpart.first_lt _
    exact SourceFile.rangeWithDoc_pieces ht hstart hlt hstop
      (List.ne_nil_of_length_pos (Nat.zero_lt_of_lt hpart.first_lt))
  rw [Part.texts, Statement.kind_move, StatementKind.isBody_move, hrange]

end Stands

theorem flatMap_of_stands {α : Type} {t : Text} {parts : List Part} {ss : List Statement}
    (view : Statement → List α) (hmove : ∀ shift s, view (s.move shift) = view s)
    (h : List.Forall₂ (Stands t) parts ss) :
    ss.flatMap view = parts.flatMap (view ·.statement) := by
  induction h with
  | nil => rfl
  | @cons part s parts ss hs _ ih =>
    obtain ⟨_, _, -, rfl⟩ := hs
    rw [List.flatMap_cons, List.flatMap_cons, hmove, ih]

theorem texts_of_stands {t : Text} {parts : List Part} {ss : List Statement}
    (hread : ∀ part ∈ parts, part.IsRead) (h : List.Forall₂ (Stands t) parts ss) :
    (ss.filter (·.kind.isBody)).map (fun s => ((SourceFile.parse t).rangeWithDoc s).of t) =
      parts.flatMap texts := by
  induction h with
  | nil => rfl
  | @cons part s parts ss hs _ ih =>
    rw [List.forall_mem_cons] at hread
    rw [List.flatMap_cons, ← ih hread.2, ← hs.texts hread.1, List.filter_cons]
    split <;> rfl

theorem isPlain_of_stands {t : Text} {parts : List Part} {ss : List Statement}
    (hread : ∀ part ∈ parts, part.IsRead) (h : List.Forall₂ (Stands t) parts ss) :
    ∀ s ∈ ss, s.IsPlain := by
  induction h with
  | nil => exact nofun
  | @cons part s parts ss hs _ ih =>
    rw [List.forall_mem_cons] at hread
    exact List.forall_mem_cons.mpr ⟨hs.isPlain hread.1, ih hread.2⟩

end Part

theorem Fragment.ofFile_of_scopes {f : SourceFile} {s : Scope} {directives : List Directive} (hscopes : f.scopes = [s])
    (hadd : Directive.addAll [] (f.root.children.flatMap Statement.laterDirectives) = (directives, none)) :
    ofFile f = .ok {
      directives
      space? := s.space?
      imports := (f.scopeImports s).map fun item => { item with groupLead? := none }
      body := s.bodyStatements.map fun statement => (f.rangeWithDoc statement).of f.text } := by
  rw [ofFile, hscopes]
  dsimp only
  split
  · rename_i heq
    cases heq.symm.trans hadd
  · rename_i heq
    cases heq.symm.trans hadd
    rfl

/-- A file with one scope that is a row of parts, and with directives outside all blocks. -/
structure SourceFile.IsRow (t : Text) (s : Scope) (directives : List Directive) (parts : List Part) :
    Prop where
  scopes : (parse t).scopes = [s]
  home : s.home ∈ (parse t).outline
  first : s.first = s.home.statement.first
  stop : s.stop = s.home.statement.stop
  directives : (parse t).root.children.flatMap Statement.laterDirectives = directives
  read : ∀ part ∈ parts, part.IsRead
  stands : List.Forall₂ (Part.Stands t) parts s.home.statement.children

namespace SourceFile.IsRow

variable {t : Text} {s : Scope} {written directives : List Directive} {parts : List Part}

theorem senses (h : IsRow t s written parts) :
    ((parse t).scopeImports s).map ImportItem.sense = parts.flatMap (·.statement.senses) := by
  rw [← Part.flatMap_of_stands _ Statement.senses_move h.stands, scopeImports_eq h.home,
    List.map_flatMap]
  rfl

theorem names (h : IsRow t s written parts) :
    (parse t).scopeNames s = parts.flatMap (·.statement.names) := by
  rw [scopeNames_eq h.home h.first h.stop, Part.flatMap_of_stands _ Statement.names_move h.stands]

theorem exists_ofText (h : IsRow t s written parts)
    (hdirectives : Directive.addAll [] written = (directives, none)) :
    ∃ f, Fragment.ofText t = .ok f ∧ f.directives = directives ∧ f.space? = s.space? ∧
      f.imports.map ImportItem.sense = parts.flatMap (·.statement.senses) ∧
      f.body = parts.flatMap Part.texts := by
  have hfile : Fragment.ofText t = _ := Fragment.ofFile_of_scopes h.scopes (h.directives.symm ▸ hdirectives)
  refine ⟨_, hfile, rfl, rfl, ?_, ?_⟩
  · rw [← h.senses, List.map_map]
    rfl
  · rw [← Part.texts_of_stands h.read h.stands, Scope.bodyStatements_eq]
    rfl

end SourceFile.IsRow

namespace Part

variable {parts pre post : List Part} {name : Text}

theorem ended_openTag : Ended [(.openTag, "<?php\n".toList)] := ⟨[], _, rfl, .inl rfl⟩

/-- A file of parts none of which is a namespace. -/
theorem isRow_file (h : ∀ part ∈ parts, part.IsRead) : ∃ s : Scope, s.space? = none ∧
    s.home.statement.children = rowStatements 1 [] parts ∧
    SourceFile.IsRow (Piece.print (file parts)) s (parts.flatMap (·.statement.laterDirectives))
      parts := by
  have ht : pieces (Piece.print (file parts)) = [(.openTag, "<?php\n".toList)] ++ row [] parts :=
    pieces_file fun part hpart => (h part hpart).toIsClosed
  generalize Piece.print (file parts) = t at ht
  have hread := manyUntil_row (fun _ => Parser.topItem_of_plain) (fun _ _ => rfl) h ht ended_openTag
    (Nat.lt_add_left _ (Nat.lt_succ_self _))
  have hrow : pieces t = [(.openTag, "<?php\n".toList)] ++ rowHead [] parts ++ blanks (gapAfter [] parts) := by
    rw [ht, row_eq, List.append_assoc]
  have hss : List.Forall₂ (Stands t) parts (rowStatements 1 [] parts) := stands_rowStatements hrow
  have hroot : (SourceFile.parse t).root.children = rowStatements 1 [] parts := by
    change (Parser.topStatements (.ofText t)).value = _
    rw [Parser.topStatements_eq]
    exact congrArg Parser.Parsed.value hread
  refine ⟨_, rfl, hroot, SourceFile.scopes_of_isPlain (hroot ▸ isPlain_of_stands h hss),
    SourceFile.root_mem_outline _, rfl, ?_, ?_, h, hroot ▸ hss⟩
  · exact List.size_toArray
  · rw [hroot, flatMap_of_stands _ Statement.laterDirectives_move hss]

/-- A file of parts with the header of a namespace among them is a row of the parts after it, with the
directives before it. -/
theorem isRow_file_space (hname : IsSpaceName name) (hpre : ∀ part ∈ pre, part.IsRead)
    (hpost : ∀ part ∈ post, part.IsRead) : ∃ s : Scope, s.space? = some name ∧
    (∃ before, pieces (Piece.print (file (pre ++ ofSpace name :: post))) =
        before ++ (ofSpace name).content ++ row ['\n'] post ∧ s.first = before.length ∧
      s.home.statement.children = rowStatements (before ++ (ofSpace name).content).length ['\n'] post) ∧
    SourceFile.IsRow (Piece.print (file (pre ++ ofSpace name :: post))) s
      (pre.flatMap (·.statement.laterDirectives)) post := by
  have ht : pieces (Piece.print (file (pre ++ ofSpace name :: post))) =
      [(.openTag, "<?php\n".toList)] ++ row [] (pre ++ ofSpace name :: post) := by
    refine pieces_file fun part hpart => ?_
    rcases List.mem_append.mp hpart with hpart | hpart
    · exact (hpre part hpart).toIsClosed
    · rcases List.mem_cons.mp hpart with rfl | hpart
      · exact ofSpace_isClosed hname
      · exact (hpost part hpart).toIsClosed
  generalize Piece.print (file (pre ++ ofSpace name :: post)) = t at ht
  obtain ⟨ss, s, hss, ⟨token?, hs⟩, ⟨before, hpieces, hfirst, hchildren⟩, hread⟩ :=
    topItems_row hname hpre hpost ht ended_openTag (Nat.lt_add_left _ (Nat.lt_succ_self _))
  have hroot : (SourceFile.parse t).root.children = ss ++ [s] := by
    change (Parser.topStatements (.ofText t)).value = ss ++ [s]
    rw [Parser.topStatements_eq]
    exact congrArg Parser.Parsed.value hread
  obtain ⟨l, hl, rfl, hscopes⟩ := SourceFile.scopes_of_space hroot (isPlain_of_stands hpre hss) hs
  refine ⟨_, rfl, ⟨before, hpieces, hfirst, hchildren⟩, hscopes, hl, rfl, rfl, ?_, hpost,
    hchildren ▸ stands_rowStatements (hpieces.trans (by rw [row_eq, ← List.append_assoc]))⟩
  rw [hroot, List.flatMap_append, flatMap_of_stands _ Statement.laterDirectives_move hss,
    List.flatMap_singleton, Statement.laterDirectives, hs, List.append_nil]

/-- A part with the lines that it takes. -/
def line (part : Part) : Text := part.lead ++ Piece.print part.content ++ ['\n']

theorem print_file (parts : List Part) : Piece.print (file parts) = "<?php\n" ++ parts.flatMap line := by
  rw [file, Piece.print_cons, print_row]
  rfl

def ofDirectives? (ds : List Directive) : List Part := if ds.isEmpty then [] else [ofDirectives ds]

theorem flatMap_line_ofDirectives? (ds : List Directive) :
    (ofDirectives? ds).flatMap line = Fragment.renderDirectives ds := by
  cases ds with
  | nil => rfl
  | cons d ds => exact (List.flatMap_singleton _ _).trans (print_ofDirectives (List.cons_ne_nil d ds))

theorem laterDirectives_ofDirectives? (ds : List Directive) :
    (ofDirectives? ds).flatMap (·.statement.laterDirectives) = ds := by
  cases ds with
  | nil => rfl
  | cons d ds =>
    have hone : (ofDirectives (d :: ds)).statement.laterDirectives = d :: ds := by
      rw [ofDirectives]
      rfl
    rw [ofDirectives?, List.isEmpty_cons, if_neg Bool.false_ne_true, List.flatMap_singleton, hone]

theorem views_ofDirectives? (ds : List Directive) :
    (ofDirectives? ds).flatMap (·.statement.senses) = [] ∧ (ofDirectives? ds).flatMap texts = [] ∧
      (ofDirectives? ds).flatMap (·.statement.names) = [] := by
  cases ds with
  | nil => exact ⟨rfl, rfl, rfl⟩
  | cons d ds =>
    have hone : (ofDirectives (d :: ds)).statement.senses = [] ∧ (ofDirectives (d :: ds)).texts = [] ∧
        (ofDirectives (d :: ds)).statement.names = [] := by
      rw [texts, ofDirectives]
      exact ⟨rfl, rfl, rfl⟩
    rw [ofDirectives?, List.isEmpty_cons, if_neg Bool.false_ne_true, List.flatMap_singleton,
      List.flatMap_singleton, List.flatMap_singleton]
    exact hone

/-- The statements of imports, with a line before the first one. -/
def ofImports : List ImportItem → List Part
  | [] => []
  | item :: items => ofImport ['\n'] item :: items.map (ofImport [])

theorem flatMap_line_ofImports (items : List ImportItem) : (ofImports items).flatMap line =
    if items.isEmpty then [] else '\n' :: items.flatMap fun item => item.render ++ ['\n'] := by
  cases items with
  | nil => rfl
  | cons item items =>
    have hrest : items.flatMap (fun item => (ofImport [] item).line) =
        items.flatMap fun item => item.render ++ ['\n'] :=
      List.flatMap_congr fun item _ => print_ofImport
    rw [ofImports, List.flatMap_cons, List.flatMap_map, hrest, line, print_ofImport,
      List.flatMap_cons]
    simp

end Part

/-- A text that is one statement with code wherever it is put. -/
def IsSelfContained (t : Text) : Prop := ∃ s, StandsAlone t s ∧ s.kind.isBody

/-- Whether the first statement of a text is all of it. -/
def isSelfContained (t : Text) : Bool :=
  (alone t).root.children.head?.any fun s =>
    decide ((alone t).errors = [] ∧ s.doc?.getD s.first = 1 ∧ s.stop + 1 = (alone t).tokens.size ∧
      ((alone t).kind? (s.stop - 1)).any TokenKind.isStop ∧
      (alone t).kind? s.stop = some .semicolon ∧
      ((alone t).kind? s.first).any TokenKind.isContinuation = false ∧
      (alone t).tokens.all (·.kind != .kwHaltCompiler) ∧ s.kind.isBody)

theorem isSelfContained_iff {t : Text} : isSelfContained t ↔ IsSelfContained t := by
  rw [isSelfContained, Option.any_eq_true]
  constructor
  · rintro ⟨s, hs, h⟩
    obtain ⟨herrors, hstart, hstop, hends, hsemicolon, hbegins, hhalts, hbody⟩ := of_decide_eq_true h
    refine ⟨s, ⟨herrors, hs, hstart, hstop, hends, hsemicolon, hbegins, fun _ _ _ hkind => ?_, hhalts⟩,
      hbody⟩
    -- The header of a namespace carries no code.
    rw [hkind] at hbody
    cases hbody
  · rintro ⟨s, h, hbody⟩
    exact ⟨s, h.first, decide_eq_true ⟨h.errors, h.start, h.stop, h.ends, h.semicolon, h.begins,
      h.halts, hbody⟩⟩

instance : DecidablePred IsSelfContained := fun _ => decidable_of_iff _ isSelfContained_iff

namespace Fragment

/-- A fragment each part of which is read as what it is. -/
structure IsWritable (f : Fragment) : Prop where
  directives : ∀ d ∈ f.directives, d.IsPlain
  once : f.directives.Pairwise fun d e => Text.eqIgnoreCase d.key e.key = false
  space : ∀ name, f.space? = some name → IsSpaceName name
  imports : ∀ item ∈ f.imports, item.IsReadable
  body : ∀ t ∈ f.body, IsSelfContained (Text.trimEnd isBlank t)

/-- The names that a text declares as a statement. -/
def declaredIn (t : Text) : List (SymbolKind × Text) :=
  (alone t).root.children.head?.elim [] Statement.names

/-- The names that the statements of a fragment declare. -/
def names (f : Fragment) : List (SymbolKind × Text) :=
  f.body.flatMap fun t => declaredIn (Text.trimEnd isBlank t)

/-- Parts that are what a fragment has. -/
structure IsMadeOf (f : Fragment) (parts : List Part) : Prop where
  imports : parts.flatMap (·.statement.senses) = f.imports.map ImportItem.sense
  body : parts.flatMap Part.texts = f.body.map (Text.trimEnd isBlank)
  names : parts.flatMap (·.statement.names) = f.names

/-- The statements of a body are parts of a row. -/
theorem exists_bodyParts {body : List Text} (h : ∀ t ∈ body, IsSelfContained (Text.trimEnd isBlank t)) :
    ∃ parts : List Part, (∀ part ∈ parts, part.IsRead) ∧
      parts.flatMap Part.line = body.flatMap (fun t => '\n' :: Text.trimEnd isBlank t ++ ['\n']) ∧
      parts.flatMap Part.texts = body.map (Text.trimEnd isBlank) ∧
      parts.flatMap (·.statement.names) = body.flatMap (fun t => declaredIn (Text.trimEnd isBlank t)) ∧
      parts.flatMap (·.statement.senses) = [] ∧
      parts.flatMap (·.statement.laterDirectives) = [] := by
  induction body with
  | nil => exact ⟨[], nofun, rfl, rfl, rfl, rfl, rfl⟩
  | cons t body ih =>
    rw [List.forall_mem_cons] at h
    obtain ⟨parts, hread, hline, htexts, hnames, hsenses, hlater⟩ := ih h.2
    obtain ⟨s, halone, hbody⟩ := h.1
    obtain ⟨part, hpart, hlead, hprint, rfl⟩ := halone.exists_part
    rw [Statement.kind_move, StatementKind.isBody_move] at hbody
    have hnone := Statement.views_of_isBody hbody
    refine ⟨part :: parts, List.forall_mem_cons.mpr ⟨hpart, hread⟩, ?_, ?_, ?_, ?_, ?_⟩
    · rw [List.flatMap_cons, List.flatMap_cons, hline, Part.line, hlead, hprint]
      rfl
    · rw [List.flatMap_cons, htexts, Part.texts, if_pos hbody, hprint]
      rfl
    · rw [List.flatMap_cons, List.flatMap_cons, hnames, declaredIn, halone.first, Option.elim_some,
        Statement.names_move]
    · rw [List.flatMap_cons, hsenses, hnone.1]
      rfl
    · rw [List.flatMap_cons, hlater, hnone.2]
      rfl

theorem senses_ofImport (lead : Text) (item : ImportItem) :
    (Part.ofImport lead item).statement.senses = [item.sense] := by
  change [item.written.sense] = [item.sense]
  rw [ImportItem.sense, ImportItem.shortName_written]
  rfl

/-- The statements of imports are parts that say what the imports say. -/
theorem views_ofImports {items : List ImportItem} (h : ∀ item ∈ items, item.IsReadable) :
    (∀ part ∈ Part.ofImports items, part.IsRead) ∧
      (Part.ofImports items).flatMap (·.statement.senses) = items.map ImportItem.sense ∧
      (Part.ofImports items).flatMap Part.texts = [] ∧
      (Part.ofImports items).flatMap (·.statement.names) = [] ∧
      (Part.ofImports items).flatMap (·.statement.laterDirectives) = [] := by
  have himport {part : Part} (hpart : part ∈ Part.ofImports items) :
      ∃ lead, lead.all Lexer.isSpace ∧ ∃ item ∈ items, part = Part.ofImport lead item := by
    cases items with
    | nil => cases hpart
    | cons item items =>
      rcases List.mem_cons.mp hpart with rfl | hpart
      · exact ⟨['\n'], rfl, item, List.mem_cons_self, rfl⟩
      · obtain ⟨other, hother, rfl⟩ := List.mem_map.mp hpart
        exact ⟨[], rfl, other, List.mem_cons_of_mem _ hother, rfl⟩
  refine ⟨fun part hpart => ?_, ?_, ?_, ?_, ?_⟩
  · obtain ⟨lead, hlead, item, hitem, rfl⟩ := himport hpart
    exact Part.ofImport_isRead hlead (h item hitem)
  · cases items with
    | nil => rfl
    | cons item items =>
      have hrest : items.flatMap (fun item => (Part.ofImport [] item).statement.senses) =
          items.map ImportItem.sense := by
        rw [List.map_eq_flatMap]
        exact List.flatMap_congr fun item _ => senses_ofImport [] item
      rw [Part.ofImports, List.flatMap_cons, List.flatMap_map, hrest, senses_ofImport]
      rfl
  · refine List.flatMap_eq_nil_iff.mpr fun part hpart => ?_
    obtain ⟨lead, -, item, -, rfl⟩ := himport hpart
    rfl
  · refine List.flatMap_eq_nil_iff.mpr fun part hpart => ?_
    obtain ⟨lead, -, item, -, rfl⟩ := himport hpart
    rfl
  · refine List.flatMap_eq_nil_iff.mpr fun part hpart => ?_
    obtain ⟨lead, -, item, -, rfl⟩ := himport hpart
    rfl

theorem addAll_of_once {found ds : List Directive}
    (h : (found ++ ds).Pairwise fun d e => Text.eqIgnoreCase d.key e.key = false) :
    Directive.addAll found ds = (found ++ ds, none) := by
  induction ds generalizing found with
  | nil => rw [List.append_nil, Directive.addAll]
  | cons d ds ih =>
    have hnew : found.find? (fun e => Text.eqIgnoreCase e.key d.key) = none := by
      rw [List.find?_eq_none]
      intro e he
      rw [(List.pairwise_append.mp h).2.2 e he d List.mem_cons_self]
      exact Bool.false_ne_true
    rw [List.append_cons] at h
    rw [Directive.addAll, hnew, ih h, ← List.append_cons]

theorem render_of_lines {f : Fragment} {pre imports body : Text}
    (hpre : renderDirectives f.directives = pre)
    (himports : (if f.imports.isEmpty then [] else
      '\n' :: f.imports.flatMap fun item => item.render ++ ['\n']) = imports)
    (hbody : (f.body.flatMap fun t => '\n' :: Text.trimEnd isBlank t ++ ['\n']) = body) :
    f.render = "<?php\n" ++ (pre ++ renderSpace f.space? ++ (imports ++ body)) := by
  have hrender : f.render = "<?php\n" ++ renderDirectives f.directives ++ renderSpace f.space? ++
      (if f.imports.isEmpty then [] else
        '\n' :: f.imports.flatMap fun item => item.render ++ ['\n']) ++
      f.body.flatMap fun t => '\n' :: Text.trimEnd isBlank t ++ ['\n'] := rfl
  rw [hrender, hpre, himports, hbody]
  simp only [List.append_assoc]

/-- The file of a fragment has what the fragment has. -/
theorem IsWritable.exists_isRow {f : Fragment} (h : f.IsWritable) : ∃ (s : Scope) (parts : List Part),
    s.space? = f.space? ∧ SourceFile.IsRow f.render s f.directives parts ∧ f.IsMadeOf parts := by
  obtain ⟨bodies, hbodies, hlines, htexts, hnames, hsenses, hlater⟩ := exists_bodyParts h.body
  obtain ⟨himports, hsensesImports, htextsImports, hnamesImports, hlaterImports⟩ :=
    views_ofImports h.imports
  have hrender : f.render = "<?php\n" ++ ((Part.ofDirectives? f.directives).flatMap Part.line ++
      renderSpace f.space? ++ (Part.ofImports f.imports ++ bodies).flatMap Part.line) := by
    rw [List.flatMap_append]
    exact render_of_lines (Part.flatMap_line_ofDirectives? _).symm
      (Part.flatMap_line_ofImports _).symm hlines.symm
  have hpost : ∀ part ∈ Part.ofImports f.imports ++ bodies, part.IsRead :=
    List.forall_mem_append.mpr ⟨himports, hbodies⟩
  have hpre : ∀ part ∈ Part.ofDirectives? f.directives, part.IsRead := by
    intro part hpart
    rw [Part.ofDirectives?] at hpart
    split at hpart
    · cases hpart
    · rename_i hsome
      rw [List.mem_singleton.mp hpart]
      exact Part.ofDirectives_isRead (fun hnil => hsome (List.isEmpty_iff.mpr hnil)) h.directives
  have hmade : f.IsMadeOf (Part.ofImports f.imports ++ bodies) := by
    refine ⟨?_, ?_, ?_⟩
    · rw [List.flatMap_append, hsensesImports, hsenses, List.append_nil]
    · rw [List.flatMap_append, htextsImports, htexts, List.nil_append]
    · rw [List.flatMap_append, hnamesImports, hnames, List.nil_append, names]
  have hwritten := Part.laterDirectives_ofDirectives? f.directives
  cases hspace : f.space? with
  | none =>
    -- Without a namespace the directives are statements of the scope, too.
    obtain ⟨s, hs, -, hrow⟩ := Part.isRow_file (List.forall_mem_append.mpr ⟨hpre, hpost⟩)
    obtain ⟨hsensesPre, htextsPre, hnamesPre⟩ := Part.views_ofDirectives? f.directives
    have htext : Piece.print (Part.file (Part.ofDirectives? f.directives ++
        (Part.ofImports f.imports ++ bodies))) = f.render := by
      rw [Part.print_file, List.flatMap_append, hrender, hspace, show renderSpace none = [] from rfl,
        List.append_nil]
    have hdirectives : (Part.ofDirectives? f.directives ++ (Part.ofImports f.imports ++ bodies)).flatMap
        (·.statement.laterDirectives) = f.directives := by
      rw [List.flatMap_append, List.flatMap_append, hwritten, hlaterImports, hlater, List.append_nil,
        List.append_nil]
    rw [htext, hdirectives] at hrow
    refine ⟨s, _, hs, hrow, ?_, ?_, ?_⟩
    · rw [List.flatMap_append, hsensesPre, hmade.imports, List.nil_append]
    · rw [List.flatMap_append, htextsPre, hmade.body, List.nil_append]
    · rw [List.flatMap_append, hnamesPre, hmade.names, List.nil_append]
  | some name =>
    obtain ⟨s, hs, -, hrow⟩ := Part.isRow_file_space (h.space name hspace) hpre hpost
    have htext : Piece.print (Part.file (Part.ofDirectives? f.directives ++ Part.ofSpace name ::
        (Part.ofImports f.imports ++ bodies))) = f.render := by
      rw [Part.print_file, List.flatMap_append, List.flatMap_cons, Part.line, Part.print_ofSpace, hrender,
        hspace, List.append_assoc]
    rw [htext, hwritten] at hrow
    exact ⟨s, _, hs, hrow, hmade⟩

theorem IsWritable.exists_ofText_render {f : Fragment} (h : f.IsWritable) : ∃ g,
    ofText f.render = .ok g ∧ g.directives = f.directives ∧ g.space? = f.space? ∧
      g.imports.map ImportItem.sense = f.imports.map ImportItem.sense ∧
      g.body = f.body.map (Text.trimEnd isBlank) := by
  obtain ⟨s, parts, hspace, hrow, hmade⟩ := h.exists_isRow
  obtain ⟨g, hg, hdirectives, hgspace, himports, hbody⟩ := hrow.exists_ofText (addAll_of_once h.once)
  exact ⟨g, hg, hdirectives, hgspace.trans hspace, himports.trans hmade.imports,
    hbody.trans hmade.body⟩

end Fragment

end NamespaceMigration
