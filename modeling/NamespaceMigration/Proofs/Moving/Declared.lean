import NamespaceMigration.Proofs.Moving.ClassNames

/-! Declarations that are cut out of a file. Before a line break at the end of another file such a declaration
is the statement that it was. -/
namespace NamespaceMigration

open Lexer (pieces Lexes Closed)
open SourceFile (parse)
open BracketMatching (ofKinds nest)
open NamespaceMigration.Parser (Parsed isNamespaceHeader statement)

namespace Code

theorem Level.nest_pieces {t : Text} {before ps after : List Piece} (ht : pieces t = before ++ ps ++ after)
    (h : (ofText t).Level (Piece.code before).length ((Piece.code before).length + (Piece.code ps).length)) :
    nest [] ((Piece.code ps).map (·.1)) = some [] := by
  obtain ⟨kinds, hkinds, hlength, hnest⟩ := h
  have hspells := Parser.spells_pieces ht
  rw [Parser.spells_iff] at hkinds hspells
  have hlength : kinds.length = (Piece.code ps).length := (Nat.add_left_cancel hlength).symm
  obtain rfl : kinds = (Piece.code ps).map (·.1) := by
    refine List.ext_getElem (by rw [hlength, List.length_map]) fun i hi hi' => ?_
    have h := hkinds i _ (List.getElem?_eq_getElem hi)
    rw [hspells i _ (List.getElem?_eq_getElem hi')] at h
    exact (Option.some.inj h).symm
  exact hnest

end Code

theorem Word.keywordKind?_enum {word : Text} (h : Text.eqIgnoreCase word "enum") : keywordKind? word = none := by
  have hlower : word.toLowerAscii = Text.toLowerAscii "enum".toList := eq_of_beq h
  rw [keywordKind?, hlower]
  decide

namespace IsSlice

variable {t : Text} {s : Statement} {first p n : Nat} {before ps after : List Piece}
  (h : IsSlice t s first p n before ps after)
include h

theorem pos (hs : s.Covers (.ofText t) p n) : 0 < (Piece.code ps).length := by
  have := hs.lt
  have := h.start
  have := h.next
  omega

theorem ne_nil (hs : s.Covers (.ofText t) p n) : ps ≠ [] := by
  rintro rfl
  exact absurd (h.pos hs) (Nat.lt_irrefl 0)

/-- With the comment that documents it a statement begins with that, or with its first word. -/
theorem starts (hs : s.Covers (.ofText t) p n) (hleads : s.doc? = (Code.ofText t).leadingDoc? s.first)
    (hfirst : first = s.start) :
    (∃ text rest, ps = (.docComment, text) :: rest) ∨ first = s.first ∧
      (Code.ofText t).leadingDoc? before.length = none := by
  rw [Statement.start] at hfirst
  cases hdoc : s.doc? with
  | none =>
    rw [hdoc] at hfirst
    refine .inr ⟨hfirst, ?_⟩
    rw [h.first, show first = s.first from hfirst, ← hleads, hdoc]
  | some doc =>
    left
    rw [hdoc] at hfirst
    obtain rfl : first = doc := hfirst
    rw [hleads] at hdoc
    have hkind := Code.kind_leadingDoc? hdoc
    rw [h.pieces, List.append_assoc, ← h.first, List.getElem?_append_right (Nat.le_refl _), Nat.sub_self] at hkind
    obtain ⟨q, rest, rfl⟩ := List.exists_cons_of_ne_nil (h.ne_nil hs)
    obtain ⟨kind, text⟩ := q
    obtain rfl : kind = .docComment := Option.some.inj hkind
    exact ⟨text, rest, rfl⟩

theorem isCut (hs : s.Covers (.ofText t) p n) (hleads : s.doc? = (Code.ofText t).leadingDoc? s.first)
    (hfirst : first = s.start)
    (hbegins : ∀ kind, (Code.ofText t).kind? p = some kind → kind.isOutside = false)
    (hword : (Code.ofText t).kind? p = some .ident → Word.keywordKind? ((Code.ofText t).text p) = none)
    (hends : ((parse t).kind? (s.stop - 1)).any TokenKind.isStop) : IsCut ps where
  head q hq := by
    rcases h.starts hs hleads hfirst with ⟨text, rest, rfl⟩ | ⟨hsame, -⟩
    · obtain rfl := Option.some.inj hq
      rfl
    · obtain ⟨q', rest, rfl, -, hkind⟩ := h.exists_first hs hsame
      obtain rfl := Option.some.inj hq
      exact hbegins _ hkind
  word q hq := by
    rw [List.head?_eq_getElem?] at hq
    obtain ⟨hkind, htext⟩ := Code.piece_at h.pieces hq
    rw [Nat.add_zero, h.start] at hkind htext
    intro hident
    rw [← htext]
    exact hword (by rw [hkind, hident])
  ends := by
    obtain ⟨init, q, hinit, hq⟩ := h.exists_last (h.ne_nil hs)
    exact ⟨init, q, hinit, by rwa [hq, Option.any_some] at hends⟩

end IsSlice

/-- Constants and conditions begin with a word of their own. -/
theorem Parser.kind_of_reading {c : Code} {depth p n : Nat} {s : Statement}
    (h : statement c (depth + 1) p = ⟨s, n, []⟩) :
    (∀ names, s.kind = .constants names → c.kind? p = some .kwConst) ∧
      (s.kind = .conditional → c.kind? p = some .kwIf) := by
  have hvalue : (shape c (statement c depth) p).value.1 = s.kind := congrArg (·.value.kind) h
  have hdeclaration : (∀ names, (declaration c p).value ≠ .constants names) ∧
      (declaration c p).value ≠ .conditional := by
    rw [declaration]
    dsimp only
    split
    · exact ⟨fun _ => StatementKind.noConfusion, StatementKind.noConfusion⟩
    · split <;> exact ⟨fun _ => StatementKind.noConfusion, StatementKind.noConfusion⟩
  have huse : (∀ names, (useStatement c p).value ≠ .constants names) ∧
      (useStatement c p).value ≠ .conditional := by
    rw [useStatement]
    dsimp only
    split
    · exact ⟨fun _ => StatementKind.noConfusion, StatementKind.noConfusion⟩
    · split <;> exact ⟨fun _ => StatementKind.noConfusion, StatementKind.noConfusion⟩
  suffices hnone : c.kind? p = some .kwConst ∧ s.kind ≠ .conditional ∨
      c.kind? p = some .kwIf ∧ (∀ names, s.kind ≠ .constants names) ∨
      (∀ names, s.kind ≠ .constants names) ∧ s.kind ≠ .conditional by
    rcases hnone with ⟨hkind, hother⟩ | ⟨hkind, hother⟩ | ⟨hconstants, hconditional⟩
    · exact ⟨fun _ _ => hkind, fun h => absurd h hother⟩
    · exact ⟨fun names h => absurd h (hother names), fun _ => hkind⟩
    · exact ⟨fun names h => absurd h (hconstants names), fun h => absurd h hconditional⟩
  rw [← hvalue, shape]
  split
  case h_4 => exact .inr (.inr huse)
  case h_5 hkind => exact .inl ⟨hkind, StatementKind.noConfusion⟩
  case h_6 =>
    split
    · rw [declareStatement]
      dsimp only
      split_ifs <;> exact .inr (.inr ⟨fun _ => StatementKind.noConfusion, StatementKind.noConfusion⟩)
    · exact .inr (.inr hdeclaration)
  case h_7 hkind => exact .inr (.inl ⟨hkind, fun _ => StatementKind.noConfusion⟩)
  case h_11 =>
    split
    · exact .inr (.inr ⟨fun _ => StatementKind.noConfusion, StatementKind.noConfusion⟩)
    · exact .inr (.inr hdeclaration)
  case h_12 => exact .inr (.inr hdeclaration)
  all_goals exact .inr (.inr ⟨fun _ => StatementKind.noConfusion, StatementKind.noConfusion⟩)

/-- Whether a statement is a declaration that can be planned. -/
def StatementKind.isDeclaration : StatementKind → Bool
  | .classLike .. | .function .. | .constants _ | .conditional => true
  | _ => false

theorem StatementKind.cases_of_isDeclaration {kind : StatementKind} (h : kind.isDeclaration) :
    kind.isNamed ∨ (∃ names, kind = .constants names) ∨ kind = .conditional := by
  cases kind <;> first
    | exact .inl rfl
    | exact .inr (.inl ⟨_, rfl⟩)
    | exact .inr (.inr rfl)
    | cases h

theorem Statement.isPlain_of_isDeclaration {s : Statement} (h : s.kind.isDeclaration) : s.IsPlain := by
  intro name? token? braced hspace
  rw [hspace] at h
  cases h

namespace SourceFile

variable {t : Text}

theorem doc?_of_mem {l : Located} (hl : l ∈ (parse t).outline.tail) :
    l.statement.doc? = (Code.ofText t).leadingDoc? l.statement.first := by
  obtain ⟨_, _, hplaced⟩ := exists_placed hl
  exact hplaced.doc

theorem start_le_first {l : Located} (hl : l ∈ (parse t).outline.tail) : l.statement.start ≤ l.statement.first := by
  obtain ⟨_, _, hplaced⟩ := exists_placed hl
  exact hplaced.start_le

theorem trivia_of_start {l : Located} (hl : l ∈ (parse t).outline.tail) :
    ∀ k, l.statement.start ≤ k → k < l.statement.first →
      ∃ token, (Code.ofText t).tokens[k]? = some token ∧ token.kind.isTrivia := by
  intro k hle hlt
  cases hdoc : l.statement.doc? with
  | none =>
    rw [Statement.start, hdoc, Option.getD_none] at hle
    omega
  | some doc =>
    rw [Statement.start, hdoc, Option.getD_some] at hle
    rw [doc?_of_mem hl] at hdoc
    exact (Code.leadingDoc?_eq_some hdoc).2 k hle hlt

/-- The kinds of the code of a statement. -/
def codeKinds (f : SourceFile) (s : Statement) : List TokenKind :=
  (((f.tokens.toList.take s.stop).drop s.first).map (·.kind)).filter fun kind => !kind.isTrivia

/-- A declaration that is a statement of its own: a sign ends it that ends statements, and the brackets of a
condition match in themselves. -/
structure IsWhole (f : SourceFile) (s : Statement) : Prop where
  kind : s.kind.isDeclaration
  ends : (f.kind? (s.stop - 1)).any TokenKind.isStop
  balanced : s.kind = .conditional → (ofKinds (f.codeKinds s)).faults = []

/-- How a declaration is cut out of a text: where it is read, and what its pieces are. -/
structure IsCutOut (t : Text) (s : Statement) (p n : Nat) (before ps after : List Piece) : Prop where
  read : statement (.ofText t) ((Code.ofText t).size + 1) p = ⟨s, n, []⟩
  covers : s.Covers (.ofText t) p n
  doc : s.doc? = (Code.ofText t).leadingDoc? s.first
  slice : IsSlice t s s.start p n before ps after
  closed : Closed ps
  cut : IsCut ps
  balanced : (ofKinds ((Piece.code ps).map (·.1))).faults = []
  begins : ∃ first, (Code.ofText t).kind? p = some first ∧ first.isContinuation = false ∧ first ≠ .kwNamespace

/-- The code of a statement is that of its pieces. -/
theorem codeKinds_eq {s : Statement} {p n : Nat} {before ps after : List Piece} (hs : s.Covers (.ofText t) p n)
    (hslice : IsSlice t s s.start p n before ps after) :
    (parse t).codeKinds s = (Piece.code ps).map (·.1) := by
  obtain ⟨before', ps', after', hslice'⟩ := hs.exists_slice (Nat.le_refl _) fun k hle hlt => by omega
  have hcode : Piece.code ps' = Piece.code ps := by
    have hboth := congrArg Piece.code (hslice'.pieces.symm.trans hslice.pieces)
    simp only [Piece.code_append, List.append_assoc] at hboth
    have hrest := (List.append_inj hboth (hslice'.start.trans hslice.start.symm)).2
    have hstart := hslice.start
    have hstart' := hslice'.start
    have hnext := hslice.next
    have hnext' := hslice'.next
    exact (List.append_inj hrest (by omega)).1
  have hkinds (k : Nat) (tokens : List Token) : ((tokens.take s.stop).drop k).map (·.kind) =
      (((tokens.map fun token => (token.kind, token.text)).take s.stop).drop k).map (·.1) := by
    rw [← List.map_take, ← List.map_drop, List.map_map]
    rfl
  have hpieces : ((pieces t).take s.stop).drop s.first = ps' := by
    rw [hslice'.pieces, ← hslice'.stop, ← hslice'.first, List.append_assoc, List.take_length_add_append,
      List.drop_left, List.take_left]
  rw [codeKinds, hkinds, ← hcode, Piece.map_code, ← hpieces]
  rfl

/-- The brackets of a declaration match in themselves. -/
theorem IsWhole.faults {s : Statement} {p n : Nat} {before ps after : List Piece} (h : (parse t).IsWhole s)
    (hfaults : (Code.ofText t).matching.faults = []) (hclear : (Code.ofText t).IsClear p)
    (hread : statement (.ofText t) ((Code.ofText t).size + 1) p = ⟨s, n, []⟩) (hs : s.Covers (.ofText t) p n)
    (hslice : IsSlice t s s.start p n before ps after) : (ofKinds ((Piece.code ps).map (·.1))).faults = [] := by
  have hnest (hlevel : (Code.ofText t).Level p n) : (ofKinds ((Piece.code ps).map (·.1))).faults = [] := by
    refine BracketMatching.faults_of_nest (Code.Level.nest_pieces hslice.pieces ?_)
    rw [hslice.next, hslice.start]
    exact hlevel
  rcases StatementKind.cases_of_isDeclaration h.kind with hnamed | ⟨names, hnames⟩ | hconditional
  · obtain ⟨opener, hdeclares, hbrace, rfl⟩ := Parser.declares_of_reading hread hnamed
    exact hnest (hdeclares.level hfaults hclear hbrace)
  · have hconst := (Parser.kind_of_reading hread).1 names hnames
    rw [Parser.statement, Parser.shape, hconst] at hread
    have hnext : (Parser.skipStatement (.ofText t) p).next = n := congrArg Parsed.next hread
    have herrors : (Parser.skipStatement (.ofText t) p).errors = [] := congrArg Parsed.errors hread
    rw [Parser.statementEnd_eq herrors] at hnext
    exact hnest (hnext ▸ Parser.statementEnd_level hfaults _ _)
  · rw [← codeKinds_eq hs hslice]
    exact h.balanced hconditional

theorem exists_isCutOut (herrors : (parse t).errors = []) (hhalts : ∀ p ∈ pieces t, p.1 ≠ .kwHaltCompiler)
    {l : Located} (hl : l ∈ (parse t).outline.tail) (hwhole : (parse t).IsWhole l.statement) :
    ∃ p n before ps after, IsCutOut t l.statement p n before ps after := by
  have hfaults := faults_of_errors herrors
  obtain ⟨p, n, hp, hclear, hread⟩ := exists_reading herrors hl (Statement.isPlain_of_isDeclaration hwhole.kind)
  have hcovers := Parser.covers_of_reading (Code.ordered_ofTokens _ _) hp hread
  have hdoc := doc?_of_mem hl
  obtain ⟨before, ps, after, hslice⟩ := hcovers.exists_slice (start_le_first hl) (trivia_of_start hl)
  obtain ⟨first, hfirst, hplain, hgoes, hspace, hword⟩ : ∃ first, (Code.ofText t).kind? p = some first ∧
      first.isOutside = false ∧ first.isContinuation = false ∧ first ≠ .kwNamespace ∧
      (first = .ident → Word.keywordKind? ((Code.ofText t).text p) = none) := by
    rcases StatementKind.cases_of_isDeclaration hwhole.kind with hnamed | ⟨names, hnames⟩ | hconditional
    · obtain ⟨opener, hdeclares, -⟩ := Parser.declares_of_reading hread hnamed
      obtain ⟨first, hfirst, hbegins⟩ := hdeclares.exists_kind
      refine ⟨first, hfirst, ?_⟩
      rcases hbegins with hmodifier | hmem | ⟨rfl, -, henum⟩
      · cases first <;> first
          | exact ⟨rfl, rfl, TokenKind.noConfusion, TokenKind.noConfusion⟩
          | cases hmodifier
      · simp only [List.mem_cons, List.not_mem_nil, or_false] at hmem
        rcases hmem with rfl | rfl | rfl | rfl <;> exact ⟨rfl, rfl, TokenKind.noConfusion, TokenKind.noConfusion⟩
      · exact ⟨rfl, rfl, TokenKind.noConfusion, fun _ => Word.keywordKind?_enum henum⟩
    · exact ⟨_, (Parser.kind_of_reading hread).1 names hnames, rfl, rfl, TokenKind.noConfusion,
        TokenKind.noConfusion⟩
    · exact ⟨_, (Parser.kind_of_reading hread).2 hconditional, rfl, rfl, TokenKind.noConfusion,
        TokenKind.noConfusion⟩
  have hcut : IsCut ps := by
    refine hslice.isCut hcovers hdoc rfl (fun kind hkind => ?_) (fun hident => ?_) hwhole.ends
    · rw [← Option.some.inj (hfirst.symm.trans hkind)]
      exact hplain
    · exact hword (Option.some.inj (hfirst.symm.trans hident))
  exact ⟨p, n, before, ps, after, hread, hcovers, hdoc, hslice, hslice.closed hcut hfaults hhalts, hcut,
    hwhole.faults hfaults hclear hread hcovers hslice, first, hfirst, hgoes, hspace⟩

end SourceFile
end NamespaceMigration
