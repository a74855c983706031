import NamespaceMigration.Adaptation.Fragment
import NamespaceMigration.Proofs.Rendering.Reading
import NamespaceMigration.Proofs.Rendering.Words

/-! The statement that an import is written as is read back as this import. -/
namespace NamespaceMigration

open Lexer (pieces Lexes nameKind IsName IsWordOf)
open NamespaceMigration.Parser (Parsed importItems importAlias importKind?)

namespace ImportItem

/-- The word before the name of an import of a kind. -/
def wordBefore : SymbolKind → TokenKind
  | .type => .kwUse
  | .function => .kwFunction
  | .constant => .kwConst

/-- An import whose names are read as names where they are written. -/
structure IsReadable (item : ImportItem) : Prop where
  name : IsName item.name
  kind : nameKind (some (wordBefore item.kind)) item.name = .ident ∨
    nameKind (some (wordBefore item.kind)) item.name = .nameQualified
  short : ∀ short, item.alias? = some short → IsWordOf short

/-- The alias of an import, if it is written. -/
def writtenAlias? (item : ImportItem) : Option Text :=
  item.alias?.bind fun short => if short = lastSegment item.name then none else some short

def wordPieces : SymbolKind → List Piece
  | .type => []
  | .function => [(.kwFunction, "function"), (.whitespace, [' '])]
  | .constant => [(.kwConst, "const"), (.whitespace, [' '])]

def aliasPieces : Option Text → List Piece
  | none => []
  | some short => [(.whitespace, [' ']), (.kwAs, "as"), (.whitespace, [' ']), (.ident, short)]

/-- The name of an import and what comes after it. -/
def namePieces (item : ImportItem) : List Piece :=
  (nameKind (some (wordBefore item.kind)) item.name, item.name) :: aliasPieces item.writtenAlias?

/-- The import as it is read back. -/
def written (item : ImportItem) : ImportItem where
  kind := item.kind
  name := item.name
  alias? := item.writtenAlias?
  nameToken := 2 + (wordPieces item.kind).length
  groupLead? := none

theorem shortName_written (item : ImportItem) : item.written.shortName = item.shortName := by
  rw [shortName, shortName, written, writtenAlias?]
  cases item.alias? with
  | none => rfl
  | some short =>
    by_cases hshort : short = lastSegment item.name
    · simp [hshort]
    · simp [hshort]

theorem IsReadable.writtenAlias {item : ImportItem} (h : item.IsReadable) {short : Text}
    (hshort : item.writtenAlias? = some short) : IsWordOf short := by
  obtain ⟨short', halias, hwritten⟩ := Option.bind_eq_some_iff.mp hshort
  split at hwritten
  · cases hwritten
  · obtain rfl := Option.some.inj hwritten
    exact h.short _ halias

theorem lexes_aliasPieces {item : ImportItem} (h : item.IsReadable) {last : Option TokenKind}
    (hlast : last.any TokenKind.makesNextIdent = false) :
    Lexes (.inside last) (aliasPieces item.writtenAlias? ++ [(.semicolon, [';'])]) := by
  cases hshort : item.writtenAlias? with
  | none => exact Lexer.lexes_sign rfl rfl (.nil _)
  | some short =>
    have hword := h.writtenAlias hshort
    obtain ⟨c, u, rfl⟩ := List.exists_cons_of_ne_nil hword.name.ne_nil
    have hc : Lexer.isNameStart c := by simpa using hword.name.1
    have has : nameKind last "as" = .kwAs := by
      rw [nameKind, if_neg (by decide), hlast]
      rfl
    refine Lexer.lexes_blank rfl (Lexer.lexes_word (by decide) has rfl rfl ?_)
    refine Lexer.lexes_blank ?_ (Lexer.lexes_word hword.name (hword.nameKind _) rfl rfl ?_)
    · change ((c :: u ++ _ : Text).head?).any Lexer.isSpace = false
      rw [List.cons_append, List.head?_cons, Option.any_some, Lexer.not_isSpace_of_isNameStart hc]
    · exact Lexer.lexes_sign rfl rfl (.nil _)

theorem lexes_namePieces {item : ImportItem} (h : item.IsReadable) :
    Lexes (.inside (some (wordBefore item.kind))) (item.namePieces ++ [(.semicolon, [';'])]) := by
  have hnext : (Lexer.State.inside (some (wordBefore item.kind))).next
      (nameKind (some (wordBefore item.kind)) item.name) =
        .inside (some (nameKind (some (wordBefore item.kind)) item.name)) := by
    rcases h.kind with hkind | hkind <;> rw [hkind] <;> rfl
  refine Lexer.lexes_word h.name rfl hnext ?_ (lexes_aliasPieces h ?_)
  · cases item.writtenAlias? <;> rfl
  · rcases h.kind with hkind | hkind <;> rw [hkind] <;> rfl

/-- The pieces of an import after the first word are scanned one by one. -/
theorem lexes_import {item : ImportItem} (h : item.IsReadable) :
    Lexes (.inside (some .kwUse))
      ((.whitespace, [' ']) :: (wordPieces item.kind ++ item.namePieces ++ [(.semicolon, [';'])])) := by
  have hnames := lexes_namePieces h
  have hvisible : (Piece.print (item.namePieces ++ [(.semicolon, [';'])])).head?.any Lexer.isSpace =
      false := by
    obtain ⟨c, u, hname⟩ := List.exists_cons_of_ne_nil h.name.ne_nil
    have hc : Lexer.isNameStart c := by simpa [hname] using h.name.1
    change ((item.name ++ _ : Text).head?).any Lexer.isSpace = false
    rw [hname, List.cons_append, List.head?_cons, Option.any_some, Lexer.not_isSpace_of_isNameStart hc]
  cases hkind : item.kind with
  | type =>
    rw [hkind] at hnames
    exact Lexer.lexes_blank hvisible hnames
  | function =>
    rw [hkind] at hnames
    refine Lexer.lexes_blank rfl (Lexer.lexes_word (by decide) rfl rfl rfl ?_)
    exact Lexer.lexes_blank hvisible hnames
  | constant =>
    rw [hkind] at hnames
    refine Lexer.lexes_blank rfl (Lexer.lexes_word (by decide) rfl rfl rfl ?_)
    exact Lexer.lexes_blank hvisible hnames

end ImportItem

namespace Part

/-- The statement of an import. -/
def ofImport (lead : Text) (item : ImportItem) : Part where
  lead
  content := ((.kwUse, "use".toList) :: (.whitespace, [' ']) ::
    (ImportItem.wordPieces item.kind ++ item.namePieces)) ++ [(.semicolon, [';'])]
  statement := ⟨.imports [item.written], 0,
    3 + (ImportItem.wordPieces item.kind).length + item.namePieces.length, none, []⟩

section OfImport

variable {lead : Text} {item : ImportItem}

theorem print_ofImport : (ofImport lead item).lead ++ Piece.print (ofImport lead item).content ++ ['\n'] =
    lead ++ item.render ++ ['\n'] := by
  unfold ImportItem.render
  rw [ofImport, ImportItem.namePieces, ImportItem.writtenAlias?]
  cases item.kind <;> cases item.alias? with
  | none => simp [ImportItem.wordPieces, ImportItem.aliasPieces, SymbolKind.useKeyword?]
  | some short =>
    by_cases hshort : short = lastSegment item.name
    · simp [ImportItem.wordPieces, ImportItem.aliasPieces, SymbolKind.useKeyword?, hshort]
    · simp [ImportItem.wordPieces, ImportItem.aliasPieces, SymbolKind.useKeyword?, hshort]

theorem ofImport_isClosed (hlead : lead.all Lexer.isSpace) (h : item.IsReadable) :
    (ofImport lead item).IsClosed where
  lead := hlead
  closed := by
    refine Lexer.closed_of_lexes ?_ fun p hp => ?_
    · change Lexes (.inside none) _
      have hrest := ImportItem.lexes_import h
      rw [List.cons_append]
      refine Lexer.lexes_word (by decide) rfl rfl rfl ?_
      exact hrest
    · have hname : nameKind (some (ImportItem.wordBefore item.kind)) item.name ≠ .error ∧
          nameKind (some (ImportItem.wordBefore item.kind)) item.name ≠ .kwHaltCompiler := by
        rcases h.kind with hkind | hkind <;> rw [hkind] <;> decide
      have hword (kind : SymbolKind) : ∀ p ∈ ImportItem.wordPieces kind,
          p.1 ≠ .error ∧ p.1 ≠ .kwHaltCompiler := by
        cases kind <;> simp [ImportItem.wordPieces]
      have halias (short? : Option Text) : ∀ p ∈ ImportItem.aliasPieces short?,
          p.1 ≠ .error ∧ p.1 ≠ .kwHaltCompiler := by
        cases short? <;> simp [ImportItem.aliasPieces]
      simp only [List.mem_cons, List.mem_append, ImportItem.namePieces] at hp
      rcases hp with rfl | rfl | hp | rfl | hp
      · decide
      · decide
      · exact hword _ p hp
      · exact hname
      · exact halias _ p hp
  visible := rfl
  ends := ⟨_, _, rfl, rfl⟩

theorem importItems_one {c : Code} (kind : SymbolKind) (fuel : Nat) {p next : Nat} {alias? : Option Text}
    (hname : c.isAtAny [.ident, .nameQualified, .nameFullyQualified] p) (htext : IsName (c.text p))
    (halias : importAlias c (p + 1) = (alias?, next)) (hgroup : c.isAt .backslash (p + 1) = false)
    (hnext : c.isAt .comma next = false) :
    importItems c kind (fuel + 1) p = .ok ([⟨kind, c.text p, alias?, c.tokenIndex p, none⟩], next) := by
  rw [importItems, hname, hgroup, halias, htext.dropBackslashes]
  simp only [Bool.not_true, Bool.false_eq_true, false_and, if_false]
  change (if c.isAt .comma next = true then _ else _) = _
  rw [hnext, if_neg Bool.false_ne_true]

section Read

variable {t : Text} {before after : List Piece}

/-- The alias after the name of an import, up to the end of the statement. -/
theorem importAlias_aliasPieces {alias? : Option Text}
    (ht : pieces t = before ++ ImportItem.aliasPieces alias? ++ (.semicolon, [';']) :: after) :
    importAlias (.ofText t) (Piece.code before).length =
        (alias?, (Piece.code (before ++ ImportItem.aliasPieces alias?)).length) ∧
      (Code.ofText t).isAt .backslash (Piece.code before).length = false := by
  cases alias? with
  | none =>
    have hpieces : pieces t = before ++ (.semicolon, [';']) :: after := by
      simpa [ImportItem.aliasPieces] using ht
    have hend := (Code.token_at hpieces rfl).1
    simp [importAlias, Code.isAt, hend, ImportItem.aliasPieces]
  | some short =>
    have hword : pieces t = (before ++ [(.whitespace, [' '])]) ++ (.kwAs, "as".toList) ::
        (.whitespace, [' ']) :: (.ident, short) :: (.semicolon, [';']) :: after := by
      simpa [ImportItem.aliasPieces] using ht
    have hshort : pieces t = (before ++ [(.whitespace, [' ']), (.kwAs, "as".toList), (.whitespace, [' '])]) ++
        (.ident, short) :: (.semicolon, [';']) :: after := by
      simpa [ImportItem.aliasPieces] using ht
    have hword := Code.token_at hword rfl
    have hshort := Code.token_at hshort rfl
    simp only [Piece.code_append, Piece.code_cons, TokenKind.isTrivia] at hword hshort
    simp [importAlias, Code.isAt, ImportItem.aliasPieces, Piece.code_cons, TokenKind.isTrivia] at hword hshort ⊢
    simp [hword, hshort]

variable (h : item.IsReadable) (ht : pieces t = before ++ (ofImport lead item).content ++ after)
include h ht

/-- What is imported is said before the name. -/
theorem importKind?_ofImport :
    (importKind? (.ofText t) ((Piece.code before).length + 1)).getD .type = item.kind ∧
      Parser.afterImportKind (.ofText t) ((Piece.code before).length + 1) =
        (Piece.code (before ++ (.kwUse, "use".toList) :: (.whitespace, [' ']) ::
          ImportItem.wordPieces item.kind)).length := by
  have hname : pieces t = (before ++ (.kwUse, "use".toList) :: (.whitespace, [' ']) ::
      ImportItem.wordPieces item.kind) ++
        (nameKind (some (ImportItem.wordBefore item.kind)) item.name, item.name) ::
          (ImportItem.aliasPieces item.writtenAlias? ++ (.semicolon, [';']) :: after) := by
    rw [ht, ofImport, ImportItem.namePieces]
    simp
  cases hkind : item.kind with
  | type =>
    rw [hkind] at hname
    have hword := (Code.token_at hname (by
      rcases h.kind with hk | hk <;> rw [hkind] at hk <;> rw [hk] <;> rfl)).1
    have hlength : (Piece.code (before ++ (.kwUse, "use".toList) :: (.whitespace, [' ']) ::
        ImportItem.wordPieces .type)).length = (Piece.code before).length + 1 := by
      simp [ImportItem.wordPieces, Piece.code_cons, TokenKind.isTrivia]
    rw [hlength] at hword ⊢
    have hnone : importKind? (.ofText t) ((Piece.code before).length + 1) = none := by
      rw [importKind?, hword]
      rcases h.kind with hk | hk <;> rw [hkind] at hk <;> rw [hk]
    simp [hnone, Parser.afterImportKind]
  | function =>
    have hword : pieces t = (before ++ [(.kwUse, "use".toList), (.whitespace, [' '])]) ++
        (.kwFunction, "function".toList) :: (.whitespace, [' ']) ::
          (item.namePieces ++ (.semicolon, [';']) :: after) := by
      rw [ht, ofImport, hkind]
      simp [ImportItem.wordPieces]
    have hword := (Code.token_at hword rfl).1
    have hlength : (Piece.code (before ++ [(.kwUse, "use".toList), (.whitespace, [' '])])).length =
        (Piece.code before).length + 1 := by
      simp [Piece.code_cons, TokenKind.isTrivia]
    rw [hlength] at hword
    simp [importKind?, hword, Parser.afterImportKind, ImportItem.wordPieces, Piece.code_cons,
      TokenKind.isTrivia]
  | constant =>
    have hword : pieces t = (before ++ [(.kwUse, "use".toList), (.whitespace, [' '])]) ++
        (.kwConst, "const".toList) :: (.whitespace, [' ']) ::
          (item.namePieces ++ (.semicolon, [';']) :: after) := by
      rw [ht, ofImport, hkind]
      simp [ImportItem.wordPieces]
    have hword := (Code.token_at hword rfl).1
    have hlength : (Piece.code (before ++ [(.kwUse, "use".toList), (.whitespace, [' '])])).length =
        (Piece.code before).length + 1 := by
      simp [Piece.code_cons, TokenKind.isTrivia]
    rw [hlength] at hword
    simp [importKind?, hword, Parser.afterImportKind, ImportItem.wordPieces, Piece.code_cons,
      TokenKind.isTrivia]

theorem useStatement_ofImport :
    Parser.useStatement (.ofText t) (Piece.code before).length =
      ⟨.imports [item.written.move before.length],
        (Piece.code (before ++ (ofImport lead item).content)).length, []⟩ := by
  obtain ⟨hkind, hstart⟩ := importKind?_ofImport h ht
  have hnameKind : nameKind (some (ImportItem.wordBefore item.kind)) item.name ∈
      [.ident, .nameQualified, .nameFullyQualified] := by
    rcases h.kind with hk | hk <;> rw [hk] <;> decide
  have htrivia : (nameKind (some (ImportItem.wordBefore item.kind)) item.name).isTrivia = false := by
    rcases h.kind with hk | hk <;> rw [hk] <;> rfl
  set init := before ++ (.kwUse, "use".toList) :: (.whitespace, [' ']) ::
    ImportItem.wordPieces item.kind with hinit
  set name : Piece := (nameKind (some (ImportItem.wordBefore item.kind)) item.name, item.name) with hname
  have hpieces : pieces t = init ++ name ::
      (ImportItem.aliasPieces item.writtenAlias? ++ (.semicolon, [';']) :: after) := by
    rw [ht, ofImport, ImportItem.namePieces]
    simp [hinit, hname]
  have halias : pieces t = (init ++ [name]) ++ ImportItem.aliasPieces item.writtenAlias? ++
      (.semicolon, [';']) :: after := by
    rw [hpieces]
    simp
  have hend : pieces t = (init ++ [name] ++ ImportItem.aliasPieces item.writtenAlias?) ++
      (.semicolon, [';']) :: after := halias
  obtain ⟨hnameAt, htext, hindex⟩ := Code.token_at hpieces htrivia
  have hlength : (Piece.code (init ++ [name])).length = (Piece.code init).length + 1 := by
    simp [Piece.code_cons, htrivia, hname]
  obtain ⟨hread, hgroup⟩ := importAlias_aliasPieces halias
  have hstop := (Code.token_at hend rfl).1
  rw [hlength] at hread hgroup
  have hwhole : (Piece.code (before ++ (ofImport lead item).content)).length =
      (Piece.code (init ++ [name] ++ ImportItem.aliasPieces item.writtenAlias?)).length + 1 := by
    have hcontent : before ++ (ofImport lead item).content =
        (init ++ [name] ++ ImportItem.aliasPieces item.writtenAlias?) ++ [(.semicolon, [';'])] := by
      rw [ofImport, ImportItem.namePieces]
      simp [hinit, hname]
    rw [hcontent, Piece.code_append, List.length_append]
    rfl
  have hmove : item.written.move before.length =
      ⟨item.kind, item.name, item.writtenAlias?, init.length, none⟩ := by
    simp [ImportItem.move, ImportItem.written, hinit]
    omega
  rw [hwhole]
  generalize (Piece.code (init ++ [name] ++ ImportItem.aliasPieces item.writtenAlias?)).length = next at *
  have hnot : (Code.ofText t).isAt .comma next = false := by rw [Code.isAt, hstop]; rfl
  have hitems := importItems_one item.kind (Code.ofText t).size
    (by simpa [Code.isAtAny, hnameAt] using hnameKind) (by rw [htext]; exact h.name) hread hgroup hnot
  have hterminator : Parser.isTerminator (.ofText t) next := by
    rw [Parser.isTerminator, Code.isAtAny, hstop]
    rfl
  rw [Parser.useStatement]
  dsimp only
  rw [hkind, hstart, hitems, htext, hindex]
  dsimp only
  rw [if_pos hterminator, Parser.terminator, if_pos hterminator, hmove]

end Read

/-- The statement is read back with the import. -/
theorem ofImport_isRead (hlead : lead.all Lexer.isSpace) (h : item.IsReadable) :
    (ofImport lead item).IsRead where
  toIsClosed := ofImport_isClosed hlead h
  first := rfl
  first_lt := by simp [ofImport]
  last := by
    simp only [ofImport, List.length_append, List.length_cons, List.length_nil]
    omega
  start := ⟨_, _, rfl, rfl⟩
  plain _ _ _ h := nomatch h
  header p q rest hcode hp := by
    obtain ⟨rfl, -⟩ := List.cons.inj hcode
    cases hp
  reads t before after ht hdoc hnext := by
    have hkind := (Code.piece_at ht (i := 0) (p := (.kwUse, "use".toList)) rfl).1
    have hwhole : (ofImport lead item).statement =
        ⟨.imports [item.written], 0, (ofImport lead item).content.length, none, []⟩ := by
      simp only [ofImport, List.length_append, List.length_cons, List.length_nil]
      congr 1
      omega
    refine (ofImport_isClosed hlead h).read_of_shape hwhole ⟨_, _, rfl, rfl⟩ ht hdoc fun inner => ?_
    rw [Nat.add_zero] at hkind
    rw [Parser.shape, hkind]
    dsimp only
    rw [useStatement_ofImport h ht]
    rfl

end OfImport

end Part
end NamespaceMigration
