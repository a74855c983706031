import NamespaceMigration.Adaptation.Fragment
import NamespaceMigration.Proofs.Rendering.Alone
import NamespaceMigration.Proofs.Rendering.Words

/-! Files that are a row of parts, with a namespace for those after its header or without one. What a
fragment takes from such a file is what its parts are. -/
namespace NamespaceMigration

open Lexer (pieces Lexes nameKind IsName)
open NamespaceMigration.Parser (Parsed manyUntil)

/-- A name that is read as a name after `namespace`. -/
structure IsSpaceName (name : Text) : Prop where
  isName : IsName name
  kind : nameKind (some .kwNamespace) name = .ident ∨
    nameKind (some .kwNamespace) name = .nameQualified

namespace Part

/-- The header of a namespace. -/
def ofSpace (name : Text) : Part where
  lead := ['\n']
  content := [(.kwNamespace, "namespace".toList), (.whitespace, [' ']),
    (nameKind (some .kwNamespace) name, name)] ++ [(.semicolon, [';'])]
  statement := ⟨.space (some name) (some 2) false, 0, 4, none, []⟩

theorem print_content_ofSpace (name : Text) :
    Piece.print (ofSpace name).content = "namespace " ++ name ++ [';'] := by
  rw [ofSpace]
  dsimp only
  rw [Piece.print_append]
  generalize nameKind _ _ = kind
  simp

theorem print_ofSpace (name : Text) : (ofSpace name).lead ++ Piece.print (ofSpace name).content ++ ['\n'] =
    Fragment.renderSpace (some name) := by
  have hlead : (ofSpace name).lead = ['\n'] := rfl
  have hrender : Fragment.renderSpace (some name) = "\nnamespace " ++ name ++ ";\n" := rfl
  rw [hlead, print_content_ofSpace, hrender]
  simp

theorem ofSpace_isClosed {name : Text} (h : IsSpaceName name) : (ofSpace name).IsClosed where
  lead := rfl
  closed := by
    obtain ⟨c, u, hname⟩ := List.exists_cons_of_ne_nil h.isName.ne_nil
    have hc : Lexer.isNameStart c := by simpa [hname] using h.isName.1
    refine Lexer.closed_of_lexes ?_ fun p hp => ?_
    · have hnext : (Lexer.State.inside (some .kwNamespace)).next (nameKind (some .kwNamespace) name) =
          .inside (some (nameKind (some .kwNamespace) name)) := by
        rcases h.kind with hkind | hkind <;> rw [hkind] <;> rfl
      change Lexes (.inside none) _
      refine Lexer.lexes_word (by decide) rfl rfl rfl (Lexer.lexes_blank ?_ ?_)
      · change ((name ++ _ : Text).head?).any Lexer.isSpace = false
        rw [hname, List.cons_append, List.head?_cons, Option.any_some,
          Lexer.not_isSpace_of_isNameStart hc]
      · exact Lexer.lexes_word h.isName rfl hnext rfl (Lexer.lexes_sign rfl rfl (.nil _))
    · simp only [List.mem_cons, List.not_mem_nil, or_false] at hp
      rcases hp with rfl | rfl | rfl
      · decide
      · decide
      · rcases h.kind with hkind | hkind <;> rw [hkind] <;> exact ⟨nofun, nofun⟩
  visible := rfl
  ends := ⟨_, _, rfl, rfl⟩

theorem ofSpace_starts (name : Text) : (ofSpace name).Starts := ⟨_, _, rfl, rfl⟩

section Space

variable {t gap name : Text} {before : List Piece} {pre post : List Part}

/-- A namespace goes from its header to the end of the file. -/
theorem topItem_ofSpace (h : IsSpaceName name) {after : List Piece}
    (ht : pieces t = before ++ (ofSpace name).content ++ after) {ss : List Statement}
    (hafter : manyUntil (Parser.statement (.ofText t) ((Code.ofText t).size + 1))
      (fun q => (Code.ofText t).atEnd q || Parser.isNamespaceHeader (.ofText t) q)
      ((Code.ofText t).size + 1) (Piece.code (before ++ (ofSpace name).content)).length =
        ⟨ss, (Code.ofText t).size, []⟩) :
    ∃ s : Statement, (∃ token?, s.kind = .space (some name) token? false) ∧
      s.first = before.length ∧ s.children = ss ∧
      Parser.topItem (.ofText t) (Piece.code before).length = ⟨s, (Code.ofText t).size, []⟩ := by
  have htrivia : (nameKind (some .kwNamespace) name).isTrivia = false := by
    rcases h.kind with hkind | hkind <;> rw [hkind] <;> rfl
  have hword : pieces t = before ++ (.kwNamespace, "namespace".toList) :: (.whitespace, [' ']) ::
      (nameKind (some .kwNamespace) name, name) :: (.semicolon, [';']) :: after := by
    rw [ht, ofSpace, List.append_assoc]
    rfl
  have hname : pieces t = (before ++ [(.kwNamespace, "namespace".toList), (.whitespace, [' '])]) ++
      (nameKind (some .kwNamespace) name, name) :: (.semicolon, [';']) :: after := by
    rw [hword, List.append_assoc]
    rfl
  have hstop : pieces t = (before ++ [(.kwNamespace, "namespace".toList), (.whitespace, [' ']),
      (nameKind (some .kwNamespace) name, name)]) ++ (.semicolon, [';']) :: after := by
    rw [hword, List.append_assoc]
    rfl
  have hcode (kind : TokenKind) (text : Text) (hkind : kind.isTrivia = false) :
      (Piece.code (before ++ [(.kwNamespace, "namespace".toList), (.whitespace, [' ']), (kind, text)])).length =
        (Piece.code before).length + 2 := by
    rw [Piece.code_append, List.length_append, Piece.code_cons, Piece.code_cons, Piece.code_cons, hkind]
    rfl
  have hshort : (Piece.code (before ++ [(.kwNamespace, "namespace".toList), (.whitespace, [' '])])).length =
      (Piece.code before).length + 1 := by
    rw [Piece.code_append, List.length_append]
    rfl
  obtain ⟨hwordKind, -, hwordIndex⟩ := Code.token_at hword rfl
  obtain ⟨hnameKind, hnameText, -⟩ := Code.token_at hname htrivia
  obtain ⟨hstopKind, -⟩ := Code.token_at hstop rfl
  rw [hshort] at hnameKind hnameText
  rw [hcode _ _ htrivia] at hstopKind
  have hwhole : (Piece.code (before ++ (ofSpace name).content)).length =
      (Piece.code before).length + 2 + 1 := by
    rw [ofSpace, ← List.append_assoc, Piece.code_append, List.length_append, hcode _ _ htrivia]
    rfl
  rw [hwhole] at hafter
  have hnamed : (Code.ofText t).isAtAny [.ident, .nameQualified] ((Piece.code before).length + 1) := by
    rw [Code.isAtAny, hnameKind]
    rcases h.kind with hkind | hkind <;> rw [hkind] <;> rfl
  have hheader : Parser.isNamespaceHeader (.ofText t) (Piece.code before).length := by
    rw [Parser.isNamespaceHeader, Code.isAt, hwordKind, Code.isAtAny, hnameKind]
    rcases h.kind with hkind | hkind <;> rw [hkind] <;> rfl
  have hbrace : (Code.ofText t).isAt .leftBrace ((Piece.code before).length + 2) = false := by
    rw [Code.isAt, hstopKind]
    rfl
  have hclosed : Parser.isTerminator (.ofText t) ((Piece.code before).length + 2) := by
    rw [Parser.isTerminator, Code.isAtAny, hstopKind]
    rfl
  have hstatement : Parser.namespaceStatement (.ofText t) (Parser.statement (.ofText t) ((Code.ofText t).size + 1))
      (Piece.code before).length = ⟨(.space (some name)
        (some ((Code.ofText t).tokenIndex ((Piece.code before).length + 1))) false, ss),
          (Code.ofText t).size, []⟩ := by
    rw [Parser.namespaceStatement]
    simp only [hnamed, if_true, hbrace, Bool.false_eq_true, if_false, hclosed, hnameText, hafter,
      List.nil_append]
  refine ⟨(Parser.node (.ofText t) (Piece.code before).length ⟨(.space (some name)
    (some ((Code.ofText t).tokenIndex ((Piece.code before).length + 1))) false, _),
      (Code.ofText t).size, []⟩).value, ⟨_, rfl⟩, hwordIndex, rfl, ?_⟩
  rw [Parser.topItem, if_pos hheader, hstatement]
  rfl

/-- A loop over statements and a namespace after them reads these statements and the namespace. -/
theorem manyUntil_ofSpace (hpre : ∀ part ∈ pre, part.IsRead) {after : List Piece}
    (ht : pieces t = before ++ rowHead gap pre ++ (blanks (gapAfter gap pre ++ (ofSpace name).lead) ++
      (ofSpace name).content ++ after)) (hbefore : Ended before) {s : Statement}
    (hitem : Parser.topItem (.ofText t) (Piece.code (before ++ rowHead gap pre)).length =
      ⟨s, (Code.ofText t).size, []⟩) {fuel : Nat}
    (hfuel : (Code.ofText t).size < (Piece.code before).length + fuel) :
    manyUntil (Parser.topItem (.ofText t)) (Code.ofText t).atEnd fuel (Piece.code before).length =
      ⟨rowStatements before.length gap pre ++ [s], (Code.ofText t).size, []⟩ := by
  have hcode : Piece.code (blanks (gapAfter gap pre ++ (ofSpace name).lead) ++ (ofSpace name).content ++ after) =
      Piece.code ((ofSpace name).content ++ after) := by
    rw [List.append_assoc, Piece.code_append, code_blanks, List.nil_append]
  refine manyUntil_rowHead (fun _ => Parser.topItem_of_plain) (fun _ _ => rfl) hpre ht hbefore ?_
    (fun fuel hfuel => ?_) hfuel
  · intro p hp
    obtain ⟨q, rest, hq, hplain⟩ := ofSpace_starts name
    rw [hcode, Piece.code_append, hq] at hp
    obtain rfl := Option.some.inj hp
    exact hplain
  · have hlt : (Piece.code (before ++ rowHead gap pre)).length < (Code.ofText t).size := by
      have hpos : 0 < (Piece.code (ofSpace name).content).length := Nat.succ_pos _
      rw [Code.size_ofText, ht, Piece.code_append (before ++ rowHead gap pre), List.length_append, hcode,
        Piece.code_append (ofSpace name).content, List.length_append]
      omega
    obtain ⟨fuel, rfl⟩ := Nat.exists_eq_add_of_le' (show 2 ≤ fuel by omega)
    have hgo : ¬(Code.ofText t).atEnd (Piece.code (before ++ rowHead gap pre)).length := by
      rw [Code.atEnd, decide_eq_true_iff]
      omega
    have hend : (Code.ofText t).atEnd (Code.ofText t).size := decide_eq_true (Nat.le_refl _)
    rw [manyUntil, if_neg hgo, hitem]
    dsimp only
    rw [manyUntil, if_pos hend]
    rfl

/-- The statements of a file with a namespace: those before its header, and the namespace. -/
theorem topItems_row (h : IsSpaceName name) (hpre : ∀ part ∈ pre, part.IsRead)
    (hpost : ∀ part ∈ post, part.IsRead) (ht : pieces t = before ++ row gap (pre ++ ofSpace name :: post))
    (hbefore : Ended before) {fuel : Nat}
    (hfuel : (Code.ofText t).size < (Piece.code before).length + fuel) :
    ∃ ss, ∃ s : Statement, List.Forall₂ (Stands t) pre ss ∧
      (∃ token?, s.kind = .space (some name) token? false) ∧
      (∃ before, pieces t = before ++ (ofSpace name).content ++ row ['\n'] post ∧
        s.first = before.length ∧
        s.children = rowStatements (before ++ (ofSpace name).content).length ['\n'] post) ∧
      manyUntil (Parser.topItem (.ofText t)) (Code.ofText t).atEnd fuel (Piece.code before).length =
        ⟨ss ++ [s], (Code.ofText t).size, []⟩ := by
  have hwhole : pieces t = before ++ rowHead gap pre ++ (blanks (gapAfter gap pre ++ (ofSpace name).lead) ++
      (ofSpace name).content ++ row ['\n'] post) := by
    rw [ht, row_append, row, ← List.append_assoc]
  have hnext : pieces t = before ++ rowHead gap pre ++ blanks (gapAfter gap pre ++ (ofSpace name).lead) ++
      (ofSpace name).content ++ row ['\n'] post := by
    rw [hwhole]
    simp only [List.append_assoc]
  obtain ⟨s, hs, hfirst, hchildren, hitem⟩ := topItem_ofSpace h hnext
    (manyUntil_row (fun _ _ => rfl) (fun q hq => by rw [hq, Bool.or_false]) hpost hnext
      ((ofSpace_isClosed h).ended _) (Nat.lt_add_left _ (Nat.lt_succ_self _)))
  rw [Piece.code_append _ (blanks _), code_blanks, List.append_nil] at hitem
  exact ⟨_, s, stands_rowStatements hwhole, hs, ⟨_, hnext, hfirst, hchildren⟩,
    manyUntil_ofSpace hpre hwhole hbefore hitem hfuel⟩

end Space

end Part

/-- A statement that is no namespace. -/
def Statement.IsPlain (s : Statement) : Prop :=
  ∀ name? token? braced, s.kind ≠ .space name? token? braced

namespace SourceFile

variable {f : SourceFile}

theorem scopeImports_eq {s : Scope} (h : s.home ∈ f.outline) : f.scopeImports s =
    s.home.statement.children.flatMap fun child => child.importItems?.getD [] := by
  rw [← f.outline_inside s.home h, scopeImports, scopeUses, List.flatMap_map]
  generalize f.outline = ls
  induction ls with
  | nil => rfl
  | cons l ls ih =>
    by_cases hparent : l.parent? == some s.home.number
    · cases himports : l.statement.importItems? with
      | none => simpa [List.filter_cons, hparent, himports] using ih
      | some items => simpa [List.filter_cons, hparent, himports] using ih
    · simpa [List.filter_cons, hparent] using ih

theorem root_mem_outline (f : SourceFile) : (⟨0, f.root, []⟩ : Located) ∈ f.outline := by
  rw [SourceFile.outline]
  obtain ⟨kind, first, stop, doc?, children⟩ := f.root
  exact List.mem_cons_self ..

theorem scope?_of_isPlain {l : Located} (h : l.statement.IsPlain) : l.scope? = none := by
  rw [Located.scope?]
  split
  · rename_i hkind
    exact absurd hkind (h _ _ _)
  · rfl

theorem scopes_of_isPlain (h : ∀ s ∈ f.root.children, s.IsPlain) :
    f.scopes = [⟨⟨0, f.root, []⟩, none, 0, f.tokens.size⟩] := by
  have hnone : f.namedScopes = [] := by
    rw [namedScopes, List.filterMap_eq_nil_iff]
    refine fun l hl => scope?_of_isPlain (h _ ?_)
    rw [← outline_top]
    exact List.mem_map_of_mem hl
  rw [scopes_eq, hnone]
  rfl

/-- A file with a namespace at its end, and none before it, has that scope. -/
theorem scopes_of_space {ss : List Statement} {s : Statement} (hroot : f.root.children = ss ++ [s])
    (hplain : ∀ s ∈ ss, s.IsPlain) {name? : Option Text} {token? : Option Nat} {braced : Bool}
    (hs : s.kind = .space name? token? braced) :
    ∃ l ∈ f.outline, l.statement = s ∧ f.scopes = [⟨l, name?, s.first, s.stop⟩] := by
  have htop := f.outline_top
  rw [hroot, List.map_eq_append_iff] at htop
  obtain ⟨ls, last, hsplit, hls, hlast⟩ := htop
  obtain ⟨l, rfl, rfl⟩ := List.map_eq_singleton_iff.mp hlast
  have hmem : l ∈ f.outline.filter (·.parent? == some 0) := by rw [hsplit]; simp
  have hnamed : f.namedScopes = [⟨l, name?, l.statement.first, l.statement.stop⟩] := by
    have hnone : ls.filterMap Located.scope? = [] := by
      rw [List.filterMap_eq_nil_iff]
      refine fun l hl => scope?_of_isPlain (hplain _ ?_)
      rw [← hls]
      exact List.mem_map_of_mem hl
    rw [namedScopes, hsplit, List.filterMap_append, hnone, List.nil_append]
    simp [Located.scope?, hs]
  refine ⟨l, (List.mem_filter.mp hmem).1, rfl, ?_⟩
  rw [scopes_eq, hnamed]
  rfl

end SourceFile

end NamespaceMigration
