import NamespaceMigration.Proofs.Naming.Capitals
import NamespaceMigration.Proofs.Naming.Signs
import NamespaceMigration.Proofs.Rendering.Files
import NamespaceMigration.Proofs.Rendering.Directives
import NamespaceMigration.Proofs.Rendering.Imports

/-! Words of a source text. What the parser reads as the key of a directive, as the name of a namespace or
as an alias is a word that is read in the same way where a fragment writes it. -/
namespace NamespaceMigration

open Lexer (pieces Lexes nameKind IsName IsWordOf isNameStart isNameChar nameLength)

namespace Lexer

theorem nameKind_of_scan {s : State} {text rest : Text} {kind : TokenKind}
    (h : s.scan (text ++ rest) = (kind, text.length)) (hkind : kind = .ident ∨ kind = .nameQualified) :
    nameKind s.last text = kind := by
  have hname : kind.isName := by rcases hkind with rfl | rfl <;> rfl
  have hshape := State.scan_shape s (text ++ rest)
  rw [h, List.take_left] at hshape
  have hisName : IsName text := hshape.isName hname (by rcases hkind with rfl | rfl <;> exact nofun)
  rw [State.scan_of_code (State.mode_of_scan (Or.inl (by rw [h]; exact hname)))] at h
  obtain ⟨c, u, rfl⟩ := List.exists_cons_of_ne_nil hisName.ne_nil
  have hlength := nameLength_of_head s.last (t := c :: u ++ rest) (by simpa using hisName.1)
  rw [h, nameLength_append_eq_length_iff] at hlength
  rw [scanCode_name s.last hisName hlength.2] at h
  exact congrArg Prod.fst h

theorem Lexes.nameKind {s : State} {ps : List Piece} (h : Lexes s ps) {p : Nat} {b : Piece}
    (hb : (Piece.code ps)[p]? = some b) (hkind : b.1 = .ident ∨ b.1 = .nameQualified) :
    nameKind (if p = 0 then s.last else (Piece.code ps)[p - 1]?.map (·.1)) b.2 = b.1 := by
  induction h generalizing p with
  | nil => cases hb
  | @cons s kind text ps hne hscan _ ih =>
    rw [Piece.code_cons] at hb ⊢
    cases htrivia : kind.isTrivia with
    | true =>
      rw [htrivia] at hb
      have hlast : (s.next kind).last = s.last := if_pos htrivia
      have hrest := ih hb
      rw [hlast] at hrest
      simpa [htrivia] using hrest
    | false =>
      have hlast : (s.next kind).last = some kind := if_neg (by simp [htrivia])
      have hcode : ((kind, text) :: Piece.code ps)[p]? = some b := by simpa [htrivia] using hb
      cases p with
      | zero =>
        cases hcode
        exact nameKind_of_scan hscan hkind
      | succ p =>
        have hrest := ih (p := p) hcode
        rw [hlast] at hrest
        cases p with
        | zero => simpa [htrivia] using hrest
        | succ p => simpa [htrivia] using hrest

end Lexer

namespace Code

variable {t : Text} {p : Nat}

theorem nameKind_text {last kind : TokenKind} (hlast : (ofText t).kind? p = some last)
    (h : (ofText t).kind? (p + 1) = some kind) (hkind : kind = .ident ∨ kind = .nameQualified) :
    nameKind (some last) ((ofText t).text (p + 1)) = kind := by
  rw [kind?_ofText] at hlast h
  obtain ⟨b, hb, rfl⟩ := Option.map_eq_some_iff.mp h
  have hname := (Lexer.lexes_pieces t).nameKind hb hkind
  rw [if_neg (Nat.succ_ne_zero p), Nat.add_sub_cancel, hlast] at hname
  rw [text_ofText, hb]
  exact hname

theorem isWordOf_text {last : TokenKind} (hlast : (ofText t).kind? p = some last)
    (hplain : last.makesNextIdent = false) (h : (ofText t).isAt .ident (p + 1)) :
    IsWordOf ((ofText t).text (p + 1)) := by
  have hident := isAt_iff.mp h
  obtain ⟨hname, hsingle⟩ : Lexer.HasNameShape .ident _ := hasNameShape hident
  refine ⟨hname, hsingle, ?_⟩
  have hkind := nameKind_text hlast hident (Or.inl rfl)
  rw [nameKind, if_neg hsingle, Option.any_some, hplain, if_neg Bool.false_ne_true] at hkind
  cases hkeyword : Word.keywordKind? ((ofText t).text (p + 1)) with
  | none => rfl
  | some kind =>
    rw [hkeyword] at hkind
    have hnot := Lexer.keywordKind?_isName hkeyword
    rw [show kind = .ident from hkind] at hnot
    cases hnot

end Code

namespace Lexer

theorem isNameStart_toLower {c : Char} (h : isNameStart c) : isNameStart c.toLower := by
  rcases toLower_eq_or_isAlpha c with heq | halpha
  · rwa [heq]
  · exact isNameStart_eq_true (Or.inr (Or.inl halpha))

theorem isNameChar_toLower {c : Char} (h : isNameChar c) : isNameChar c.toLower := by
  rcases toLower_eq_or_isAlpha c with heq | halpha
  · rwa [heq]
  · exact isNameChar_of_isNameStart (isNameStart_eq_true (Or.inr (Or.inl halpha)))

theorem toLower_toLower (c : Char) : c.toLower.toLower = c.toLower := by
  rw [← Char.toNat_inj, toNat_toLower, toNat_toLower]
  split_ifs <;> omega

theorem toLowerAscii_toLowerAscii (u : Text) : u.toLowerAscii.toLowerAscii = u.toLowerAscii := by
  rw [Text.toLowerAscii, Text.toLowerAscii, List.map_map]
  exact List.map_congr_left fun c _ => toLower_toLower c

theorem nameLength_of_forall {u : Text} (h : ∀ c ∈ u, isNameChar c) : nameLength u = u.length := by
  induction u with
  | nil => rfl
  | cons c u ih =>
    rw [List.forall_mem_cons] at h
    exact nameLength_cons_eq_length_iff.mpr ⟨Or.inl h.1, ih h.2⟩

theorem IsWordOf.toLowerAscii {u : Text} (h : IsWordOf u) : IsWordOf u.toLowerAscii := by
  have hplain : Word.keywordKind? u.toLowerAscii = none := by
    rw [Word.keywordKind?, toLowerAscii_toLowerAscii]
    exact h.plain
  obtain ⟨c, u, rfl⟩ := List.exists_cons_of_ne_nil h.name.ne_nil
  obtain ⟨hstart, hchars⟩ := isIdentifier_cons_iff.mp (h.name.isIdentifier h.single)
  have hall : ∀ d ∈ Text.toLowerAscii (c :: u), isNameChar d := by
    rw [Text.toLowerAscii, List.map_cons, List.forall_mem_cons]
    refine ⟨isNameChar_toLower (isNameChar_of_isNameStart hstart), fun d hd => ?_⟩
    obtain ⟨e, he, rfl⟩ := List.mem_map.mp hd
    exact isNameChar_toLower (hchars e he)
  refine ⟨⟨?_, nameLength_of_forall hall⟩, fun hmem => ?_, hplain⟩
  · exact isNameStart_toLower hstart
  · exact Bool.false_ne_true (not_isNameChar_backslash.symm.trans (hall _ hmem))

end Lexer

namespace Parser

theorem directives_eq_nil {c : Code} {close p : Nat} (h : close ≤ p ∨ c.size ≤ p) (fuel : Nat) :
    (directives c close fuel p).1 = [] := by
  cases fuel with
  | zero => rfl
  | succ fuel =>
    rw [directives]
    split
    · rfl
    · rename_i hclose
      split
      · rename_i hkey
        have := Code.lt_size_of_isAt hkey.1
        omega
      · rfl

/-- Every directive has a key after a bracket or a comma. -/
theorem directives_key {c : Code} {close fuel p : Nat}
    (hp : ∃ q, p = q + 1 ∧ c.isAtAny [.leftParen, .comma] q) :
    ∀ d ∈ (directives c close fuel p).1, ∃ q, c.isAtAny [.leftParen, .comma] q ∧
      c.isAt .ident (q + 1) ∧ d.key = (c.text (q + 1)).toLowerAscii := by
  induction fuel generalizing p with
  | zero => exact List.forall_mem_nil _
  | succ fuel ih =>
    rw [directives]
    split
    · exact List.forall_mem_nil _
    · split
      · rename_i hclose hkey
        obtain ⟨q, rfl, hq⟩ := hp
        refine List.forall_mem_cons.mpr ⟨⟨q, hq, hkey.1, rfl⟩, ?_⟩
        have hforward : ∀ p next, valueStep c close p = some next → p < next := fun p next hstep => by
          rw [(valueStep_eq_some hstep).2.2]
          exact Nat.lt_succ_self p
        -- The value ends at a comma, with another directive after it, or it is the last one.
        rcases follow_stop hforward (c.size + 1) (q + 1 + 2) with hnone | hfar
        · generalize hstop : follow (valueStep c close) (c.size + 1) (q + 1 + 2) = stop at hnone
          change ∀ d ∈ (directives c close fuel (follow (valueStep c close) (c.size + 1) (q + 1 + 2) + 1)).1, _
          rw [hstop]
          by_cases hcomma : c.isAt .comma stop
          · refine ih ⟨stop, rfl, ?_⟩
            rw [Code.isAtAny, Code.isAt_iff.mp hcomma]
            rfl
          · rw [valueStep] at hnone
            have hle : close ≤ stop := by
              by_contra hlt
              rw [if_pos ⟨by omega, by simpa using hcomma⟩] at hnone
              cases hnone
            rw [directives_eq_nil (Or.inl (by omega))]
            exact List.forall_mem_nil _
        · change ∀ d ∈ (directives c close fuel (follow (valueStep c close) (c.size + 1) (q + 1 + 2) + 1)).1, _
          rw [directives_eq_nil (Or.inr (by omega))]
          exact List.forall_mem_nil _
      · exact List.forall_mem_nil _

end Parser

/-- An import with a name, and with a word for its alias. -/
structure ImportItem.HasWords (item : ImportItem) : Prop where
  name : IsName item.name
  short : ∀ short, item.alias? = some short → IsWordOf short

/-- A directive with a word in small letters for its key. -/
structure Directive.HasWord (d : Directive) : Prop where
  key : IsWordOf d.key
  lower : d.key.toLowerAscii = d.key

/-- The words of a statement as the parser reads them. -/
def StatementKind.HasWords : StatementKind → Prop
  | .space (some name) _ _ => IsSpaceName name
  | .imports items => ∀ item ∈ items, item.HasWords
  | .declare directives _ => ∀ d ∈ directives, d.HasWord
  | _ => True

namespace Parser

variable {t : Text}

theorem importAlias_isWordOf {p : Nat} {short : Text}
    (h : (importAlias (.ofText t) p).1 = some short) : IsWordOf short := by
  rw [importAlias] at h
  split at h
  · rename_i hat
    cases h
    exact Code.isWordOf_text (Code.isAt_iff.mp hat.1) rfl hat.2
  · cases h

theorem useStatement_words (p : Nat) : (useStatement (.ofText t) p).value.HasWords := by
  rw [useStatement]
  split
  · trivial
  · rename_i items next hitems
    dsimp only
    split
    · exact importItems_forall (fun _ _ _ _ _ hname => ⟨hname, fun _ => importAlias_isWordOf⟩) hitems
    · trivial

theorem declareStatement_words (inner : Inner) {p : Nat}
    (hparen : (Code.ofText t).isAt .leftParen (p + 1)) :
    (declareStatement (.ofText t) inner p).value.1.HasWords := by
  have hstart : ∃ q, p + 2 = q + 1 ∧ (Code.ofText t).isAtAny [.leftParen, .comma] q := by
    refine ⟨p + 1, rfl, ?_⟩
    rw [Code.isAtAny, Code.isAt_iff.mp hparen]
    rfl
  have hwords : ∀ close, ∀ d ∈ (directives (.ofText t) close ((Code.ofText t).size + 1) (p + 2)).1,
      d.HasWord := by
    intro close d hd
    obtain ⟨q, hq, hident, hkey⟩ := directives_key hstart d hd
    obtain ⟨last, hlast, hkind⟩ := Code.exists_kind_of_isAtAny hq
    have hplain : last.makesNextIdent = false := by
      simp only [List.mem_cons, List.not_mem_nil, or_false] at hlast
      rcases hlast with rfl | rfl <;> rfl
    have hword := (Code.isWordOf_text hkind hplain hident).toLowerAscii
    exact ⟨hkey ▸ hword, by rw [hkey, Lexer.toLowerAscii_toLowerAscii]⟩
  rw [declareStatement]
  dsimp only
  split_ifs <;> exact hwords _

theorem declaration_words (c : Code) (p : Nat) : (declaration c p).value.HasWords := by
  rw [declaration]
  split
  · trivial
  · split <;> trivial

theorem shape_words (inner : Inner) (p : Nat) : (shape (.ofText t) inner p).value.1.HasWords := by
  rw [shape]
  split <;> try trivial
  · exact useStatement_words p
  · split
    · rename_i hparen
      exact declareStatement_words inner hparen
    · exact declaration_words _ p
  · split
    · trivial
    · exact declaration_words _ p
  · exact declaration_words _ p

theorem namespaceStatement_words (inner : Inner) {p : Nat}
    (hheader : isNamespaceHeader (.ofText t) p) :
    (namespaceStatement (.ofText t) inner p).value.1.HasWords := by
  rw [isNamespaceHeader, Bool.and_eq_true] at hheader
  have hname : ∀ name, (if (Code.ofText t).isAtAny [.ident, .nameQualified] (p + 1) then
      some ((Code.ofText t).text (p + 1)) else none) = some name → IsSpaceName name := by
    intro name h
    split at h
    · rename_i hat
      cases h
      obtain ⟨kind, hmem, hkind⟩ := Code.exists_kind_of_isAtAny hat
      have hcases : kind = .ident ∨ kind = .nameQualified := by simpa using hmem
      have hread := Code.nameKind_text (Code.isAt_iff.mp hheader.1) hkind hcases
      exact ⟨Code.isName_text hat, hread ▸ hcases⟩
    · cases h
  have hspace {name? : Option Text} {token? : Option Nat} {braced : Bool}
      (h : ∀ name, name? = some name → IsSpaceName name) :
      (StatementKind.space name? token? braced).HasWords := by
    cases name? with
    | none => trivial
    | some name => exact h name rfl
  unfold namespaceStatement
  dsimp only
  generalize (if (Code.ofText t).isAtAny [.ident, .nameQualified] (p + 1) then p + 2 else p + 1) = next
  split
  · exact hspace hname
  · exact hspace hname

end Parser

namespace SourceFile

variable {t : Text}

theorem outline_words (t : Text) : ∀ l ∈ (parse t).outline, l.statement.kind.HasWords :=
  outline_forall (P := fun s => s.kind.HasWords) trivial
    (Parser.topStatements_everywhere (c := .ofText t) (fun _ => trivial) Parser.shape_words
      fun inner _ => Parser.namespaceStatement_words inner)

end SourceFile

end NamespaceMigration
