import NamespaceMigration.Adaptation.Fragment
import NamespaceMigration.Proofs.Rendering.Reading
import NamespaceMigration.Proofs.Rendering.Words

/-! The statement that sets directives is read back as these directives. -/
namespace NamespaceMigration

open Lexer (pieces Lexes Closed isLiteral literalKind)
open NamespaceMigration.Parser (Parsed follow)

/-- A directive with a word for its key, in small letters, and a literal for its value. -/
structure Directive.IsPlain (d : Directive) : Prop where
  key : Lexer.IsWordOf d.key
  lower : d.key.toLowerAscii = d.key
  value : isLiteral d.value

namespace Directive

def content (d : Directive) : List Piece :=
  [(.ident, d.key), (.equals, ['=']), (literalKind d.value, d.value)]

/-- Directives one after the other. -/
def contents : List Directive → List Piece
  | [] => []
  | [d] => d.content
  | d :: e :: ds => d.content ++ [(.comma, [',']), (.whitespace, [' '])] ++ contents (e :: ds)

theorem print_contents (ds : List Directive) :
    Piece.print (contents ds) = Text.join ", " (ds.map fun d => d.key ++ '=' :: d.value) := by
  induction ds using contents.induct with
  | case1 => rfl
  | case2 d => simp [contents, content, Text.join]
  | case3 d e ds ih =>
    rw [contents, Piece.print_append, Piece.print_append, ih]
    simp [content, Text.join, List.intercalate_cons_cons]

theorem IsPlain.value_head {d : Directive} (h : d.IsPlain) :
    ∃ c u, d.value = c :: u ∧ c ≠ '=' ∧ c ≠ '>' := by
  cases hv : d.value with
  | nil =>
    have := h.value
    rw [hv] at this
    cases this
  | cons c u =>
    refine ⟨c, u, rfl, ?_, ?_⟩
    all_goals
      rintro rfl
      have := h.value
      simp [hv, isLiteral, Char.isDigit] at this

theorem lexes_content {d : Directive} (h : d.IsPlain) {last : Option TokenKind} {ps : List Piece}
    (hps : (Piece.print ps).head? = some ',' ∨ (Piece.print ps).head? = some ')')
    (hrest : Lexes (.inside (some (literalKind d.value))) ps) :
    Lexes (.inside last) (d.content ++ ps) := by
  obtain ⟨c, u, hv, h1, h2⟩ := h.value_head
  have hvalue : Lexes (.inside (some .equals)) ((literalKind d.value, d.value) :: ps) := by
    refine .cons (by simp [hv]) (Lexer.scanCode_literal _ h.value hps) ?_
    have hnext : (Lexer.State.inside (some .equals)).next (literalKind d.value) =
        .inside (some (literalKind d.value)) := by
      rw [literalKind]
      split <;> rfl
    rwa [hnext]
  refine Lexer.lexes_word h.key.name (h.key.nameKind last) rfl rfl ?_
  refine Lexer.lexes_sign (Lexer.scanCode_equals _ ?_) rfl hvalue
  simp [hv, h1, h2]

/-- Directives before the end of a statement are scanned one by one. -/
theorem lexes_contents {ds : List Directive} (hne : ds ≠ []) (h : ∀ d ∈ ds, d.IsPlain)
    (last : Option TokenKind) :
    Lexes (.inside last) (contents ds ++ [(.rightParen, [')']), (.semicolon, [';'])]) := by
  induction ds using contents.induct generalizing last with
  | case1 => exact absurd rfl hne
  | case2 d =>
    refine lexes_content (h d (by simp)) (.inr rfl) ?_
    exact Lexer.lexes_sign rfl rfl (Lexer.lexes_sign rfl rfl (.nil _))
  | case3 d e ds ih =>
    rw [List.forall_mem_cons] at h
    have hrest := ih (by simp) h.2 (some .comma)
    rw [contents, List.append_assoc, List.append_assoc]
    refine lexes_content h.1 (.inl rfl) (Lexer.lexes_sign rfl rfl (Lexer.lexes_blank ?_ hrest))
    -- The next key starts with a letter.
    obtain ⟨c, u, hkey⟩ := List.exists_cons_of_ne_nil (h.2 e (by simp)).key.name.ne_nil
    have hc : Lexer.isNameStart c := by simpa [hkey] using (h.2 e (by simp)).key.name.1
    obtain ⟨more, hmore⟩ : ∃ more, contents (e :: ds) = (.ident, e.key) :: more := by
      cases ds <;> exact ⟨_, rfl⟩
    rw [hmore]
    change ((e.key ++ _ : Text).head?).any Lexer.isSpace = false
    rw [hkey, List.cons_append, List.head?_cons, Option.any_some, Lexer.not_isSpace_of_isNameStart hc]

theorem code_content (d : Directive) : Piece.code d.content = d.content := by
  have hkind : (literalKind d.value).isTrivia = false := by
    rw [literalKind]
    split <;> rfl
  rw [content, Piece.code_cons, Piece.code_cons, Piece.code_cons, hkind]
  rfl

/-- A directive is read up to the comma or the end after it. -/
theorem directives_content {d : Directive} (h : d.IsPlain) {t : Text} {before after : List Piece}
    (ht : pieces t = before ++ d.content ++ after) {close fuel : Nat}
    (hclose : close = (Piece.code before).length + 3 ∨ (Piece.code before).length + 3 < close ∧
      (Code.ofText t).isAt .comma ((Piece.code before).length + 3)) :
    Parser.directives (.ofText t) close (fuel + 1) (Piece.code before).length =
      let more := Parser.directives (.ofText t) close fuel ((Piece.code before).length + 4)
      (d :: more.1, more.2) := by
  have hat {i : Nat} {p : Piece} (hp : d.content[i]? = some p) :=
    Code.piece_at ht (i := i) (p := p) (by rw [code_content, hp])
  obtain ⟨hkey, hkeyText⟩ := hat (i := 0) rfl
  obtain ⟨hequals, -⟩ := hat (i := 1) rfl
  obtain ⟨hvalue, hvalueText⟩ := hat (i := 2) rfl
  rw [Nat.add_zero] at hkey hkeyText
  have hsize := Code.lt_size_of_kind? hvalue
  generalize hp : (Piece.code before).length = p at *
  have hstop : follow (fun q => if q < close ∧ !(Code.ofText t).isAt .comma q then some (q + 1) else none)
      ((Code.ofText t).size + 1) (p + 2) = p + 3 := by
    obtain ⟨n, hn⟩ := Nat.exists_eq_add_of_le' (show 1 ≤ (Code.ofText t).size by omega)
    have hnot : (Code.ofText t).isAt .comma (p + 2) = false := by
      rw [Code.isAt, hvalue, literalKind]
      split <;> rfl
    have hgo : p + 2 < close ∧ (!(Code.ofText t).isAt .comma (p + 2)) = true := ⟨by omega, by simp [hnot]⟩
    have hend : ¬(p + 2 + 1 < close ∧ (!(Code.ofText t).isAt .comma (p + 2 + 1)) = true) := by
      rcases hclose with hclose | hclose
      · omega
      · simp [hclose.2]
    simp only [hn, follow, if_pos hgo, if_neg hend]
  have hpair : (Code.ofText t).isAt .ident p ∧ (Code.ofText t).isAt .equals (p + 1) := by
    simp [Code.isAt, hkey, hequals]
  rw [Parser.directives, if_neg (by omega), if_pos hpair]
  dsimp only
  rw [hstop, hkeyText, h.lower, show p + 3 - (p + 2) = 1 by omega]
  simp [List.range', hvalueText]

/-- Directives are read one by one up to the end of the list. -/
theorem directives_contents {ds : List Directive} (h : ∀ d ∈ ds, d.IsPlain)
    {t : Text} {before after : List Piece} (ht : pieces t = before ++ contents ds ++ after)
    {fuel : Nat} (hfuel : ds.length ≤ fuel) :
    Parser.directives (.ofText t) (Piece.code (before ++ contents ds)).length (fuel + 1)
      (Piece.code before).length = (ds, []) := by
  induction ds using contents.induct generalizing before fuel with
  | case1 => simp [contents, Parser.directives]
  | case2 d =>
    have hclose : (Piece.code (before ++ contents [d])).length = (Piece.code before).length + 3 := by
      rw [contents, Piece.code_append, code_content, List.length_append]
      rfl
    rw [directives_content (h d (by simp)) ht (.inl hclose)]
    obtain ⟨fuel, rfl⟩ := Nat.exists_eq_add_of_le' (show 1 ≤ fuel from hfuel)
    rw [Parser.directives, if_pos (by omega)]
  | case3 d e ds ih =>
    rw [List.forall_mem_cons] at h
    have ht' : pieces t = (before ++ d.content ++ [(.comma, [',']), (.whitespace, [' '])]) ++
        contents (e :: ds) ++ after := by
      rw [ht, contents]
      simp only [List.append_assoc]
    have hat : Piece.code (d.content ++ [(.comma, [',']), (.whitespace, [' '])] ++ contents (e :: ds)) =
        d.content ++ (.comma, [',']) :: Piece.code (contents (e :: ds)) := by
      rw [Piece.code_append, Piece.code_append, code_content, List.append_assoc]
      rfl
    have hcomma := (Code.piece_at ht (i := 3) (p := (.comma, [','])) (by rw [contents, hat]; rfl)).1
    have hlength : (Piece.code (before ++ d.content ++ [(.comma, [',']), (.whitespace, [' '])])).length =
        (Piece.code before).length + 4 := by
      rw [Piece.code_append, Piece.code_append, code_content, List.length_append, List.length_append]
      rfl
    have hrest : 0 < (Piece.code (contents (e :: ds))).length := by
      cases ds <;> simp [contents, content, Piece.code_cons, TokenKind.isTrivia]
    have hwhole : (Piece.code (before ++ contents (d :: e :: ds))).length =
        (Piece.code before).length + 4 + (Piece.code (contents (e :: ds))).length := by
      rw [← hlength, ← List.length_append, ← Piece.code_append, contents]
      simp only [List.append_assoc]
    obtain ⟨fuel, rfl⟩ := Nat.exists_eq_add_of_le' (show 1 ≤ fuel by simp at hfuel; omega)
    have hclose : (Piece.code before).length + 3 < (Piece.code (before ++ contents (d :: e :: ds))).length ∧
        (Code.ofText t).isAt .comma ((Piece.code before).length + 3) := by
      refine ⟨by omega, by simp [Code.isAt, hcomma]⟩
    rw [directives_content h.1 (by rw [ht, contents]; simp only [List.append_assoc]; rfl) (.inr hclose)]
    have hmore := ih h.2 ht' (Nat.le_of_succ_le_succ hfuel)
    rw [hlength] at hmore
    rw [hwhole, ← hlength, ← List.length_append, ← Piece.code_append, hlength, hmore]

end Directive

namespace Part

/-- The call that sets directives. -/
def declareCall (ds : List Directive) : List Piece :=
  (.kwDeclare, "declare") :: (.leftParen, ['(']) :: (Directive.contents ds ++ [(.rightParen, [')'])])

/-- The statement that sets directives. -/
def ofDirectives (ds : List Directive) : Part where
  lead := ['\n']
  content := declareCall ds ++ [(.semicolon, [';'])]
  statement := ⟨.declare ds false, 0, (Directive.contents ds).length + 4, none, []⟩

section OfDirectives

variable {ds : List Directive}

theorem print_ofDirectives (hne : ds ≠ []) :
    (ofDirectives ds).lead ++ Piece.print (ofDirectives ds).content ++ ['\n'] =
      Fragment.renderDirectives ds := by
  have hempty : ds.isEmpty = false := by simpa using hne
  simp [ofDirectives, declareCall, Fragment.renderDirectives, hempty, Directive.print_contents]

/-- The kinds of the pieces between the brackets. -/
theorem kind_contents : ∀ p ∈ Directive.contents ds,
    p.1 ∈ [.ident, .equals, .number, .string, .comma, .whitespace] := by
  have hcontent (d : Directive) : ∀ p ∈ d.content,
      p.1 ∈ [.ident, .equals, .number, .string, .comma, .whitespace] := by
    simp only [Directive.content, literalKind]
    split <;> simp
  induction ds using Directive.contents.induct with
  | case1 => simp [Directive.contents]
  | case2 d => exact hcontent d
  | case3 d e ds ih =>
    intro p hp
    rw [Directive.contents, List.mem_append, List.mem_append] at hp
    rcases hp with (hp | hp) | hp
    · exact hcontent d p hp
    · simp only [List.mem_cons, List.not_mem_nil, or_false] at hp
      rcases hp with rfl | rfl <;> decide
    · exact ih p hp

theorem ofDirectives_isClosed (hne : ds ≠ []) (h : ∀ d ∈ ds, d.IsPlain) :
    (ofDirectives ds).IsClosed where
  lead := rfl
  closed := by
    have hcontents := Directive.lexes_contents hne h (some .leftParen)
    have hlexes : Lexes .between (declareCall ds ++ [(.semicolon, [';'])]) := by
      rw [declareCall, List.cons_append, List.cons_append, List.append_assoc]
      change Lexes (.inside none) _
      refine Lexer.lexes_word (by decide) (by decide) rfl rfl ?_
      exact Lexer.lexes_sign rfl rfl hcontents
    refine Lexer.closed_of_lexes hlexes fun p hp => ?_
    simp only [declareCall, List.mem_cons, List.mem_append, List.not_mem_nil, or_false] at hp
    rcases hp with rfl | rfl | hp | rfl
    · decide
    · decide
    · have := kind_contents p hp
      constructor
      all_goals
        intro hkind
        rw [hkind] at this
        simp at this
    · decide
  visible := rfl
  ends := ⟨_, _, rfl, rfl⟩

theorem code_declareCall : Piece.code (declareCall ds) =
    (.kwDeclare, "declare".toList) :: (.leftParen, ['(']) ::
      (Piece.code (Directive.contents ds) ++ [(.rightParen, [')'])]) := by
  simp [declareCall, Piece.code_cons, TokenKind.isTrivia]

/-- The brackets of the statement belong together. -/
theorem groupEnd_ofDirectives {t : Text} {before after : List Piece}
    (ht : pieces t = before ++ (ofDirectives ds).content ++ after) :
    (Code.ofText t).groupEnd ((Piece.code before).length + 1) =
      (Piece.code before).length + 3 + (Piece.code (Directive.contents ds)).length := by
  have hall : ∀ kind ∈ [TokenKind.ident, .equals, .number, .string, .comma, .whitespace],
      kind ≠ .error ∧ kind.isOpeningBracket = false ∧ kind.isClosingBracket = false := by decide
  have hinside : BracketMatching.nest [] ((Piece.code (Directive.contents ds)).map (·.1)) = some [] := by
    refine BracketMatching.nest_of_plain (fun kind hkind => ?_) []
    obtain ⟨p, hp, rfl⟩ := List.mem_map.mp hkind
    exact hall _ (kind_contents p (List.mem_filter.mp hp).1)
  have hkinds : (Code.ofText t).matching = .ofKinds (((Piece.code before).map (·.1) ++ [.kwDeclare]) ++
      .leftParen :: ((Piece.code (Directive.contents ds)).map (·.1) ++
        .rightParen :: (.semicolon :: (Piece.code after).map (·.1)))) := by
    rw [Code.matching_stretch ht, ofDirectives, Piece.code_append, code_declareCall]
    congr 1
    simp [Piece.code_cons, TokenKind.isTrivia]
  have hcloser : (Code.ofText t).matching.closer? ((Piece.code before).length + 1) =
      some ((Piece.code before).length + 1 + 1 + (Piece.code (Directive.contents ds)).length) := by
    have hbefore : ((Piece.code before).map (fun p => p.1) ++ [TokenKind.kwDeclare]).length =
        (Piece.code before).length + 1 := by
      rw [List.length_append, List.length_map, List.length_singleton]
    rw [hkinds, ← hbefore, BracketMatching.closer?_of_nest rfl hinside rfl rfl, List.length_map]
  rw [Code.groupEnd, hcloser]
  dsimp only
  omega

theorem length_le_contents : ds.length ≤ (Piece.code (Directive.contents ds)).length := by
  induction ds using Directive.contents.induct with
  | case1 => exact Nat.zero_le _
  | case2 d =>
    rw [Directive.contents, Directive.code_content]
    exact Nat.le_add_left 1 2
  | case3 d e ds ih =>
    rw [Directive.contents, Piece.code_append, Piece.code_append, Directive.code_content,
      List.length_append, List.length_append, List.length_cons]
    refine Nat.le_trans (Nat.add_le_add_right ih 1) ?_
    simp only [Directive.content, List.length_cons, List.length_nil]
    omega

theorem declareStatement_ofDirectives (h : ∀ d ∈ ds, d.IsPlain) {t : Text}
    {before after : List Piece} (ht : pieces t = before ++ (ofDirectives ds).content ++ after)
    (inner : Parser.Inner) :
    Parser.declareStatement (.ofText t) inner (Piece.code before).length =
      ⟨(.declare ds false, []), (Piece.code (before ++ (ofDirectives ds).content)).length, []⟩ := by
  have hgroup := groupEnd_ofDirectives ht
  have hcode : Piece.code (ofDirectives ds).content = (.kwDeclare, "declare".toList) ::
      (.leftParen, ['(']) :: (Piece.code (Directive.contents ds) ++
        [(.rightParen, [')']), (.semicolon, [';'])]) := by
    rw [ofDirectives, Piece.code_append, code_declareCall]
    simp [Piece.code_cons, TokenKind.isTrivia]
  have hsemicolon : (Code.ofText t).kind? ((Piece.code before).length + 3 +
      (Piece.code (Directive.contents ds)).length) = some .semicolon := by
    rw [Nat.add_assoc]
    refine (Code.piece_at ht (p := (.semicolon, [';'])) ?_).1
    rw [hcode, Nat.add_comm 3]
    simp
  have hds : pieces t = (before ++ [(.kwDeclare, "declare".toList), (.leftParen, ['('])]) ++
      Directive.contents ds ++ ([(.rightParen, [')']), (.semicolon, [';'])] ++ after) := by
    rw [ht, ofDirectives, declareCall]
    simp
  have hlength : (Piece.code (before ++ [(.kwDeclare, "declare".toList), (.leftParen, ['('])])).length =
      (Piece.code before).length + 2 := by
    rw [Piece.code_append, List.length_append]
    rfl
  have hfuel : ds.length ≤ (Code.ofText t).size := by
    have hsize := Code.size_stretch ht
    have hle : ds.length ≤ (Piece.code (Directive.contents ds)).length := length_le_contents
    rw [hcode, List.length_cons, List.length_cons, List.length_append] at hsize
    omega
  have hread := Directive.directives_contents h hds hfuel
  rw [Piece.code_append, List.length_append, hlength] at hread
  have hclose : (Piece.code before).length + 3 + (Piece.code (Directive.contents ds)).length - 1 =
      (Piece.code before).length + 2 + (Piece.code (Directive.contents ds)).length := by omega
  have hnext : (Piece.code before).length + 2 + (Piece.code (Directive.contents ds)).length + 1 =
      (Piece.code before).length + 3 + (Piece.code (Directive.contents ds)).length := by omega
  rw [Parser.declareStatement, hgroup, hclose, hread]
  dsimp only
  rw [hnext]
  simp [Code.isAt, hsemicolon, Parser.terminator, Parser.isTerminator, Code.isAtAny, hcode]
  omega

/-- The statement is read back with the directives that it sets. -/
theorem ofDirectives_isRead (hne : ds ≠ []) (h : ∀ d ∈ ds, d.IsPlain) : (ofDirectives ds).IsRead where
  toIsClosed := ofDirectives_isClosed hne h
  first := rfl
  first_lt := by simp [ofDirectives, declareCall]
  last := by simp [ofDirectives, declareCall]
  start := ⟨_, _, by rw [ofDirectives, Piece.code_append, code_declareCall]; rfl, rfl⟩
  plain _ _ _ h := nomatch h
  header p q rest hcode hp := by
    rw [ofDirectives, Piece.code_append, code_declareCall] at hcode
    obtain ⟨rfl, -⟩ := List.cons.inj hcode
    cases hp
  reads t before after ht hdoc hnext := by
    have hkind := (Code.piece_at ht (i := 0) (p := (.kwDeclare, "declare".toList)) (by
      rw [ofDirectives, Piece.code_append, code_declareCall]; rfl)).1
    have hopen := (Code.piece_at ht (i := 1) (p := (.leftParen, ['('])) (by
      rw [ofDirectives, Piece.code_append, code_declareCall]; rfl)).1
    have hwhole : (ofDirectives ds).statement =
        ⟨.declare ds false, 0, (ofDirectives ds).content.length, none, []⟩ := by
      simp [ofDirectives, declareCall]
    refine (ofDirectives_isClosed hne h).read_of_shape hwhole ⟨_, _, rfl, rfl⟩ ht hdoc fun inner => ?_
    rw [Nat.add_zero] at hkind
    rw [Parser.shape, hkind]
    dsimp only
    rw [if_pos (by simp [Code.isAt, hopen]), declareStatement_ofDirectives h ht]
    rfl

end OfDirectives

end Part
end NamespaceMigration
