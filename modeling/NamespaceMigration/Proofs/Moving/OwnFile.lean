import NamespaceMigration.Proofs.Moving.Final
import NamespaceMigration.Proofs.Rendering.Fragments

/-! A declaration in a file of its own: directives and the header of a namespace come first, then imports, and
the declaration after an empty line. A step of moving code leaves what comes first as it is. -/
namespace NamespaceMigration

open Lexer (pieces Lexes)
open SourceFile (parse writtenSlice writtenFrom)
open NamespaceMigration.Parser (Parsed manyUntil isNamespaceHeader)

namespace Part

section RowHead

variable (gap : Text) (pre rest : List Part)

theorem rowHead_append : rowHead gap (pre ++ rest) = rowHead gap pre ++ rowHead (gapAfter gap pre) rest := by
  induction pre generalizing gap with
  | nil => rfl
  | cons part pre ih =>
    rw [List.cons_append, rowHead, ih, rowHead, gapAfter_cons]
    simp only [List.append_assoc]

theorem gapAfter_append : gapAfter gap (pre ++ rest) = gapAfter (gapAfter gap pre) rest := by
  cases pre with
  | nil => rfl
  | cons part pre =>
    cases rest with
    | nil => rw [List.append_nil]; rfl
    | cons part rest => rfl

theorem rowStatements_append (n : Nat) : rowStatements n gap (pre ++ rest) =
    rowStatements n gap pre ++ rowStatements (n + (rowHead gap pre).length) (gapAfter gap pre) rest := by
  induction pre generalizing gap n with
  | nil => rfl
  | cons part pre ih =>
    rw [List.cons_append, rowStatements, ih, rowStatements, gapAfter_cons, rowHead, List.cons_append]
    simp only [List.length_append, Nat.add_assoc]

theorem print_rowHead : Piece.print (rowHead gap pre) ++ gapAfter gap pre = gap ++ pre.flatMap line := by
  induction pre generalizing gap with
  | nil => simp [rowHead, gapAfter]
  | cons part pre ih =>
    rw [rowHead, gapAfter_cons, Piece.print_append, Piece.print_append, print_blanks, List.append_assoc, ih,
      List.flatMap_cons, line]
    simp only [List.append_assoc]

variable {gap pre rest}

theorem le_first_of_rowStatements {n : Nat} {s : Statement} (hs : s ∈ rowStatements n gap rest) :
    n ≤ s.first := by
  induction rest generalizing n gap with
  | nil => cases hs
  | cons part rest ih =>
    rcases List.mem_cons.mp hs with rfl | hs
    · rw [Statement.first_move]
      omega
    · have := ih hs
      omega

theorem stop_le_of_rowStatements {n : Nat} {s : Statement} (h : ∀ part ∈ rest, part.IsRead)
    (hs : s ∈ rowStatements n gap rest) : s.stop ≤ n + (rowHead gap rest).length := by
  induction rest generalizing n gap with
  | nil => cases hs
  | cons part rest ih =>
    rw [List.forall_mem_cons] at h
    rw [rowHead, List.length_append, List.length_append]
    rcases List.mem_cons.mp hs with rfl | hs
    · rw [Statement.stop_move, h.1.last]
      omega
    · have := ih h.2 hs
      omega

theorem ended_rowHead {before : List Piece} (hbefore : Ended before) (h : ∀ part ∈ pre, part.IsClosed) :
    Ended (before ++ rowHead gap pre) := by
  induction pre generalizing before gap with
  | nil => exact (List.append_nil before).symm ▸ hbefore
  | cons part pre ih =>
    rw [List.forall_mem_cons] at h
    have hnext : Ended (before ++ blanks (gap ++ part.lead) ++ part.content ++ rowHead ['\n'] pre) :=
      ih (h.1.ended (before ++ blanks (gap ++ part.lead))) h.2
    rw [rowHead]
    simpa only [List.append_assoc] using hnext

def fileHead (pre : List Part) : List Piece := (.openTag, "<?php\n") :: rowHead [] pre

theorem fileHead_append : fileHead (pre ++ rest) = fileHead pre ++ rowHead (gapAfter [] pre) rest := by
  rw [fileHead, rowHead_append]
  rfl

end RowHead

/-- Directives and the header of a namespace, as far as there are any. -/
def head (ds : List Directive) (space? : Option Text) : List Part :=
  ofDirectives? ds ++ (space?.map ofSpace).toList

variable {ds : List Directive} {space? : Option Text}

/-- What can be written before other code. -/
structure HeadIsPlain (ds : List Directive) (space? : Option Text) : Prop where
  directives : ∀ d ∈ ds, d.IsPlain
  once : ds.Pairwise fun d e => Text.eqIgnoreCase d.key e.key = false
  space : ∀ name, space? = some name → IsSpaceName name

theorem ofDirectives?_isRead (h : ∀ d ∈ ds, d.IsPlain) : ∀ part ∈ ofDirectives? ds, part.IsRead := by
  cases ds with
  | nil => exact List.forall_mem_nil _
  | cons d ds =>
    intro part hpart
    rw [List.mem_singleton.mp hpart]
    exact ofDirectives_isRead (List.cons_ne_nil d ds) h

theorem HeadIsPlain.isClosed (h : HeadIsPlain ds space?) : ∀ part ∈ head ds space?, part.IsClosed := by
  intro part hpart
  rcases List.mem_append.mp hpart with hpart | hpart
  · exact (ofDirectives?_isRead h.directives part hpart).toIsClosed
  · cases space? with
    | none => cases hpart
    | some name =>
      obtain rfl := List.mem_singleton.mp hpart
      exact ofSpace_isClosed (h.space name rfl)

end Part

/-- Every name in some code says what it is about by what stands around it: it names a namespace, or it is
the key of a directive. -/
def BindsNames (ks : List TokenKind) : Prop :=
  ∀ (p : Nat) (kind : TokenKind), ks[p]? = some kind → kind.isName →
    (∃ q, p = q + 1 ∧ ks[q]? = some .kwNamespace) ∨ kind = .ident ∧ ks[p + 1]? = some .equals ∧
      ((∃ q, p = q + 1 ∧ ks[q]? = some .comma) ∨
        ∃ q, p = q + 2 ∧ ks[q]? = some .kwDeclare ∧ ks[q + 1]? = some .leftParen)

namespace BindsNames

theorem nil : BindsNames [] := fun _ _ h => nomatch h

theorem append {ks ls : List TokenKind} (hks : BindsNames ks) (hls : BindsNames ls) :
    BindsNames (ks ++ ls) := by
  intro p kind hp hname
  have hleft {q : Nat} {kind : TokenKind} (h : ks[q]? = some kind) : (ks ++ ls)[q]? = some kind := by
    rw [List.getElem?_append_left (List.getElem?_eq_some_iff.mp h).1, h]
  have hright (q : Nat) : (ks ++ ls)[ks.length + q]? = ls[q]? := by
    rw [List.getElem?_append_right (Nat.le_add_right _ _), Nat.add_sub_cancel_left]
  by_cases hlt : p < ks.length
  · rw [List.getElem?_append_left hlt] at hp
    rcases hks p kind hp hname with ⟨q, hq, hspace⟩ | ⟨hident, hequals, hbefore⟩
    · exact .inl ⟨q, hq, hleft hspace⟩
    · refine .inr ⟨hident, hleft hequals, ?_⟩
      rcases hbefore with ⟨q, hq, hcomma⟩ | ⟨q, hq, hdeclare, hparen⟩
      · exact .inl ⟨q, hq, hleft hcomma⟩
      · exact .inr ⟨q, hq, hleft hdeclare, hleft hparen⟩
  · obtain ⟨m, rfl⟩ := Nat.exists_eq_add_of_le (Nat.le_of_not_lt hlt)
    rw [hright] at hp
    rcases hls m kind hp hname with ⟨q, rfl, hspace⟩ | ⟨hident, hequals, hbefore⟩
    · exact .inl ⟨ks.length + q, rfl, (hright q).trans hspace⟩
    · refine .inr ⟨hident, (hright (m + 1)).trans hequals, ?_⟩
      rcases hbefore with ⟨q, rfl, hcomma⟩ | ⟨q, rfl, hdeclare, hparen⟩
      · exact .inl ⟨ks.length + q, rfl, (hright q).trans hcomma⟩
      · exact .inr ⟨ks.length + q, rfl, (hright q).trans hdeclare, (hright (q + 1)).trans hparen⟩

theorem of_no_name {ks : List TokenKind} (h : ∀ kind ∈ ks, kind.isName = false) : BindsNames ks := by
  intro p kind hp hname
  rw [h kind (List.mem_of_getElem? hp)] at hname
  cases hname

/-- A directive after a comma, or at the start of a list. -/
theorem directive {before : List TokenKind} (h : before = [.comma] ∨ before = [.kwDeclare, .leftParen])
    {value : TokenKind} (hvalue : value.isName = false) : BindsNames (before ++ [.ident, .equals, value]) := by
  intro p kind hp hname
  have hplain {other : TokenKind} (hother : other.isName = false) : some other ≠ some kind := by
    rintro ⟨⟩
    rw [hother] at hname
    cases hname
  rcases h with rfl | rfl
  · match p with
    | 0 => exact absurd hp (hplain rfl)
    | 1 => exact .inr ⟨(Option.some.inj hp).symm, rfl, .inl ⟨0, rfl, rfl⟩⟩
    | 2 => exact absurd hp (hplain rfl)
    | 3 => exact absurd hp (hplain hvalue)
    | p + 4 => cases hp
  · match p with
    | 0 => exact absurd hp (hplain rfl)
    | 1 => exact absurd hp (hplain rfl)
    | 2 => exact .inr ⟨(Option.some.inj hp).symm, rfl, .inr ⟨0, rfl, rfl, rfl⟩⟩
    | 3 => exact absurd hp (hplain rfl)
    | 4 => exact absurd hp (hplain hvalue)
    | p + 5 => cases hp

theorem contents {ds : List Directive} (hne : ds ≠ []) {before : List TokenKind}
    (h : before = [.comma] ∨ before = [.kwDeclare, .leftParen]) :
    BindsNames (before ++ (Piece.code (Directive.contents ds)).map (·.1)) := by
  have hvalue (d : Directive) : (Lexer.literalKind d.value).isName = false := by
    rw [Lexer.literalKind]
    split <;> rfl
  induction ds generalizing before with
  | nil => exact absurd rfl hne
  | cons d ds ih =>
    cases ds with
    | nil =>
      rw [Directive.contents, Directive.code_content]
      exact directive h (hvalue d)
    | cons e ds =>
      have hrest := ih (List.cons_ne_nil e ds) (.inl rfl)
      rw [Directive.contents, Piece.code_append, Piece.code_append, Directive.code_content,
        List.map_append, List.map_append, ← List.append_assoc, ← List.append_assoc, List.append_assoc]
      exact (directive h (hvalue d)).append hrest

theorem ofDirectives? (ds : List Directive) :
    BindsNames ((Part.ofDirectives? ds).flatMap fun part => (Piece.code part.content).map (·.1)) := by
  cases ds with
  | nil => exact nil
  | cons d ds =>
    have hcall := contents (List.cons_ne_nil d ds) (.inr rfl)
    rw [Part.ofDirectives?, List.isEmpty_cons, if_neg Bool.false_ne_true, List.flatMap_singleton,
      Part.ofDirectives, Piece.code_append, Part.code_declareCall]
    have hends : BindsNames [.rightParen, .semicolon] := of_no_name (by decide)
    have hstop : Piece.code [(TokenKind.semicolon, [';'])] = [(.semicolon, [';'])] := rfl
    simpa [hstop] using hcall.append hends

theorem ofSpace {name : Text} (h : IsSpaceName name) :
    BindsNames ((Piece.code (Part.ofSpace name).content).map (·.1)) := by
  have hcode : (Piece.code (Part.ofSpace name).content).map (·.1) =
      [.kwNamespace, Lexer.nameKind (some .kwNamespace) name, .semicolon] := by
    rw [Part.ofSpace]
    rcases h.kind with hkind | hkind <;> rw [hkind] <;> rfl
  rw [hcode]
  intro p kind hp hname
  rcases p with _ | _ | _ | p
  · cases hp
    cases hname
  · exact .inl ⟨0, rfl, rfl⟩
  · cases hp
    cases hname
  · cases hp

theorem head {ds : List Directive} {space? : Option Text} (h : ∀ name, space? = some name → IsSpaceName name) :
    BindsNames ((Part.head ds space?).flatMap fun part => (Piece.code part.content).map (·.1)) := by
  rw [Part.head, List.flatMap_append]
  refine (ofDirectives? ds).append ?_
  cases space? with
  | none => exact nil
  | some name => simpa using ofSpace (h name rfl)

end BindsNames

namespace Part

theorem code_rowHead (gap : Text) (pre : List Part) :
    Piece.code (rowHead gap pre) = pre.flatMap fun part => Piece.code part.content := by
  induction pre generalizing gap with
  | nil => rfl
  | cons part pre ih =>
    rw [rowHead, Piece.code_append, Piece.code_append, code_blanks, ih, List.flatMap_cons]
    rfl

theorem kinds_fileHead (pre : List Part) : (Piece.code (fileHead pre)).map (·.1) =
    pre.flatMap fun part => (Piece.code part.content).map (·.1) := by
  have htag : Piece.code (fileHead pre) = Piece.code (rowHead [] pre) := rfl
  rw [htag, code_rowHead, List.map_flatMap]

/-- No comment in the head documents anything. -/
theorem kind_fileHead (ds : List Directive) (space? : Option Text) :
    ∀ p ∈ fileHead (head ds space?), p.1 ≠ .docComment := by
  have hblanks (w : Text) : ∀ p ∈ blanks w, p.1 ≠ .docComment := by
    intro p hp
    rw [blanks] at hp
    split at hp
    · cases hp
    · rw [List.mem_singleton.mp hp]
      exact TokenKind.noConfusion
  have hrow (gap : Text) {pre : List Part} (h : ∀ part ∈ pre, ∀ p ∈ part.content, p.1 ≠ .docComment) :
      ∀ p ∈ rowHead gap pre, p.1 ≠ .docComment := by
    induction pre generalizing gap with
    | nil => exact List.forall_mem_nil _
    | cons part pre ih =>
      rw [List.forall_mem_cons] at h
      exact List.forall_mem_append.mpr
        ⟨List.forall_mem_append.mpr ⟨hblanks _, h.1⟩, ih _ h.2⟩
  refine List.forall_mem_cons.mpr ⟨TokenKind.noConfusion,
    hrow [] (List.forall_mem_append.mpr ⟨?_, ?_⟩)⟩
  · cases ds with
    | nil => exact List.forall_mem_nil _
    | cons d ds =>
      intro part hpart p hp
      obtain rfl := List.mem_singleton.mp hpart
      rw [ofDirectives, declareCall] at hp
      rcases List.mem_append.mp hp with hp | hp
      · rcases List.mem_cons.mp hp with rfl | hp
        · exact TokenKind.noConfusion
        rcases List.mem_cons.mp hp with rfl | hp
        · exact TokenKind.noConfusion
        rcases List.mem_append.mp hp with hp | hp
        · intro hkind
          have hcontents := kind_contents p hp
          rw [hkind] at hcontents
          exact absurd hcontents (by decide)
        · rw [List.mem_singleton.mp hp]
          exact TokenKind.noConfusion
      · rw [List.mem_singleton.mp hp]
        exact TokenKind.noConfusion
  · cases space? with
    | none => exact List.forall_mem_nil _
    | some name =>
      intro part hpart p hp
      obtain rfl := List.mem_singleton.mp hpart
      have hname := Lexer.nameKind_ne_docComment (some .kwNamespace) name
      revert hp
      simp only [ofSpace, List.cons_append, List.nil_append, List.mem_cons, List.not_mem_nil, or_false]
      rintro (rfl | rfl | rfl | rfl) <;> first | exact hname | exact TokenKind.noConfusion

end Part
end NamespaceMigration
