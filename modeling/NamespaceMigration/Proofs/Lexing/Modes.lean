import NamespaceMigration.Proofs.Lexing.Joining

/-! The mode of the lexer between two tokens. Outside code there are opening tags and the text before them,
and in the data at the end there is only data, so the kinds of the tokens around a place tell its mode. -/
namespace NamespaceMigration

namespace TokenKind

/-- The kinds of tokens outside code: opening tags, and the text before them. -/
def isOutside : TokenKind → Bool
  | openTag | openTagEcho | inlineHtml => true
  | _ => false

end TokenKind

namespace Lexer

namespace State

variable {s : State} {t : Text}

theorem isOutside_of_html (h : s.mode = .html) : (s.scan t).1.isOutside := by
  rw [scan_of_html h, scanHtml]
  split
  · dsimp only
    split <;> rfl
  · rfl

theorem inlineHtml_of_data (h : s.mode = .data) : (s.scan t).1 = .inlineHtml := by rw [scan_of_data h]

theorem mode_of_not_isOutside (h : (s.scan t).1.isOutside = false) : s.mode = .code := by
  cases hmode : s.mode with
  | html =>
    rw [isOutside_of_html hmode] at h
    cases h
  | code => rfl
  | data =>
    rw [inlineHtml_of_data hmode] at h
    cases h

theorem next_of_data (h : s.mode = .data) (kind : TokenKind) : (s.next kind).mode = .data := by
  obtain ⟨mode, last, halting⟩ := s
  obtain rfl : mode = .data := h
  rfl

theorem next_of_html (h : s.mode = .html) : (s.next .inlineHtml).mode = .html := by
  obtain ⟨mode, last, halting⟩ := s
  obtain rfl : mode = .html := h
  rfl

theorem next_openTag (h : s.mode = .html) : (s.next .openTag).mode = .code := by
  obtain ⟨mode, last, halting⟩ := s
  obtain rfl : mode = .html := h
  rfl

theorem next_of_code (h : s.mode = .code) {kind : TokenKind} (hkind : kind ≠ .closeTag) :
    (s.next kind).mode = .code ∨ (s.next kind).mode = .data := by
  by_cases hstop : kind = .semicolon
  · obtain ⟨mode, last, halting⟩ := s
    obtain rfl : mode = .code := h
    subst hstop
    cases halting
    · exact .inl rfl
    · exact .inr rfl
  · exact .inl (nextMode_of_code h hkind hstop)

end State

/-- The mode of the lexer after the first tokens of a text. -/
def modeAt (t : Text) (i : Nat) : Mode := (State.initial.after ((pieces t).take i)).mode

variable {t : Text} {i j : Nat} {token : Token}

/-- A token is scanned in the state after the tokens before it. -/
theorem scan_at (h : (tokenize t)[i]? = some token) : ∃ rest,
    ((State.initial.after ((pieces t).take i)).scan rest).1 = token.kind ∧
      modeAt t (i + 1) = ((State.initial.after ((pieces t).take i)).next token.kind).mode := by
  have hpiece : (pieces t)[i]? = some (token.kind, token.text) := by
    rw [pieces, List.getElem?_map, h]
    rfl
  obtain ⟨hi, hget⟩ := List.getElem?_eq_some_iff.mp hpiece
  have hsplit : pieces t = (pieces t).take i ++ (token.kind, token.text) :: (pieces t).drop (i + 1) := by
    rw [← hget, ← List.drop_eq_getElem_cons hi, List.take_append_drop]
  have hlexes := lexes_pieces t
  rw [hsplit] at hlexes
  refine ⟨token.text ++ Piece.print ((pieces t).drop (i + 1)), ?_, ?_⟩
  · cases hlexes.suffix with
    | cons _ hscan _ => rw [hscan]
  · rw [modeAt, List.take_add_one, hpiece, State.after, List.foldl_append]
    rfl

theorem modeAt_of_not_isOutside (h : (tokenize t)[i]? = some token) (hkind : token.kind.isOutside = false) :
    modeAt t i = .code := by
  obtain ⟨rest, hscan, -⟩ := scan_at h
  exact State.mode_of_not_isOutside (t := rest) (by rw [hscan]; exact hkind)

theorem modeAt_data (h : modeAt t i = .data) (hij : i ≤ j) : modeAt t j = .data := by
  induction j, hij using Nat.le_induction with
  | base => exact h
  | succ j _ ih =>
    cases hpiece : (pieces t)[j]? with
    | none => rwa [modeAt, List.take_add_one, hpiece, Option.toList_none, List.append_nil]
    | some piece =>
      rw [modeAt, List.take_add_one, hpiece, State.after, List.foldl_append]
      exact State.next_of_data ih piece.1

theorem modeAt_between {other : Token} (h : (tokenize t)[i]? = some token)
    (hkind : token.kind.isOutside = false) (hclose : token.kind ≠ .closeTag)
    (hother : (tokenize t)[j]? = some other) (hkind' : other.kind.isOutside = false) (hij : i < j) :
    modeAt t (i + 1) = .code := by
  obtain ⟨rest, hscan, hnext⟩ := scan_at h
  have hmode : (State.initial.after ((pieces t).take i)).mode = .code := modeAt_of_not_isOutside h hkind
  rw [hnext]
  refine (State.next_of_code hmode hclose).resolve_right fun hdata => ?_
  have hlater := modeAt_data (hnext.trans hdata) hij
  rw [modeAt_of_not_isOutside hother hkind'] at hlater
  cases hlater

theorem isOutside_of_modeAt (h : (tokenize t)[i]? = some token) (hmode : modeAt t i = .html) :
    token.kind.isOutside := by
  obtain ⟨rest, hscan, -⟩ := scan_at h
  rw [← hscan]
  exact State.isOutside_of_html hmode

theorem kind_of_modeAt_html (h : (tokenize t)[i]? = some token) (hmode : modeAt t i = .html)
    (hopen : token.kind ≠ .openTag) (hecho : token.kind ≠ .openTagEcho) : token.kind = .inlineHtml := by
  have houtside := isOutside_of_modeAt h hmode
  generalize token.kind = kind at hopen hecho houtside
  cases kind <;> first | rfl | exact absurd rfl hopen | exact absurd rfl hecho | cases houtside

theorem modeAt_html (h : ∀ k < i, ∀ token, (tokenize t)[k]? = some token →
    token.kind ≠ .openTag ∧ token.kind ≠ .openTagEcho) : modeAt t i = .html := by
  induction i with
  | zero => rfl
  | succ i ih =>
    have hmode := ih fun k hk => h k (Nat.lt_succ_of_lt hk)
    cases htoken : (tokenize t)[i]? with
    | none =>
      have hnone : (pieces t)[i]? = none := by rw [pieces, List.getElem?_map, htoken, Option.map_none]
      rwa [modeAt, List.take_add_one, hnone, Option.toList_none, List.append_nil]
    | some token =>
      obtain ⟨hopen, hecho⟩ := h i (Nat.lt_succ_self i) token htoken
      obtain ⟨rest, -, hnext⟩ := scan_at htoken
      rw [hnext, kind_of_modeAt_html htoken hmode hopen hecho]
      exact State.next_of_html hmode

end Lexer
end NamespaceMigration
