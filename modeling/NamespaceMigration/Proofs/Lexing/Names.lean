import Mathlib.Data.List.Basic
import NamespaceMigration.Proofs.Lexing.Pieces
import NamespaceMigration.Text.Basic
import NamespaceMigration.Token.Lexer

/-! The kinds of tokens that each scanner finds, and the shape of names. What none of these kinds is like no token
of code is. -/
namespace NamespaceMigration
namespace Word

def keywordKinds : List TokenKind := .magicConstant :: .keyword :: ownKinds.map (·.2)

theorem mem_keywordKinds {word : Text} {kind : TokenKind} (h : keywordKind? word = some kind) :
    kind ∈ keywordKinds := by
  rw [keywordKind?] at h
  split_ifs at h
  · rw [← Option.some.inj h]
    exact List.mem_cons_self
  · rw [← Option.some.inj h]
    exact List.mem_cons_of_mem _ List.mem_cons_self
  · obtain ⟨before, after, hown, -⟩ := List.lookup_eq_some_iff.mp h
    refine List.mem_cons_of_mem _ (List.mem_cons_of_mem _ (List.mem_map.mpr ⟨(word.toLowerAscii, kind), ?_, rfl⟩))
    rw [hown]
    exact List.mem_append_right _ List.mem_cons_self

def kinds : List TokenKind := .ident :: .nameQualified :: .nameRelative :: keywordKinds

end Word

namespace Lexer

theorem nameKind_mem (last : Option TokenKind) (name : Text) : nameKind last name ∈ Word.kinds := by
  rw [nameKind]
  split_ifs
  · simp [Word.kinds]
  · simp [Word.kinds]
  · simp [Word.kinds]
  · cases hkeyword : Word.keywordKind? name with
    | none => exact List.mem_cons_self
    | some kind =>
      have hmem := Word.mem_keywordKinds hkeyword
      simp [Word.kinds, hmem]

/-- The kinds of what a symbol starts, where it is not its own. -/
def startedKinds : List TokenKind :=
  [.heredoc, .error, .lineComment, .blockComment, .docComment, .nullsafeArrow, .closeTag, .question,
    .nameFullyQualified, .backslash, .variable, .dollar, .ellipsis, .operator, .number]

def symbolKinds : List TokenKind := startedKinds ++ symbols.map (·.2)

theorem afterSymbol_mem {e : Text × TokenKind} (he : e ∈ symbols) (t : Text) :
    (afterSymbol e.1 e.2 t).1 ∈ symbolKinds := by
  rw [symbolKinds, List.mem_append]
  unfold afterSymbol
  split
  · left
    split <;> simp [startedKinds]
  · exact .inl (by simp [startedKinds])
  · left
    dsimp only
    split <;> simp [startedKinds]
  · left
    unfold afterQuestion
    split <;> simp [startedKinds]
  · left
    split <;> simp [startedKinds]
  · left
    split <;> simp [startedKinds]
  · split
    · left
      unfold afterDot
      split
      case h_3 => dsimp only; split <;> simp [startedKinds]
      all_goals simp [startedKinds]
    · exact .inr (List.mem_map_of_mem he)

def codeKinds : List TokenKind := .whitespace :: .number :: .string :: .error :: (Word.kinds ++ symbolKinds)

theorem scanCode_mem (last : Option TokenKind) (t : Text) : (scanCode last t).1 ∈ codeKinds := by
  cases t with
  | nil => simp [scanCode, codeKinds]
  | cons c t =>
    rw [scanCode]
    split_ifs
    · exact List.mem_cons_self
    · have hword := nameKind_mem last ((c :: t).take (nameLength (c :: t)))
      simp [codeKinds, hword]
    · simp [codeKinds]
    · split <;> simp [codeKinds]
    · split
      · rename_i symbol kind hfind
        have hsymbol := afterSymbol_mem (List.mem_of_find?_eq_some hfind) ((c :: t).drop symbol.length)
        simp only [codeKinds, List.mem_cons, List.mem_append, hsymbol, or_true]
      · simp [codeKinds]

/-- A word begins like a name. -/
theorem scanCode_word {last : Option TokenKind} {t : Text} (h : (scanCode last t).1 ∈ Word.kinds) :
    t.head?.any isNameStart := by
  cases t with
  | nil => exact absurd h (show .error ∉ Word.kinds by decide)
  | cons c t =>
    rw [scanCode] at h
    split_ifs at h with hspace hname
    · exact absurd h (show .whitespace ∉ Word.kinds by decide)
    · exact hname
    · exact absurd h (show .number ∉ Word.kinds by decide)
    · split at h
      · exact absurd h (show .string ∉ Word.kinds by decide)
      · exact absurd h (show .error ∉ Word.kinds by decide)
    · split at h
      · rename_i symbol kind hfind
        have hsymbols : ∀ kind ∈ symbolKinds, kind ∉ Word.kinds := by decide
        exact absurd h (hsymbols _ (afterSymbol_mem (List.mem_of_find?_eq_some hfind) _))
      · exact absurd h (show .error ∉ Word.kinds by decide)

theorem not_isNameChar_backslash : isNameChar '\\' = false := by decide

theorem isNameChar_of_isNameStart {c : Char} (h : isNameStart c) : isNameChar c := by
  simp [isNameChar, h]

/-- A name without a leading backslash. -/
def IsName (t : Text) : Prop := t.head?.any isNameStart ∧ nameLength t = t.length

instance (t : Text) : Decidable (IsName t) := inferInstanceAs (Decidable (_ ∧ _))

theorem nameLength_cons_eq_length_iff {c : Char} {t : Text} :
    nameLength (c :: t) = (c :: t).length ↔
      (isNameChar c ∨ c = '\\' ∧ t.head?.any isNameStart) ∧ nameLength t = t.length := by
  simp only [nameLength, List.length_cons]
  split_ifs with h1 h2
  · simp only [h1, true_or, true_and]
    omega
  · simp only [h2, and_self, or_true, true_and]
    omega
  · simp [h1, h2]

/-- A name goes on exactly over what follows it. -/
theorem nameLength_append {t : Text} (h : nameLength t = t.length) (r : Text) :
    nameLength (t ++ r) = t.length + nameLength r := by
  induction t with
  | nil => simp
  | cons c t ih =>
    obtain ⟨hc, ht⟩ := nameLength_cons_eq_length_iff.mp h
    have ih := ih ht
    rw [List.cons_append, nameLength, List.length_cons]
    rcases hc with hc | ⟨rfl, hhead⟩
    · rw [if_pos hc, ih]
      omega
    · have hhead' : (t ++ r).head?.any isNameStart := by
        cases t with
        | nil => simp at hhead
        | cons d t => simpa using hhead
      rw [if_neg (by simp [not_isNameChar_backslash]), if_pos ⟨rfl, hhead'⟩, ih]
      omega

theorem nameLength_append_eq_length_iff {t r : Text} :
    nameLength (t ++ r) = t.length ↔ nameLength t = t.length ∧ nameLength r = 0 := by
  constructor
  · intro h
    suffices ht : nameLength t = t.length by
      exact ⟨ht, by rw [nameLength_append ht] at h; omega⟩
    induction t with
    | nil => rfl
    | cons c t ih =>
      rw [List.cons_append, nameLength] at h
      rw [nameLength_cons_eq_length_iff]
      split_ifs at h with h1 h2
      · simp only [List.length_cons] at h
        exact ⟨Or.inl h1, ih (by omega)⟩
      · simp only [List.length_cons] at h
        cases t with
        | nil =>
          -- A backslash at the end would need a segment in what follows.
          obtain ⟨d, u, rfl⟩ : ∃ d u, r = d :: u := List.exists_cons_of_ne_nil (by
            rintro rfl
            simp at h2)
          have := nameLength_pos (c := d) (by simpa using h2.2) u
          simp only [List.nil_append, List.length_nil] at h
          omega
        | cons d t => exact ⟨Or.inr ⟨h2.1, by simpa using h2.2⟩, ih (by omega)⟩
  · rintro ⟨ht, hr⟩
    simp [nameLength_append ht, hr]

theorem nameLength_cons_eq_zero_iff {c : Char} {t : Text} :
    nameLength (c :: t) = 0 ↔ isNameChar c = false ∧ ¬(c = '\\' ∧ t.head?.any isNameStart) := by
  rw [nameLength]
  split_ifs with h1 h2
  · simp only [h1, Bool.true_eq_false, false_and, iff_false]
    omega
  · simp only [h2, and_self, not_true_eq_false, and_false, iff_false]
    omega
  · simp only [h2, not_false_eq_true, and_true, true_iff]
    simpa using h1

namespace IsName

theorem ne_nil {t : Text} (h : IsName t) : t ≠ [] := by
  rintro rfl
  simp [IsName] at h

theorem join {a b : Text} (ha : IsName a) (hb : IsName b) : IsName (a ++ '\\' :: b) := by
  obtain ⟨c, t, rfl⟩ := List.exists_cons_of_ne_nil ha.ne_nil
  refine ⟨by simpa using ha.1, ?_⟩
  have hb' : nameLength ('\\' :: b) = ('\\' :: b).length :=
    nameLength_cons_eq_length_iff.mpr ⟨Or.inr ⟨rfl, hb.1⟩, hb.2⟩
  rw [nameLength_append ha.2, hb', List.length_append]

/-- What comes after a backslash of a name is a name, and so is what comes before it. -/
theorem of_append {a b : Text} (h : IsName (a ++ '\\' :: b)) : IsName a ∧ IsName b := by
  have key : nameLength a = a.length ∧ IsName b := by
    have hlen := h.2
    clear h
    induction a with
    | nil =>
      obtain ⟨hc, hb⟩ := nameLength_cons_eq_length_iff.mp hlen
      exact ⟨rfl, by simpa [not_isNameChar_backslash] using hc, hb⟩
    | cons c a ih =>
      rw [List.cons_append, nameLength_cons_eq_length_iff] at hlen
      obtain ⟨ha, hb⟩ := ih hlen.2
      refine ⟨nameLength_cons_eq_length_iff.mpr ⟨?_, ha⟩, hb⟩
      rcases hlen.1 with hc | ⟨rfl, hhead⟩
      · exact Or.inl hc
      · cases a with
        | nil => simp [isNameStart] at hhead
        | cons d a => exact Or.inr ⟨rfl, by simpa using hhead⟩
  refine ⟨⟨?_, key.1⟩, key.2⟩
  cases a with
  | nil => simpa [isNameStart] using h.1
  | cons c a => simpa using h.1

theorem not_mem {t : Text} (h : IsName t) {c : Char} (hc : isNameChar c = false) (hb : c ≠ '\\') :
    c ∉ t := by
  have hlen := h.2
  clear h
  induction t with
  | nil => simp
  | cons d t ih =>
    obtain ⟨hd, ht⟩ := nameLength_cons_eq_length_iff.mp hlen
    rw [List.mem_cons, not_or]
    refine ⟨?_, ih ht⟩
    rintro rfl
    rcases hd with hd | ⟨rfl, -⟩
    · simp [hc] at hd
    · exact hb rfl

end IsName

/-- The text of each kind of name token. -/
def HasNameShape : TokenKind → Text → Prop
  | .ident, t => IsName t ∧ '\\' ∉ t
  | .nameQualified, t | .nameRelative, t => IsName t ∧ '\\' ∈ t
  | .nameFullyQualified, t => ∃ u, t = '\\' :: u ∧ IsName u
  | _, _ => True

theorem HasNameShape.isName {kind : TokenKind} {t : Text} (h : HasNameShape kind t)
    (hkind : kind.isName) (hfull : kind ≠ .nameFullyQualified) : IsName t := by
  cases kind <;> first | exact h.1 | exact absurd rfl hfull | cases hkind

theorem hasNameShape_of_not_isName {kind : TokenKind} (h : kind.isName = false) (t : Text) :
    HasNameShape kind t := by
  cases kind <;> simp_all [HasNameShape, TokenKind.isName]

theorem keywordKind?_isName {word : Text} {kind : TokenKind}
    (h : Word.keywordKind? word = some kind) : kind.isName = false := by
  have hplain : ∀ kind ∈ Word.keywordKinds, kind.isName = false := by decide
  exact hplain kind (Word.mem_keywordKinds h)

theorem nameKind_shape {last : Option TokenKind} {name : Text} (h : IsName name) :
    HasNameShape (nameKind last name) name := by
  unfold nameKind
  split_ifs with hb hrel hlast
  · exact ⟨h, hb⟩
  · exact ⟨h, hb⟩
  · exact ⟨h, hb⟩
  · cases hk : Word.keywordKind? name with
    | none => exact ⟨h, hb⟩
    | some kind => exact hasNameShape_of_not_isName (keywordKind?_isName hk) name

theorem isName_take {t : Text} (h : t.head?.any isNameStart) :
    IsName (t.take (nameLength t)) := by
  have hlen : (t.take (nameLength t)).length = nameLength t := by
    rw [List.length_take]
    have := nameLength_le t
    omega
  have happ : nameLength (t.take (nameLength t) ++ t.drop (nameLength t)) =
      (t.take (nameLength t)).length := by
    rw [List.take_append_drop, hlen]
  obtain ⟨c, u, rfl⟩ : ∃ c u, t = c :: u := List.exists_cons_of_ne_nil (by rintro rfl; simp at h)
  have hc : isNameStart c := by simpa using h
  obtain ⟨n, hn⟩ := Nat.exists_eq_add_of_lt (nameLength_pos hc u)
  refine ⟨?_, (nameLength_append_eq_length_iff.mp happ).1⟩
  simp [hn, hc]

theorem symbols_not_isName : ∀ e ∈ symbols, e.2.isName = false := by decide

theorem symbols_backslash : ∀ e ∈ symbols, e.2 = .backslash → e.1 = ['\\'] := by decide

/-- Of the tokens that start with a symbol only a name in full is a name. -/
theorem afterSymbol_shape {e : Text × TokenKind} (he : e ∈ symbols) (t : Text) :
    HasNameShape (afterSymbol e.1 e.2 t).1 ((e.1 ++ t).take (afterSymbol e.1 e.2 t).2) := by
  unfold afterSymbol
  split
  · split <;> trivial
  · trivial
  · dsimp only
    split <;> trivial
  · unfold afterQuestion
    split <;> trivial
  · rename_i hk
    rw [symbols_backslash e he hk]
    split
    · rename_i hhead
      exact ⟨t.take (nameLength t), by simp [Nat.add_comm 1], isName_take hhead⟩
    · trivial
  · split <;> trivial
  · split
    · unfold afterDot
      split <;> try trivial
      split <;> trivial
    · exact hasNameShape_of_not_isName (symbols_not_isName e he) _

theorem scanCode_shape (last : Option TokenKind) (t : Text) :
    HasNameShape (scanCode last t).1 (t.take (scanCode last t).2) := by
  cases t with
  | nil => trivial
  | cons c t =>
    rw [scanCode]
    split_ifs with hspace hname hdigit hquote
    · trivial
    · exact nameKind_shape (isName_take (by simpa using hname))
    · trivial
    · split <;> trivial
    · split
      · rename_i symbol kind hfind
        have hshape := afterSymbol_shape (List.mem_of_find?_eq_some hfind)
          ((c :: t).drop symbol.length)
        obtain ⟨r, hr⟩ : symbol <+: c :: t := by
          simpa [Text.startsWith] using List.find?_some hfind
        rw [← hr] at hshape ⊢
        simpa using hshape
      · trivial

theorem State.scan_shape (s : State) (t : Text) :
    HasNameShape (s.scan t).1 (t.take (s.scan t).2) := by
  unfold State.scan
  split
  · unfold scanHtml
    split
    · dsimp only
      split <;> trivial
    · trivial
  · exact scanCode_shape _ t
  · trivial

theorem Lexes.shape {s : State} {ps : List Piece} (h : Lexes s ps) :
    ∀ p ∈ ps, HasNameShape p.1 p.2 := by
  induction h with
  | nil => simp
  | @cons s kind text ps _ hscan _ ih =>
    have hshape := s.scan_shape (text ++ Piece.print ps)
    rw [hscan] at hshape
    simp only [List.take_left] at hshape
    simpa using ⟨hshape, fun k t h => ih (k, t) h⟩

theorem pieces_shape {t : Text} {p : Piece} (h : p ∈ pieces t) : HasNameShape p.1 p.2 :=
  (lexes_pieces t).shape p h

theorem isBlank_of_isSpace {c : Char} (h : isSpace c) : isBlank c := by
  rcases (by simpa [isSpace] using h : ((c = ' ' ∨ c = '\t') ∨ c = '\r') ∨ c = '\n') with
    ((rfl | rfl) | rfl) | rfl <;> rfl

theorem scanCode_whitespace {last : Option TokenKind} {t : Text}
    (h : (scanCode last t).1 = .whitespace) : ∀ c ∈ t.take (scanCode last t).2, isSpace c := by
  cases t with
  | nil => cases h
  | cons c t =>
    rw [scanCode] at h ⊢
    split_ifs at h ⊢ with hspace
    · rw [Nat.add_comm, List.take_succ_cons, List.forall_mem_cons]
      refine ⟨hspace, fun d hd => ?_⟩
      rw [runLength, ← List.prefix_iff_eq_take.mp (List.takeWhile_prefix _)] at hd
      exact List.all_eq_true.mp List.all_takeWhile d hd
    · exact absurd (h ▸ nameKind_mem _ _) (show .whitespace ∉ Word.kinds by decide)
    · split at h <;> cases h
    · split at h
      · rename_i hfind
        exact absurd (h ▸ afterSymbol_mem (List.mem_of_find?_eq_some hfind) _)
          (show .whitespace ∉ symbolKinds by decide)
      · cases h

theorem State.scan_whitespace {s : State} {t : Text} (h : (s.scan t).1 = .whitespace) :
    ∀ c ∈ t.take (s.scan t).2, isSpace c := by
  unfold State.scan at h ⊢
  split at h
  · unfold scanHtml at h
    split at h
    · dsimp only at h
      split at h <;> cases h
    · cases h
  · exact scanCode_whitespace h
  · cases h

theorem Lexes.isSpace_of_whitespace {s : State} {ps : List Piece} (h : Lexes s ps) {text : Text}
    (hmem : (TokenKind.whitespace, text) ∈ ps) : ∀ c ∈ text, Lexer.isSpace c := by
  induction h with
  | nil => cases hmem
  | @cons s kind w ps _ hscan _ ih =>
    rcases List.mem_cons.mp hmem with heq | hmem
    · cases heq
      have hkind : (s.scan (text ++ Piece.print ps)).1 = .whitespace := by rw [hscan]
      have hspaces := s.scan_whitespace hkind
      rw [hscan, List.take_left] at hspaces
      exact hspaces
    · exact ih hmem

theorem isBlank_of_whitespace {t : Text} {token : Token} (htoken : token ∈ tokenize t)
    (hkind : token.kind = .whitespace) : ∀ c ∈ token.text, isBlank c := by
  have hpiece : (token.kind, token.text) ∈ pieces t := List.mem_map_of_mem htoken
  rw [hkind] at hpiece
  exact fun c hc => isBlank_of_isSpace ((lexes_pieces t).isSpace_of_whitespace hpiece c hc)

end Lexer

end NamespaceMigration
