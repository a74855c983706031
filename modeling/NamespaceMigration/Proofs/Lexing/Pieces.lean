import NamespaceMigration.Proofs.Lexing.Bounds
import NamespaceMigration.Statement.Source

/-! The lexer cuts a text into pieces and loses nothing. `Lexes` says that some pieces are the tokens
of the text that they make up, each scanned with all that follows it in view. -/
namespace NamespaceMigration

/-- The kind and the text of a token, without its place. -/
abbrev Piece := TokenKind × Text

namespace Piece

def print (ps : List Piece) : Text := ps.flatMap (·.2)

/-- Pieces as tokens of a text that begins at `offset`. -/
def place (offset : Nat) : List Piece → List Token
  | [] => []
  | p :: ps => ⟨p.1, p.2, offset⟩ :: place (offset + Text.byteSize p.2) ps

@[simp] theorem print_nil : print [] = [] := rfl

@[simp] theorem print_cons (p : Piece) (ps : List Piece) : print (p :: ps) = p.2 ++ print ps := rfl

@[simp] theorem print_append (ps qs : List Piece) : print (ps ++ qs) = print ps ++ print qs := by
  simp [print]

theorem print_flatMap {α β : Type} {f : α → List Piece} {g : β → Text} {xs : List α} {ys : List β}
    (h : List.Forall₂ (fun x y => print (f x) = g y) xs ys) : print (xs.flatMap f) = ys.flatMap g := by
  induction h with
  | nil => rfl
  | cons hxy _ ih => rw [List.flatMap_cons, List.flatMap_cons, print_append, hxy, ih]

@[simp] theorem length_place (offset : Nat) (ps : List Piece) :
    (place offset ps).length = ps.length := by
  induction ps generalizing offset with
  | nil => rfl
  | cons p ps ih => simp [place, ih]

theorem map_place (offset : Nat) (ps : List Piece) :
    (place offset ps).map (fun t => (t.kind, t.text)) = ps := by
  induction ps generalizing offset with
  | nil => rfl
  | cons p ps ih => simp [place, ih]

end Piece

namespace Lexer

/-- The pieces are what the lexer makes of their text, beginning in a state. -/
inductive Lexes : State → List Piece → Prop
  | nil (s : State) : Lexes s []
  | cons {s : State} {kind : TokenKind} {text : Text} {ps : List Piece} (nonempty : text ≠ [])
      (scan : s.scan (text ++ Piece.print ps) = (kind, text.length))
      (rest : Lexes (s.next kind) ps) : Lexes s ((kind, text) :: ps)

theorem tokensFrom_print {s : State} {ps : List Piece} (h : Lexes s ps) {fuel : Nat}
    (offset : Nat) (hf : (Piece.print ps).length ≤ fuel) :
    tokensFrom fuel s offset (Piece.print ps) = Piece.place offset ps := by
  induction h generalizing fuel offset with
  | nil s => cases fuel <;> rfl
  | @cons s kind text ps hne hscan _ ih =>
    obtain ⟨c, u, rfl⟩ := List.exists_cons_of_ne_nil hne
    rw [Piece.print_cons, List.length_append, List.length_cons] at hf
    obtain ⟨fuel, rfl⟩ := Nat.exists_eq_add_of_le' (show 1 ≤ fuel by omega)
    rw [Piece.print_cons, List.cons_append, tokensFrom, ← List.cons_append, hscan]
    dsimp only
    rw [List.take_left, List.drop_left, Piece.place]
    congr 1
    exact ih _ (by omega)

theorem exists_lexes (s : State) (t : Text) : ∃ ps, Lexes s ps ∧ Piece.print ps = t := by
  by_cases ht : t = []
  · exact ⟨[], .nil s, ht.symm⟩
  · obtain ⟨hpos, hle⟩ := s.scan_bounds ht
    obtain ⟨ps, hps, hprint⟩ := exists_lexes (s.next (s.scan t).1) (t.drop (s.scan t).2)
    have hlen : (t.take (s.scan t).2).length = (s.scan t).2 := by
      rw [List.length_take]
      omega
    refine ⟨((s.scan t).1, t.take (s.scan t).2) :: ps, .cons ?_ ?_ hps, ?_⟩
    · exact List.ne_nil_of_length_pos (by omega)
    · rw [hprint, List.take_append_drop, hlen]
    · rw [Piece.print_cons, hprint, List.take_append_drop]
termination_by t.length
decreasing_by
  have := List.length_pos_of_ne_nil ht
  rw [List.length_drop]
  omega

def pieces (t : Text) : List Piece := (tokenize t).map fun token => (token.kind, token.text)

theorem tokenize_print {ps : List Piece} (h : Lexes .initial ps) :
    tokenize (Piece.print ps) = Piece.place 0 ps :=
  tokensFrom_print h 0 (Nat.le_refl _)

theorem pieces_print {ps : List Piece} (h : Lexes .initial ps) : pieces (Piece.print ps) = ps := by
  rw [pieces, tokenize_print h, Piece.map_place]

theorem lexes_pieces (t : Text) : Lexes .initial (pieces t) := by
  obtain ⟨ps, hps, rfl⟩ := exists_lexes .initial t
  rwa [pieces_print hps]

@[simp] theorem print_pieces (t : Text) : Piece.print (pieces t) = t := by
  obtain ⟨ps, hps, rfl⟩ := exists_lexes .initial t
  rw [pieces_print hps]

theorem Lexes.ne_nil {s : State} {ps : List Piece} (h : Lexes s ps) : ∀ p ∈ ps, p.2 ≠ [] := by
  induction h with
  | nil => simp
  | cons hne _ _ ih => simpa using ⟨hne, fun kind text h => ih (kind, text) h⟩

theorem pieces_ne_nil {t : Text} {p : Piece} (h : p ∈ pieces t) : p.2 ≠ [] :=
  (lexes_pieces t).ne_nil p h

theorem tokenize_eq_place (t : Text) : tokenize t = Piece.place 0 (pieces t) := by
  conv_lhs => rw [← print_pieces t]
  exact tokenize_print (lexes_pieces t)

end Lexer

/-- Tokens without gaps: each begins where the one before it ends, the first at `offset`, and none is
empty. -/
def Token.Consecutive : (offset : Nat) → List Token → Prop
  | _, [] => True
  | offset, token :: tokens =>
    token.offset = offset ∧ token.text ≠ [] ∧ Token.Consecutive token.stop tokens

namespace Piece

theorem place_consecutive (offset : Nat) {ps : List Piece} (h : ∀ p ∈ ps, p.2 ≠ []) :
    Token.Consecutive offset (place offset ps) := by
  induction ps generalizing offset with
  | nil => trivial
  | cons p ps ih =>
    rw [List.forall_mem_cons] at h
    exact ⟨rfl, h.1, ih _ h.2⟩

theorem flatMap_place (offset : Nat) (ps : List Piece) :
    (place offset ps).flatMap (·.text) = print ps := by
  induction ps generalizing offset with
  | nil => rfl
  | cons p ps ih => rw [place, List.flatMap_cons, ih, print_cons]

end Piece

namespace Lexer

theorem tokensFrom_length_add (t : Text) (extra : Nat) :
    tokensFrom (t.length + extra) .initial 0 t = tokenize t := by
  have hle : (Piece.print (pieces t)).length ≤ t.length + extra := by
    rw [print_pieces]
    exact Nat.le_add_right _ _
  have htokens := tokensFrom_print (lexes_pieces t) 0 hle
  rw [print_pieces] at htokens
  rw [htokens, tokenize_eq_place]

theorem tokenize_consecutive (t : Text) : Token.Consecutive 0 (tokenize t) := by
  rw [tokenize_eq_place]
  exact Piece.place_consecutive 0 fun _ => pieces_ne_nil

theorem flatMap_tokenize (t : Text) : (tokenize t).flatMap (·.text) = t := by
  rw [tokenize_eq_place, Piece.flatMap_place, print_pieces]

end Lexer

namespace SourceFile

theorem print_parse (t : Text) : (parse t).print = t := Lexer.flatMap_tokenize t

end SourceFile

namespace Lexer

/-- The lexer loses nothing. It comes to the end of every text, each token is what its scanner makes of
all that is left, the tokens follow each other without gaps, and together they are the text; so a file
prints as it was read. -/
theorem tokenize_lossless (t : Text) :
    (∀ extra, tokensFrom (t.length + extra) .initial 0 t = tokenize t) ∧
      Lexes .initial ((tokenize t).map fun token => (token.kind, token.text)) ∧
      Token.Consecutive 0 (tokenize t) ∧
      (tokenize t).flatMap (·.text) = t ∧
      (SourceFile.parse t).print = t :=
  ⟨tokensFrom_length_add t, lexes_pieces t, tokenize_consecutive t, flatMap_tokenize t,
    SourceFile.print_parse t⟩

/-- An open string at the end of a text leaves its last backslash as a token of its own. -/
example : (tokenize "<?php 'a\\").map (·.text) = ["<?php ".toList, "'a".toList, "\\".toList] := by
  decide +kernel

end Lexer

end NamespaceMigration
