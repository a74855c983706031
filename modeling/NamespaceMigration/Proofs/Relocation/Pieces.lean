import NamespaceMigration.Proofs.Relocation.Stretches
import NamespaceMigration.Proofs.Statements.Names

/-! Pieces that stand in two texts are a stretch of the code of both. -/
namespace NamespaceMigration

open Lexer (pieces)

namespace Piece

/-- The pieces that are no trivia. -/
def code (ps : List Piece) : List Piece := ps.filter fun p => !p.1.isTrivia

@[simp] theorem code_nil : code [] = [] := rfl

@[simp] theorem code_append (ps qs : List Piece) : code (ps ++ qs) = code ps ++ code qs :=
  List.filter_append ..

theorem code_cons (p : Piece) (ps : List Piece) :
    code (p :: ps) = if p.1.isTrivia then code ps else p :: code ps := by
  rw [code, List.filter_cons]
  cases p.1.isTrivia <;> rfl

/-- The indices of the pieces that are no trivia, from `k` on. -/
def places (k : Nat) : List Piece → List Nat
  | [] => []
  | p :: ps => if p.1.isTrivia then places (k + 1) ps else k :: places (k + 1) ps

theorem places_add (k l : Nat) (ps : List Piece) : places (k + l) ps = (places l ps).map (k + ·) := by
  induction ps generalizing l with
  | nil => rfl
  | cons p ps ih =>
    rw [places, places, Nat.add_assoc, ih]
    split <;> rfl

theorem places_append (k : Nat) (ps qs : List Piece) :
    places k (ps ++ qs) = places k ps ++ places (k + ps.length) qs := by
  induction ps generalizing k with
  | nil => rfl
  | cons p ps ih =>
    rw [List.cons_append, places, ih, places, List.length_cons, Nat.add_right_comm k 1, ← Nat.add_assoc]
    split <;> rfl

@[simp] theorem length_places (k : Nat) (ps : List Piece) : (places k ps).length = (code ps).length := by
  induction ps generalizing k with
  | nil => rfl
  | cons p ps ih =>
    rw [places, code_cons]
    split
    · exact ih _
    · rw [List.length_cons, List.length_cons, ih]

theorem lt_of_mem_places {k : Nat} {ps : List Piece} : ∀ m ∈ places k ps, k ≤ m ∧ m < k + ps.length := by
  induction ps generalizing k with
  | nil => simp [places]
  | cons p ps ih =>
    rw [places]
    have hlater : ∀ m ∈ places (k + 1) ps, k ≤ m ∧ m < k + (p :: ps).length := fun m hm => by
      have := ih m hm
      rw [List.length_cons]
      omega
    split
    · exact hlater
    · rw [List.forall_mem_cons]
      exact ⟨⟨Nat.le_refl k, by rw [List.length_cons]; omega⟩, hlater⟩

end Piece

namespace Code

/-- The items of a list of tokens whose indices start at `k`. -/
def itemsFrom (k : Nat) (tokens : List Token) : List (Nat × Token) :=
  ((tokens.zipIdx k).map fun (token, index) => (index, token)).filter fun item =>
    !item.2.kind.isTrivia

theorem itemsFrom_cons (k : Nat) (token : Token) (ts : List Token) :
    itemsFrom k (token :: ts) =
      if token.kind.isTrivia then itemsFrom (k + 1) ts else (k, token) :: itemsFrom (k + 1) ts := by
  rw [itemsFrom, List.zipIdx_cons, List.map_cons, List.filter_cons]
  cases token.kind.isTrivia <;> rfl

theorem itemsFrom_place (k offset : Nat) (ps : List Piece) :
    (itemsFrom k (Piece.place offset ps)).map (fun item => (item.2.kind, item.2.text)) =
      Piece.code ps ∧
    (itemsFrom k (Piece.place offset ps)).map (·.1) = Piece.places k ps := by
  induction ps generalizing k offset with
  | nil => exact ⟨rfl, rfl⟩
  | cons p ps ih =>
    obtain ⟨hpieces, hplaces⟩ := ih (k + 1) (offset + Text.byteSize p.2)
    rw [Piece.place, itemsFrom_cons, Piece.code_cons, Piece.places]
    dsimp only
    split
    · exact ⟨hpieces, hplaces⟩
    · rw [List.map_cons, List.map_cons, hpieces, hplaces]
      exact ⟨rfl, rfl⟩

section OfPieces

variable {t : Text} {ps before stretch after : List Piece}

theorem items_ofText (t : Text) :
    (ofText t).items.toList = itemsFrom 0 (Piece.place 0 (pieces t)) := by
  rw [← Lexer.tokenize_eq_place]
  rfl

theorem size_ofText (t : Text) : (ofText t).size = (Piece.code (pieces t)).length := by
  rw [size, ← Array.length_toList, items_ofText, ← (itemsFrom_place 0 0 (pieces t)).1,
    List.length_map]

theorem matching_ofText (t : Text) :
    (ofText t).matching = .ofKinds ((Piece.code (pieces t)).map (·.1)) := by
  rw [← (itemsFrom_place 0 0 (pieces t)).1, List.map_map, ← Lexer.tokenize_eq_place]
  rfl

theorem kind?_ofText (t : Text) (p : Nat) :
    (ofText t).kind? p = (Piece.code (pieces t))[p]?.map (·.1) := by
  rw [kind?, ← Array.getElem?_toList, items_ofText, ← (itemsFrom_place 0 0 (pieces t)).1,
    List.getElem?_map, Option.map_map]
  rfl

theorem text_ofText (t : Text) (p : Nat) :
    (ofText t).text p = ((Piece.code (pieces t))[p]?.map (·.2)).getD [] := by
  rw [text, ← Array.getElem?_toList, items_ofText, ← (itemsFrom_place 0 0 (pieces t)).1,
    List.getElem?_map, Option.map_map]
  rfl

theorem tokenIndex_ofText {p : Nat} (hp : p < (ofText t).size) :
    (Piece.places 0 (pieces t))[p]? = some ((ofText t).tokenIndex p) := by
  obtain ⟨item, hitem⟩ := exists_item hp
  rw [tokenIndex_eq hitem, ← (itemsFrom_place 0 0 (pieces t)).2, ← items_ofText, List.getElem?_map,
    Array.getElem?_toList, hitem]
  rfl

section Stretch

variable (ht : pieces t = before ++ stretch ++ after)
include ht

theorem code_stretch :
    Piece.code (pieces t) = Piece.code before ++ Piece.code stretch ++ Piece.code after := by
  rw [ht, Piece.code_append, Piece.code_append]

theorem size_stretch : (ofText t).size =
    (Piece.code before).length + (Piece.code stretch).length + (Piece.code after).length := by
  rw [size_ofText, code_stretch ht, List.length_append, List.length_append]

theorem getElem?_stretch {i : Nat} (hi : i < (Piece.code stretch).length) :
    (Piece.code (pieces t))[(Piece.code before).length + i]? = (Piece.code stretch)[i]? := by
  rw [code_stretch ht, List.append_assoc, List.getElem?_append_right (Nat.le_add_right _ _),
    Nat.add_sub_cancel_left, List.getElem?_append_left hi]

theorem kind?_after : (ofText t).kind? ((Piece.code before).length + (Piece.code stretch).length) =
    (Piece.code after).head?.map (·.1) := by
  rw [kind?_ofText, code_stretch ht, ← List.length_append,
    List.getElem?_append_right (Nat.le_refl _), Nat.sub_self, List.head?_eq_getElem?]

theorem matching_stretch : (ofText t).matching = .ofKinds ((Piece.code before).map (·.1) ++
    (Piece.code stretch).map (·.1) ++ (Piece.code after).map (·.1)) := by
  rw [matching_ofText, code_stretch ht, List.map_append, List.map_append]

theorem tokenIndex_stretch {i : Nat} (hi : i < (Piece.code stretch).length) :
    ∃ m, (Piece.places 0 stretch)[i]? = some m ∧
      (ofText t).tokenIndex ((Piece.code before).length + i) = before.length + m := by
  have hsize : (Piece.code before).length + i < (ofText t).size := by
    rw [size_stretch ht]
    omega
  have hindex := tokenIndex_ofText hsize
  rw [ht, List.append_assoc, Piece.places_append, Piece.places_append, Nat.zero_add,
    List.getElem?_append_right (by rw [Piece.length_places]; omega), Piece.length_places,
    Nat.add_sub_cancel_left, List.getElem?_append_left (by rwa [Piece.length_places]),
    show before.length = before.length + 0 from rfl, Piece.places_add, List.getElem?_map,
    Option.map_eq_some_iff] at hindex
  obtain ⟨m, hm, hm'⟩ := hindex
  exact ⟨m, hm, hm'.symm⟩

end Stretch

theorem kind_token (t : Text) (k : Nat) :
    (ofText t).tokens[k]?.map Token.kind = (pieces t)[k]?.map (·.1) := by
  rw [pieces, List.getElem?_map, Option.map_map]
  exact congrArg (Option.map Token.kind) List.getElem?_toArray

theorem leadingDoc?_succ (t : Text) (k : Nat) : (ofText t).leadingDoc? (k + 1) =
    match (pieces t)[k]?.map (·.1) with
    | some .docComment => some k
    | some .whitespace | some .lineComment | some .blockComment => (ofText t).leadingDoc? k
    | _ => none := by
  rw [← kind_token]
  rfl

/-- A comment that documents a token of a stretch is the same in both texts, if that is so at its
start. -/
theorem leadingDoc?_stretch {t' : Text} {before' after' : List Piece}
    (ht : pieces t = before ++ stretch ++ after) (ht' : pieces t' = before' ++ stretch ++ after')
    (first : Nat)
    (hfirst : ∃ m? : Option Nat,
      (ofText t).leadingDoc? (before.length + first) = m?.map (before.length + ·) ∧
        (ofText t').leadingDoc? (before'.length + first) = m?.map (before'.length + ·))
    {m : Nat} (hm : first ≤ m) (hlt : m ≤ stretch.length) :
    ∃ m? : Option Nat, (ofText t).leadingDoc? (before.length + m) = m?.map (before.length + ·) ∧
      (ofText t').leadingDoc? (before'.length + m) = m?.map (before'.length + ·) := by
  induction m, hm using Nat.le_induction with
  | base => exact hfirst
  | succ m hm ih =>
    have hpiece (pre post : List Piece) : (pre ++ stretch ++ post)[pre.length + m]? = stretch[m]? := by
      rw [List.append_assoc, List.getElem?_append_right (Nat.le_add_right _ _),
        Nat.add_sub_cancel_left, List.getElem?_append_left hlt]
    rw [← Nat.add_assoc, ← Nat.add_assoc, leadingDoc?_succ, leadingDoc?_succ, ht, ht', hpiece, hpiece]
    split
    · exact ⟨some m, rfl, rfl⟩
    · exact ih (Nat.le_of_succ_le hlt)
    · exact ih (Nat.le_of_succ_le hlt)
    · exact ih (Nat.le_of_succ_le hlt)
    · exact ⟨none, rfl, rfl⟩

end OfPieces

end Code

/-- The place after some pieces of a text. -/
def Code.Place.after (t : Text) (before : List Piece) : Code.Place :=
  ⟨.ofText t, (Piece.code before).length, before.length⟩

open Code (getElem?_stretch kind?_ofText text_ofText tokenIndex_stretch leadingDoc?_succ
  leadingDoc?_stretch)

section

variable {t t' : Text} {before stretch after before' after' : List Piece}
  (ht : pieces t = before ++ stretch ++ after) (ht' : pieces t' = before' ++ stretch ++ after')
include ht ht'

theorem Abreast.of_pieces :
    Abreast (.after t before) (.after t' before') (Piece.code stretch).length where
  le_left := (Code.size_stretch ht).symm ▸ Nat.le_add_right _ _
  le_right := (Code.size_stretch ht').symm ▸ Nat.le_add_right _ _
  kind i hi := by
    simp only [Code.Place.after]
    rw [kind?_ofText, kind?_ofText, getElem?_stretch ht hi, getElem?_stretch ht' hi]
  text i hi := by
    simp only [Code.Place.after]
    rw [text_ofText, text_ofText, getElem?_stretch ht hi, getElem?_stretch ht' hi]
  index i hi := by
    obtain ⟨m, hm, hindex⟩ := tokenIndex_stretch ht hi
    obtain ⟨m', hm', hindex'⟩ := tokenIndex_stretch ht' hi
    rw [hm, Option.some.injEq] at hm'
    exact ⟨m, hindex, hm' ▸ hindex'⟩

/-- The brackets of the first text have no fault, and nothing before the pieces documents them. -/
theorem Parallel.of_pieces (hfaults : (Code.ofText t).matching.faults = [])
    (hdoc : (∃ text rest, stretch = (.docComment, text) :: rest) ∨
      (Code.ofText t).leadingDoc? before.length = none ∧
        (Code.ofText t').leadingDoc? before'.length = none) :
    Parallel (.after t before) (.after t' before') (Piece.code stretch).length where
  toAbreast := .of_pieces ht ht'
  ordered := ⟨Code.ordered_ofTokens _ _, Code.ordered_ofTokens _ _⟩
  doc i hi := by
    obtain ⟨m, hm, hindex⟩ := tokenIndex_stretch ht hi
    obtain ⟨m', hm', hindex'⟩ := tokenIndex_stretch ht' hi
    rw [hm, Option.some.injEq] at hm'
    subst hm'
    simp only [Code.Place.after]
    rw [hindex, hindex']
    have hmem := Piece.lt_of_mem_places m (List.mem_of_getElem? hm)
    rcases hdoc with ⟨text, rest, rfl⟩ | ⟨hnone, hnone'⟩
    · -- The comment is the first piece, and code comes after it.
      refine leadingDoc?_stretch ht ht' 1 ⟨some 0, ?_, ?_⟩ ?_ (by omega)
      · rw [leadingDoc?_succ, ht]
        simp
      · rw [leadingDoc?_succ, ht']
        simp
      · exact (Piece.lt_of_mem_places (k := 1) m (List.mem_of_getElem? hm)).1
    · exact leadingDoc?_stretch ht ht' 0 ⟨none, hnone, hnone'⟩ hmem.1 (by omega)
  group i j hi hj := by
    rw [Code.matching_stretch ht] at hfaults
    have hgroup := BracketMatching.closer?_stretch hfaults ((Piece.code before').map (·.1))
      ((Piece.code after').map (·.1)) (i := i) (j := j) (by simpa using hi) (by simpa using hj)
    simpa only [Code.Place.after, Code.matching_stretch ht, Code.matching_stretch ht', List.length_map]
      using hgroup
  closes p q h := by
    simp only [Code.Place.after, Code.matching_ofText] at h hfaults ⊢
    obtain ⟨opening, closing, hp, hq, hcloses⟩ := BracketMatching.closes_of_closer? hfaults h
    refine ⟨opening, closing, ?_, ?_, hcloses⟩
    · rw [kind?_ofText, ← List.getElem?_map]
      exact hp
    · rw [kind?_ofText, ← List.getElem?_map]
      exact hq

/-- Pieces of two texts are a stretch of the code of both. -/
theorem Alongside.of_pieces (hfaults : (Code.ofText t).matching.faults = [])
    (hdoc : (∃ text rest, stretch = (.docComment, text) :: rest) ∨
      (Code.ofText t).leadingDoc? before.length = none ∧
        (Code.ofText t').leadingDoc? before'.length = none)
    (hends : Piece.code after' = [] ∨
      ((∀ p, (Piece.code stretch).getLast? = some p → p.1.isStop) ∧
        (Piece.code after).head?.map (·.1) = some .semicolon ∧
        ∀ p, (Piece.code after').head? = some p → p.1.isContinuation = false) ∨
      ∃ kind, kind.isHead ∧ (Piece.code after).head?.map (·.1) = some kind ∧
        (Piece.code after').head?.map (·.1) = some kind) :
    Alongside (.after t before) (.after t' before') (Piece.code stretch).length where
  toParallel := .of_pieces ht ht' hfaults hdoc
  ends := by
    rcases hends with hnil | ⟨hlast, hnext, hcontinue⟩ | ⟨kind, hhead, hnext, hnext'⟩
    · exact .inl ((Code.size_stretch ht').trans (by rw [hnil]; rfl))
    · refine .inr (.inl ⟨fun i hi => ?_, (Code.kind?_after ht).trans hnext, fun kind hkind => ?_⟩)
      · obtain ⟨p, hp⟩ : ∃ p, (Piece.code stretch)[i]? = some p :=
          ⟨_, List.getElem?_eq_getElem (by omega)⟩
        refine ⟨p.1, ?_, hlast p ?_⟩
        · simp only [Code.Place.after]
          rw [kind?_ofText, getElem?_stretch ht (by omega), hp]
          rfl
        · rw [List.getLast?_eq_getElem?, ← hi, Nat.add_sub_cancel]
          exact hp
      · obtain ⟨p, hp, rfl⟩ := Option.map_eq_some_iff.mp ((Code.kind?_after ht').symm.trans hkind)
        exact hcontinue p hp
    · exact .inr (.inr ⟨kind, hhead, (Code.kind?_after ht).trans hnext, (Code.kind?_after ht').trans hnext'⟩)

end
end NamespaceMigration
