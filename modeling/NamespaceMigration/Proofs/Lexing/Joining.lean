import Mathlib.Data.List.Forall2
import NamespaceMigration.Proofs.Lexing.Respelling

/-! Code that ends with a statement. Its tokens are the same whatever comes after it, so such code can
be put before any other code. -/
namespace NamespaceMigration

namespace TokenKind

/-- The kinds of the signs that end statements. -/
def isStop : TokenKind → Bool
  | semicolon | rightBrace => true
  | _ => false

theorem isTrivia_of_isStop {kind : TokenKind} (h : kind.isStop) : kind.isTrivia = false := by
  cases kind <;> first | rfl | cases h

end TokenKind

namespace Lexer

theorem symbols_isStop : ∀ e ∈ symbols, e.2.isStop → ∃ c, isStop c ∧ e.1 = [c] := by
  have hlast : ∀ e ∈ symbols, e.2.isStop → e.1 = [';'] ∨ e.1 = ['\x7d'] := by decide
  intro e he hstop
  rcases hlast e he hstop with h | h
  · exact ⟨_, rfl, h⟩
  · exact ⟨_, rfl, h⟩

theorem nameKind_not_isStop (last : Option TokenKind) (name : Text) :
    (nameKind last name).isStop = false := by
  have hplain : ∀ kind ∈ Word.kinds, kind.isStop = false := by decide
  exact hplain _ (nameKind_mem last name)

/-- Only the sign itself has its kind. -/
theorem afterSymbol_isStop {symbol t : Text} {kind : TokenKind}
    (h : (afterSymbol symbol kind t).1.isStop) :
    kind.isStop ∧ (symbol ≠ "." → afterSymbol symbol kind t = (kind, symbol.length)) := by
  unfold afterSymbol at h ⊢
  split at h
  · split at h <;> cases h
  · cases h
  · dsimp only at h
    split at h <;> cases h
  · unfold afterQuestion at h
    split at h <;> cases h
  · split at h <;> cases h
  · split at h <;> cases h
  · split at h
    · unfold afterDot at h
      split at h <;> try cases h
      split at h <;> cases h
    · rename_i hdot
      exact ⟨h, fun _ => by rw [if_neg hdot]⟩

/-- A token that ends a statement is one sign. -/
theorem scanCode_isStop {last : Option TokenKind} {t : Text} (h : (scanCode last t).1.isStop) :
    ∃ c u, t = c :: u ∧ isStop c ∧ (scanCode last t).2 = 1 := by
  cases t with
  | nil => cases h
  | cons c t =>
    rw [scanCode] at h ⊢
    split_ifs at h ⊢
    · cases h
    · rw [nameKind_not_isStop] at h
      cases h
    · cases h
    · split at h <;> cases h
    · split at h
      · rename_i symbol kind hfind
        obtain ⟨hkind, hsame⟩ := afterSymbol_isStop h
        obtain ⟨d, hd, rfl⟩ := symbols_isStop _ (List.mem_of_find?_eq_some hfind) hkind
        have hne : ([d] : Text) ≠ "." := by
          intro hdot
          obtain rfl : d = '.' := by simpa using hdot
          cases hd
        obtain ⟨r, hr⟩ : [d] <+: c :: t := by
          simpa [Text.startsWith] using List.find?_some hfind
        obtain rfl : d = c := (List.cons.inj hr).1
        exact ⟨d, t, rfl, hd, by rw [hsame hne]; rfl⟩
      · cases h

theorem scanCode_stop {c : Char} (h : isStop c) (last : Option TokenKind) (r r' : Text) :
    scanCode last (c :: r') = scanCode last (c :: r) := by
  rcases isStop_iff.mp h with rfl | rfl <;> rfl

namespace State

def between : State := ⟨.code, none, false⟩

def after (s : State) (ps : List Piece) : State := ps.foldl (fun s p => s.next p.1) s

@[simp] theorem after_cons (s : State) (p : Piece) (ps : List Piece) :
    s.after (p :: ps) = (s.next p.1).after ps := rfl

theorem halting_after {s : State} {ps : List Piece} (h : ∀ p ∈ ps, p.1 ≠ .kwHaltCompiler) :
    (s.after ps).halting = s.halting := by
  induction ps generalizing s with
  | nil => rfl
  | cons p ps ih =>
    rw [List.forall_mem_cons] at h
    rw [after_cons, ih h.2]
    change (s.halting || (p.1 == .kwHaltCompiler)) = s.halting
    rw [beq_false_of_ne h.1, Bool.or_false]

theorem mode_of_isStop {s : State} {t : Text} (h : (s.scan t).1.isStop) : s.mode = .code := by
  cases hmode : s.mode with
  | html =>
    rw [scan_of_html hmode, scanHtml] at h
    split at h
    · dsimp only at h
      split at h <;> cases h
    · cases h
  | code => rfl
  | data =>
    rw [scan_of_data hmode] at h
    cases h

theorem between_next {s : State} (hmode : s.mode = .code) (hhalting : s.halting = false)
    {kind : TokenKind} (hkind : kind.isStop) : between.Alike (s.next kind) := by
  cases kind <;> try cases hkind
  all_goals
    refine ⟨?_, ?_, rfl⟩
    · simp [next, nextMode, hmode, hhalting, between]
    · simp [next, hhalting, between]

end State

theorem Lexes.suffix {s : State} {ps qs : List Piece} (h : Lexes s (ps ++ qs)) :
    Lexes (s.after ps) qs := by
  induction ps generalizing s with
  | nil => exact h
  | cons p ps ih =>
    cases h with
    | cons _ _ hrest => exact ih hrest

theorem Lexes.alike {s s' : State} {ps : List Piece} (h : Lexes s ps) (hs : s.Alike s') :
    Lexes s' ps :=
  h.respell hs (List.forall₂_same.mpr fun p _ => .same p)

theorem Lexes.isStop {s : State} {p : Piece} {ps : List Piece} (h : Lexes s (p :: ps))
    (hp : p.1.isStop) : s.mode = .code ∧ ∃ c, Lexer.isStop c ∧ p.2 = [c] := by
  cases h with
  | @cons _ kind text _ hne hscan _ =>
    have hkind : (s.scan (text ++ Piece.print ps)).1.isStop := by rwa [hscan]
    have hmode := State.mode_of_isStop hkind
    rw [State.scan_of_code hmode] at hkind hscan
    obtain ⟨c, u, htext, hc, hlen⟩ := scanCode_isStop hkind
    rw [hscan] at hlen
    obtain ⟨d, rfl⟩ := List.length_eq_one_iff.mp hlen
    exact ⟨hmode, d, (List.cons.inj htext).1 ▸ hc, rfl⟩

theorem Lexes.isSome_openTagLength? {s : State} {p : Piece} {ps : List Piece} (h : Lexes s (p :: ps))
    (hmode : s.mode = .html) :
    (openTagLength? (Piece.print (p :: ps))).isSome ↔ p.1 ≠ .inlineHtml := by
  cases h with
  | cons _ hscan _ =>
    rw [State.scan_of_html hmode, scanHtml] at hscan
    rw [Piece.print_cons]
    split at hscan
    · rename_i htag
      rw [htag, ← (Prod.mk.inj hscan).1]
      dsimp only
      split <;> simp
    · rename_i htag
      rw [htag, ← (Prod.mk.inj hscan).1]
      simp

/-- What comes after the end of a statement has no influence on the pieces before it. -/
theorem Lexes.rejoin {s : State} {ps : List Piece} {q : Piece} {rest rest' : List Piece}
    (h : Lexes s (ps ++ q :: rest)) (hq : q.1.isStop) (hvalid : ∀ p ∈ ps, p.1 ≠ .error)
    (h' : Lexes (s.after (ps ++ [q])) rest') : Lexes s (ps ++ q :: rest') := by
  induction ps generalizing s with
  | nil =>
    obtain ⟨hmode, c, hc, hchar⟩ := h.isStop hq
    obtain ⟨kind, text⟩ := q
    dsimp only at hchar
    subst hchar
    cases h with
    | cons hne hscan _ =>
      refine .cons hne ?_ h'
      rw [State.scan_of_code hmode] at hscan ⊢
      exact (scanCode_stop hc _ _ _).trans hscan
  | cons p ps ih =>
    rw [List.forall_mem_cons] at hvalid
    obtain ⟨kind, text⟩ := p
    cases h with
    | cons hne hscan hrest =>
      have hrest' := ih hrest hvalid.2 h'
      refine .cons hne ?_ hrest'
      have hagree : Agree False (Piece.print (ps ++ q :: rest)) (Piece.print (ps ++ q :: rest')) := by
        obtain ⟨-, c, hc, hchar⟩ := hrest.suffix.isStop hq
        rw [Piece.print_append, Piece.print_append, Piece.print_cons, Piece.print_cons, hchar]
        exact (Agree.stop hc).append _
      cases hm : s.mode with
      | html =>
        rw [State.scan_of_html hm] at hscan ⊢
        refine scanHtml_append hne hagree (fun hk htag => ?_) hscan
        -- The next token is a tag in both, since it is the same one.
        subst hk
        have hnext : (s.next .inlineHtml).mode = .html := by
          change s.nextMode .inlineHtml = .html
          rw [State.nextMode, hm] <;> simp
        cases ps with
        | nil =>
          have := (hrest.isStop hq).1
          rw [hnext] at this
          cases this
        | cons p ps =>
          rw [List.append_eq, List.cons_append] at hrest
          exact (hrest'.isSome_openTagLength? hnext).mpr ((hrest.isSome_openTagLength? hnext).mp htag)
      | code =>
        rw [State.scan_of_code hm] at hscan ⊢
        exact scanCode_append hne hagree (fun hk => absurd hk hvalid.1) hscan
      | data =>
        rw [State.scan_of_data hm] at hscan
        have hlen := (Prod.mk.inj hscan).2
        have hpos : 0 < (Piece.print (ps ++ q :: rest)).length := by
          have := List.length_pos_iff.mpr (hrest.suffix.ne_nil q (by simp))
          rw [Piece.print_append, Piece.print_cons]
          simp only [List.length_append]
          omega
        simp only [List.append_eq, List.length_append] at hlen
        omega

/-- Pieces of code that stay what they are before all other code. -/
def Closed (ps : List Piece) : Prop :=
  ∀ s rest, State.between.Alike s → Lexes .between rest → Lexes s (ps ++ rest)

theorem Lexes.closed {s : State} {ps : List Piece} {q : Piece} {rest : List Piece}
    (h : Lexes s (ps ++ q :: rest)) (hs : State.between.Alike s) (hq : q.1.isStop)
    (hvalid : ∀ p ∈ ps, p.1 ≠ .error) (hhalt : ∀ p ∈ ps, p.1 ≠ .kwHaltCompiler) :
    Closed (ps ++ [q]) := by
  intro s' rest' hs' hrest'
  have hstart : Lexes s' (ps ++ q :: rest) :=
    h.alike ⟨hs'.mode.trans hs.mode.symm, hs'.halting.trans hs.halting.symm,
      hs'.last.trans hs.last.symm⟩
  rw [List.append_assoc, List.singleton_append]
  refine hstart.rejoin hq hvalid ?_
  have hmode := (hstart.suffix.isStop hq).1
  have hhalting : (s'.after ps).halting = false := (State.halting_after hhalt).trans hs'.halting
  rw [State.after, List.foldl_append]
  exact hrest'.alike (State.between_next hmode hhalting hq)

end Lexer
end NamespaceMigration
