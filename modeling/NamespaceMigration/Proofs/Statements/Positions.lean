import Mathlib.Data.List.Basic
import NamespaceMigration.Token.Code

/-! Positions in code. They go with the tokens of the file, and a bracket group ends after it opens,
so whoever follows groups goes forward. -/
namespace NamespaceMigration

namespace BracketMatching

/-- A bracket is closed after it opens. -/
theorem ofKindsFrom_pairs (kinds : List TokenKind) (position : Nat) {stack : Stack}
    (hstack : ∀ opened ∈ stack, opened.1 < position) :
    ∀ pair ∈ (ofKindsFrom position stack kinds).pairs,
      pair.1 < pair.2 ∧ pair.2 < position + kinds.length := by
  induction kinds generalizing position stack with
  | nil => simp [ofKindsFrom]
  | cons kind kinds ih =>
    have hlater {stack' : Stack} (hsub : ∀ opened ∈ stack', opened.1 < position + 1) :
        ∀ pair ∈ (ofKindsFrom (position + 1) stack' kinds).pairs,
          pair.1 < pair.2 ∧ pair.2 < position + (kind :: kinds).length := by
      intro pair hpair
      have := ih _ hsub pair hpair
      rw [List.length_cons]
      omega
    have hkept : ∀ opened ∈ stack, opened.1 < position + 1 := fun opened ho =>
      Nat.lt_succ_of_lt (hstack opened ho)
    rw [ofKindsFrom]
    split_ifs with herror hopening hclosing
    · exact hlater hkept
    · exact hlater (List.forall_mem_cons.mpr ⟨Nat.lt_succ_self _, hkept⟩)
    · dsimp only
      split
      · exact hlater hkept
      · rename_i opened outer hdrop
        have hsub : opened :: outer ⊆ stack := hdrop ▸ List.drop_subset _ _
        rw [List.forall_mem_cons]
        refine ⟨⟨hstack _ (hsub (by simp)), ?_⟩, hlater fun o ho => ?_⟩
        · rw [List.length_cons]
          omega
        · exact hkept o (hsub (List.mem_cons_of_mem _ ho))
    · exact hlater hkept

theorem closer?_ofKinds {kinds : List TokenKind} {p q : Nat}
    (h : (ofKinds kinds).closer? p = some q) : p < q ∧ q < kinds.length := by
  rw [closer?, List.lookup_eq_some_iff] at h
  obtain ⟨l, _, hl, -⟩ := h
  have hmem : (p, q) ∈ (ofKindsFrom 0 [] kinds).pairs := by
    rw [← ofKinds, hl]
    simp
  have hpairs := ofKindsFrom_pairs kinds 0 (List.forall_mem_nil _) (p, q) hmem
  rwa [Nat.zero_add] at hpairs

end BracketMatching

namespace Code

/-- Positions go with the tokens, and bracket groups go forward. -/
structure Ordered (c : Code) : Prop where
  index : ∀ p q, p < q → q < c.size → c.tokenIndex p < c.tokenIndex q
  bound : ∀ p, p < c.size → c.tokenIndex p < c.tokens.size
  group : ∀ p q, c.matching.closer? p = some q → p < q ∧ q < c.size

/-- The tokens of a list that are no trivia, with their indices. -/
def itemsOf (tokens : List Token) : List (Nat × Token) :=
  (tokens.zipIdx.map fun (token, index) => (index, token)).filter fun item => !item.2.kind.isTrivia

theorem pairwise_itemsOf (tokens : List Token) : (itemsOf tokens).Pairwise (·.1 < ·.1) := by
  refine List.Pairwise.filter _ ?_
  have h : (tokens.zipIdx.map (·.2)).Pairwise (· < ·) := by
    rw [List.zipIdx_map_snd]
    exact List.pairwise_lt_range'
  exact List.pairwise_map.mpr (List.pairwise_map.mp h)

theorem mem_itemsOf {tokens : List Token} {item : Nat × Token} :
    item ∈ itemsOf tokens ↔ tokens[item.1]? = some item.2 ∧ item.2.kind.isTrivia = false := by
  rw [itemsOf, List.mem_filter, Bool.not_eq_true']
  refine and_congr_left fun _ => ?_
  rw [List.mem_map]
  constructor
  · rintro ⟨⟨token, index⟩, hmem, rfl⟩
    exact List.mk_mem_zipIdx_iff_getElem?.mp hmem
  · exact fun h => ⟨(item.2, item.1), List.mk_mem_zipIdx_iff_getElem?.mpr h, rfl⟩

theorem items_ofTokens (tokens : List Token) (byteSize : Nat) :
    (ofTokens tokens byteSize).items = (itemsOf tokens).toArray := rfl

theorem size_ofTokens (tokens : List Token) (byteSize : Nat) :
    (ofTokens tokens byteSize).size = (itemsOf tokens).length := rfl

theorem exists_item {c : Code} {p : Nat} (hp : p < c.size) : ∃ item, c.items[p]? = some item :=
  ⟨_, Array.getElem?_eq_getElem hp⟩

theorem tokenIndex_eq {c : Code} {p : Nat} {item : Nat × Token} (h : c.items[p]? = some item) :
    c.tokenIndex p = item.1 := by
  rw [tokenIndex, h]
  rfl

theorem ordered_ofTokens (tokens : List Token) (byteSize : Nat) :
    (ofTokens tokens byteSize).Ordered where
  index p q hpq hq := by
    obtain ⟨a, ha⟩ := exists_item (Nat.lt_trans hpq hq)
    obtain ⟨b, hb⟩ := exists_item hq
    rw [tokenIndex_eq ha, tokenIndex_eq hb]
    rw [items_ofTokens, List.getElem?_toArray, List.getElem?_eq_some_iff] at ha hb
    obtain ⟨hp, rfl⟩ := ha
    obtain ⟨hq, rfl⟩ := hb
    exact List.pairwise_iff_getElem.mp (pairwise_itemsOf tokens) p q hp hq hpq
  bound p hp := by
    obtain ⟨item, hitem⟩ := exists_item hp
    rw [tokenIndex_eq hitem]
    rw [items_ofTokens, List.getElem?_toArray] at hitem
    have hmem := mem_itemsOf.mp (List.mem_of_getElem? hitem)
    exact (List.getElem?_eq_some_iff.mp hmem.1).1
  group p q h := by
    have := BracketMatching.closer?_ofKinds h
    rwa [List.length_map] at this

end Code
end NamespaceMigration
