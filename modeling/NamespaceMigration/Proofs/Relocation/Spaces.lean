import NamespaceMigration.Proofs.Relocation.Blocks
import NamespaceMigration.Proofs.Statements.Headers

/-! Namespaces of a stretch of code, and so all that stands outside other statements, are read in the same way at two
places. -/
namespace NamespaceMigration
namespace Parser

open Code (lt_size_of_kind? lt_size_of_isAt lt_size_of_isAtAny)

variable {c : Code}

/-- What the header of a namespace says. -/
def spaceKind (c : Code) (p : Nat) : StatementKind :=
  let named := c.isAtAny [.ident, .nameQualified] (p + 1)
  .space (if named then some (c.text (p + 1)) else none) (if named then some (c.tokenIndex (p + 1)) else none)
    (c.isAt .leftBrace (headerName c p + 1))

/-- The statements of a namespace whose header ends at a position. -/
def spaceBody (c : Code) (inner : Inner) (p : Nat) : Parsed (List Statement) :=
  if c.isAt .leftBrace p then block c inner (p + 1)
  else manyUntil inner (fun q => c.atEnd q || isNamespaceHeader c q) (c.size + 1) (p + 1)

/-- The end of the header is a brace or a terminator. -/
def EndsHeader (c : Code) (p : Nat) : Prop := c.isAt .leftBrace p ∨ isTerminator c p

theorem namespaceStatement_eq {inner : Inner} {p : Nat} (hend : EndsHeader c (headerName c p + 1)) :
    namespaceStatement c inner p =
      ⟨(spaceKind c p, (spaceBody c inner (headerName c p + 1)).value),
        (spaceBody c inner (headerName c p + 1)).next, (spaceBody c inner (headerName c p + 1)).errors⟩ := by
  have hnext : (if c.isAtAny [.ident, .nameQualified] (p + 1) then p + 2 else p + 1) = headerName c p + 1 := by
    unfold headerName
    split <;> rfl
  unfold namespaceStatement spaceKind spaceBody
  dsimp only
  rw [hnext]
  cases hbrace : c.isAt .leftBrace (headerName c p + 1) with
  | true => rfl
  | false =>
    have hclosed : isTerminator c (headerName c p + 1) := hend.resolve_left (by simp [hbrace])
    simp [hclosed]

theorem mem_spaceBody {inner : Inner} (hreach : ∀ p, p < c.size → c.Reaches (p + 1) (inner p).next) {p : Nat}
    {s : Statement} (hs : s ∈ (spaceBody c inner p).value) : ∃ q, p + 1 ≤ q ∧ q < c.size ∧ s = (inner q).value := by
  have hinside {stop : Nat → Bool} (hstop : ∀ q, stop q = false → q < c.size) {fuel : Nat}
      (hs : s ∈ (manyUntil inner stop fuel (p + 1)).value) : ∃ q, p + 1 ≤ q ∧ q < c.size ∧ s = (inner q).value := by
    obtain ⟨q, hq, hgoes, rfl⟩ := mem_manyUntil (fun q hq => hreach q (hstop q hq)) hs
    exact ⟨q, hq, hstop q hgoes, rfl⟩
  unfold spaceBody at hs
  split at hs
  · exact hinside (fun q hq => lt_size_of_atEnd (Bool.or_eq_false_iff.mp hq).1) hs
  · exact hinside (fun q hq => lt_size_of_atEnd (Bool.or_eq_false_iff.mp hq).1) hs

theorem topItem_first (p : Nat) : (topItem c p).value.first = c.tokenIndex p := by
  unfold topItem
  split
  · rfl
  · exact statement_first _ p

variable {a b : Code.Place} {n i : Nat}

theorem isNamespaceHeader_eq (h : Alongside a b n) (ha : a.code.size = a.first + n)
    (hb : b.code.size = b.first + n) (i : Nat) :
    isNamespaceHeader b.code (b.first + i) = isNamespaceHeader a.code (a.first + i) := by
  have hkeyword : b.code.isAt .kwNamespace (b.first + i) = a.code.isAt .kwNamespace (a.first + i) := by
    refine h.isAt_eq (.inr (.inl hb)) fun hat => ?_
    have := lt_size_of_isAt hat
    omega
  have hnext : b.code.isAtAny [.ident, .nameQualified, .leftBrace] (b.first + i + 1) =
      a.code.isAtAny [.ident, .nameQualified, .leftBrace] (a.first + i + 1) := by
    refine h.isAtAny_eq (i := i + 1) (.inr (.inl hb)) fun hat => ?_
    have := lt_size_of_isAtAny hat
    omega
  rw [isNamespaceHeader, isNamespaceHeader, hkeyword, hnext]

section Bodies

variable (h : Alongside a b n) {inner inner' : Inner} {low : Nat}
  (hreach : ∀ p, p < a.code.size → a.code.Reaches (p + 1) (inner p).next)
  (hinner : ∀ j, low ≤ j → j < n → Tracks a b n Statement.move (inner (a.first + j)) (inner' (b.first + j)))
  (hheaders : ∀ j, j ≤ n → isNamespaceHeader b.code (b.first + j) = isNamespaceHeader a.code (a.first + j))
include h hreach hinner hheaders

/-- The statements of a namespace are read at both places. -/
theorem spaceBody_tracks (hlow : low ≤ i + 1) (hi : i < n) :
    TracksAll a b n (spaceBody a.code inner (a.first + i)) (spaceBody b.code inner' (b.first + i)) := by
  unfold spaceBody
  rw [h.isAt_lt hi]
  split
  · exact block_tracks (i := i + 1) h hreach hinner hlow hi
  · refine manyUntil_tracks (i := i + 1) h.le_left (fun p hp => hreach p ?_) (fun j hj => hinner j (by omega))
      (fun j _ hj => ?_) ?_ hi (fuel_left h _) (fuel_right h _)
    · rw [Bool.or_eq_false_iff] at hp
      exact lt_size_of_atEnd hp.1
    · have hleft : a.code.atEnd (a.first + j) = false := by
        rw [Code.atEnd, decide_eq_false_iff_not, Nat.not_le]
        exact h.lt_size hj
      rw [h.atEnd_lt hj, hleft, hheaders j (Nat.le_of_lt hj)]
    · by_cases hheader : isNamespaceHeader a.code (a.first + n)
      · right
        rw [hheaders n (Nat.le_refl n), hheader, Bool.or_true]
      · have hnext {kind : TokenKind} (hkind : a.code.kind? (a.first + n) = some kind) :
            (a.code.atEnd (a.first + n) || isNamespaceHeader a.code (a.first + n)) = false := by
          have hsize := lt_size_of_kind? hkind
          rw [Code.atEnd, decide_eq_false (by omega), Bool.false_or]
          exact Bool.eq_false_iff.mpr hheader
        rcases h.ends with hsize | ⟨-, hsemicolon, -⟩ | ⟨kind, -, hkind, -⟩
        · right
          rw [Code.atEnd, hsize, decide_eq_true (Nat.le_refl _), Bool.true_or]
        · exact .inl (hnext hsemicolon)
        · exact .inl (hnext hkind)

end Bodies

section Headers

variable (h : Abreast a b n) (hi : i + 1 < n)
include h hi

theorem headerName_tracks : ∃ r, i ≤ r ∧ r ≤ i + 1 ∧ headerName a.code (a.first + i) = a.first + r ∧
    headerName b.code (b.first + i) = b.first + r := by
  unfold headerName
  rw [Nat.add_assoc, Nat.add_assoc, h.isAtAny_lt hi]
  split
  · exact ⟨i + 1, Nat.le_succ i, Nat.le_refl _, rfl, rfl⟩
  · exact ⟨i, Nat.le_refl i, Nat.le_succ i, rfl, rfl⟩

theorem spaceKind_tracks (hbrace : b.code.isAt .leftBrace (headerName b.code (b.first + i) + 1) =
      a.code.isAt .leftBrace (headerName a.code (a.first + i) + 1)) :
    ∃ v : StatementKind, spaceKind a.code (a.first + i) = v.move a.token ∧
      spaceKind b.code (b.first + i) = v.move b.token := by
  obtain ⟨m, hm, hm'⟩ := h.index (i + 1) hi
  unfold spaceKind
  dsimp only
  rw [hbrace, Nat.add_assoc a.first, Nat.add_assoc b.first, h.isAtAny_lt hi, h.text _ hi, hm, hm']
  split
  · exact ⟨.space _ (some m) _, rfl, rfl⟩
  · exact ⟨.space none none _, rfl, rfl⟩

end Headers

section Statements

variable (h : Alongside a b n)
  (hheaders : ∀ j, j ≤ n → isNamespaceHeader b.code (b.first + j) = isNamespaceHeader a.code (a.first + j))
include h hheaders

theorem namespaceStatement_tracks {depth depth' : Nat} (hdepth : n < depth) (hdepth' : n < depth') :
    TracksShape a b n (namespaceStatement a.code (statement a.code depth) (a.first + i))
      (namespaceStatement b.code (statement b.code depth') (b.first + i)) := by
  intro herrors hle
  obtain ⟨hend, hnext, -⟩ := namespaceStatement_faultless h.ordered.1 herrors
  have hend : EndsHeader a.code (headerName a.code (a.first + i) + 1) := hend
  have hone : i + 1 < n := by
    have : a.first + i ≤ headerName a.code (a.first + i) := by
      unfold headerName
      split <;> omega
    omega
  obtain ⟨r, hir, hri, hname, hname'⟩ := headerName_tracks h.toAbreast hone
  have hrn : r + 1 < n := by omega
  have hend' : EndsHeader b.code (headerName b.code (b.first + i) + 1) := by
    unfold EndsHeader isTerminator at hend ⊢
    rw [hname', Nat.add_assoc, h.isAt_lt hrn, h.isAtAny_lt hrn, ← Nat.add_assoc, ← hname]
    exact hend
  obtain ⟨v, hv, hv'⟩ := spaceKind_tracks h.toAbreast hone (by
    rw [hname, hname', Nat.add_assoc, Nat.add_assoc, h.isAt_lt hrn])
  rw [namespaceStatement_eq hend, hname] at herrors hle ⊢
  rw [namespaceStatement_eq hend', hname']
  obtain ⟨herrors', hnext, vs, hvs, hvs'⟩ := spaceBody_tracks h
    (fun p hp => statement_reaches h.ordered.1 hp)
    (fun j _ hj => statement_tracks h hj (Nat.lt_add_left j hdepth) (Nat.lt_add_left j hdepth')) hheaders (Nat.zero_le _) hrn herrors hle
  exact ⟨herrors', hnext, (v, vs), Prod.ext hv hvs, Prod.ext hv' hvs'⟩

theorem topItem_tracks (hi : i < n) :
    Tracks a b n Statement.move (topItem a.code (a.first + i)) (topItem b.code (b.first + i)) := by
  have hleft := h.le_left
  have hright := h.le_right
  unfold topItem
  rw [hheaders i (Nat.le_of_lt hi)]
  split
  · rename_i hheader
    refine node_tracks h hi (namespaceStatement_tracks h hheaders (by omega) (by omega)) ?_
    exact (namespaceStatement_reaches (fun q hq => statement_reaches h.ordered.1 hq) hheader).1.1
  · exact statement_tracks h hi (by omega) (by omega)

end Statements

end Parser
end NamespaceMigration
