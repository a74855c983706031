import NamespaceMigration.Proofs.Statements.Brackets
import NamespaceMigration.Proofs.Statements.Respelling

/-! The grammar of `use` statements. Code that is read as one is a word of the grammar, and stays one with
other names and aliases in it; and a word of the grammar is read as a `use` statement wherever it stands. -/
namespace NamespaceMigration

namespace TokenKind

def groupNames : List TokenKind := [ident, nameQualified]

def importNames : List TokenKind := [ident, nameQualified, nameFullyQualified]

def importLeads : List TokenKind := [kwUse, kwFunction, kwConst, comma]

/-- What may say what kind of symbol a name is. -/
def importWords : List (List TokenKind) := [[], [kwFunction], [kwConst]]

def importTails : List (List TokenKind) := [[], [kwAs, ident]]

def terminators : List TokenKind := [semicolon, closeTag]

/-- The names of a group up to its closing brace. -/
inductive IsGroup : List TokenKind → Prop
  | nil : IsGroup [rightBrace]
  | last {word tail : List TokenKind} {name : TokenKind} : word ∈ importWords → name ∈ groupNames →
      tail ∈ importTails → IsGroup (word ++ name :: tail ++ [rightBrace])
  | cons {word tail rest : List TokenKind} {name : TokenKind} : word ∈ importWords → name ∈ groupNames →
      tail ∈ importTails → IsGroup rest → IsGroup (word ++ name :: tail ++ comma :: rest)

/-- What is imported by one name. -/
inductive IsImported : List TokenKind → Prop
  | symbol {name : TokenKind} {tail : List TokenKind} : name ∈ importNames → tail ∈ importTails →
      IsImported (name :: tail)
  | group {name : TokenKind} {names : List TokenKind} : name ∈ importNames → IsGroup names →
      IsImported (name :: backslash :: leftBrace :: names)

inductive IsImportRow : List TokenKind → Prop
  | last {item : List TokenKind} : IsImported item → IsImportRow item
  | cons {item rest : List TokenKind} : IsImported item → IsImportRow rest → IsImportRow (item ++ comma :: rest)

/-- A `use` statement. -/
inductive IsUse : List TokenKind → Prop
  | intro {word row : List TokenKind} {stop : TokenKind} : word ∈ importWords → IsImportRow row →
      stop ∈ terminators → IsUse (kwUse :: (word ++ row ++ [stop]))

theorem IsImportRow.exists_name {row : List TokenKind} (h : IsImportRow row) :
    ∃ name rest, row = name :: rest ∧ name ∈ importNames := by
  have himported {item : List TokenKind} (h : IsImported item) :
      ∃ name rest, item = name :: rest ∧ name ∈ importNames := by
    cases h with
    | symbol hname _ => exact ⟨_, _, rfl, hname⟩
    | group hname _ => exact ⟨_, _, rfl, hname⟩
  cases h with
  | last hitem => exact himported hitem
  | cons hitem _ =>
    obtain ⟨name, rest, rfl, hname⟩ := himported hitem
    exact ⟨name, _, rfl, hname⟩

open BracketMatching (nest nest_append nest_of_plain)

/-- A kind that has no part in the matching of brackets. -/
def isFlat (kind : TokenKind) : Bool :=
  kind != error && !kind.isOpeningBracket && !kind.isClosingBracket

theorem nest_of_isFlat {kinds : List TokenKind} (h : ∀ kind ∈ kinds, kind.isFlat)
    (opened : List TokenKind) : nest opened kinds = some opened := by
  refine nest_of_plain (fun kind hkind => ?_) opened
  simpa [isFlat, and_assoc] using h kind hkind

theorem nest_cons_of_isFlat {kind : TokenKind} (h : kind.isFlat) (opened kinds : List TokenKind) :
    nest opened (kind :: kinds) = nest opened kinds := by
  rw [← List.singleton_append, nest_append, nest_of_isFlat (List.forall_mem_singleton.mpr h)]
  rfl

theorem isFlat_importWords : ∀ word ∈ importWords, ∀ kind ∈ word, kind.isFlat := by decide

theorem isFlat_importTails : ∀ tail ∈ importTails, ∀ kind ∈ tail, kind.isFlat := by decide

theorem isFlat_importNames : ∀ kind ∈ importNames, kind.isFlat := by decide

theorem isFlat_groupItem {word tail : List TokenKind} {name : TokenKind} (hword : word ∈ importWords)
    (hname : name ∈ groupNames) (htail : tail ∈ importTails) : ∀ kind ∈ word ++ name :: tail, kind.isFlat := by
  have hnames : ∀ kind ∈ groupNames, kind.isFlat := by decide
  exact List.forall_mem_append.mpr ⟨isFlat_importWords word hword,
    List.forall_mem_cons.mpr ⟨hnames name hname, isFlat_importTails tail htail⟩⟩

theorem IsGroup.nest {names : List TokenKind} (h : IsGroup names) (opened : List TokenKind) :
    nest (leftBrace :: opened) names = some opened := by
  induction h with
  | nil => rfl
  | last hword hname htail =>
    rw [nest_append, nest_of_isFlat (isFlat_groupItem hword hname htail)]
    rfl
  | cons hword hname htail _ ih =>
    rw [nest_append, nest_of_isFlat (isFlat_groupItem hword hname htail)]
    exact (nest_cons_of_isFlat rfl _ _).trans ih

theorem IsImported.nest {item : List TokenKind} (h : IsImported item) (opened : List TokenKind) :
    nest opened item = some opened := by
  cases h with
  | symbol hname htail =>
    exact nest_of_isFlat (List.forall_mem_cons.mpr
      ⟨isFlat_importNames _ hname, isFlat_importTails _ htail⟩) opened
  | group hname hnames =>
    rw [nest_cons_of_isFlat (isFlat_importNames _ hname), nest_cons_of_isFlat rfl]
    exact hnames.nest opened

theorem IsImportRow.nest {row : List TokenKind} (h : IsImportRow row) (opened : List TokenKind) :
    nest opened row = some opened := by
  induction h with
  | last hitem => exact hitem.nest opened
  | cons hitem _ ih =>
    rw [nest_append, hitem.nest]
    exact (nest_cons_of_isFlat rfl _ _).trans ih

theorem IsUse.nest {kinds : List TokenKind} (h : IsUse kinds) : nest [] kinds = some [] := by
  obtain ⟨hword, hrow, hstop⟩ := h
  rw [nest_cons_of_isFlat rfl, nest_append, nest_append, nest_of_isFlat (isFlat_importWords _ hword)]
  have hflat : ∀ kind ∈ terminators, kind.isFlat := by decide
  exact (congrArg (Option.bind · _) (hrow.nest [])).trans
    (nest_of_isFlat (List.forall_mem_singleton.mpr (hflat _ hstop)) [])

end TokenKind

/-- Well nested kinds that leave no bracket open have no faults. -/
theorem BracketMatching.faults_of_nest {kinds : List TokenKind} {position : Nat} {stack : Stack}
    (h : nest (stack.map (·.2)) kinds = some []) : (ofKindsFrom position stack kinds).faults = [] := by
  induction kinds generalizing position stack with
  | nil =>
    have hnil := List.map_eq_nil_iff.mp (Option.some.inj h)
    rw [hnil]
    rfl
  | cons kind kinds ih =>
    rw [nest] at h
    rw [ofKindsFrom]
    split_ifs at h ⊢ with herror hopening hclosing
    · exact ih h
    · cases stack with
      | nil => cases h
      | cons opened outer =>
        rw [List.map_cons, close?] at h
        by_cases hcloses : closes opened.2 kind
        swap
        · rw [if_neg hcloses] at h
          cases h
        rw [if_pos hcloses] at h
        rw [takeWhile_not_closes hcloses]
        exact ih h
    · exact ih h

/-- Kinds without faults are well nested and leave no bracket open. -/
theorem BracketMatching.nest_of_faults {kinds : List TokenKind} {position : Nat} {stack : Stack}
    (h : (ofKindsFrom position stack kinds).faults = []) : nest (stack.map (·.2)) kinds = some [] := by
  induction kinds generalizing position stack with
  | nil =>
    have hnil : stack = [] := by simpa [ofKindsFrom] using h
    rw [hnil]
    rfl
  | cons kind kinds ih =>
    rw [ofKindsFrom] at h
    rw [nest]
    split_ifs at h ⊢ with herror hopening hclosing
    · exact ih h
    · dsimp only at h
      cases stack with
      | nil => cases h
      | cons opened outer =>
        by_cases hcloses : closes opened.2 kind
        · rw [takeWhile_not_closes hcloses] at h
          rw [List.map_cons, close?, if_pos hcloses]
          exact ih h
        · -- The bracket that is passed over is reported.
          rw [List.takeWhile_cons, if_pos (by simpa using hcloses)] at h
          split at h
          · cases h
          · simp at h
    · exact ih h

namespace Parser

open TokenKind

section Sound

variable {c : Code} {kind : SymbolKind} {p n m : Nat} {items more : List ImportItem}
  {written : Nat → List TokenKind}

/-- What is written from one position up to another. -/
def writtenKinds (written : Nat → List TokenKind) (p n : Nat) : List TokenKind :=
  (List.range' p (n - p)).flatMap written

theorem writtenKinds_self : writtenKinds written p p = [] := by
  rw [writtenKinds, Nat.sub_self]
  rfl

theorem writtenKinds_append (hpm : p ≤ m) (hmn : m ≤ n) :
    writtenKinds written p n = writtenKinds written p m ++ writtenKinds written m n := by
  have hrange : List.range' p (m - p) ++ List.range' (p + 1 * (m - p)) (n - m) =
      List.range' p (m - p + (n - m)) := List.range'_append
  rw [Nat.one_mul, Nat.add_sub_cancel' hpm, show m - p + (n - m) = n - p by omega] at hrange
  rw [writtenKinds, writtenKinds, writtenKinds, ← List.flatMap_append, hrange]

theorem writtenKinds_cons (hpn : p < n) :
    writtenKinds written p n = written p ++ writtenKinds written (p + 1) n := by
  have hone : writtenKinds written p (p + 1) = written p := by
    rw [writtenKinds, Nat.add_sub_cancel_left]
    exact List.append_nil _
  rw [writtenKinds_append (Nat.le_succ p) hpn, hone]

theorem writtenKinds_eq_flatMap {α : Type} {f : α → List TokenKind} {xs : List α}
    (h : ∀ i x, xs[i]? = some x → written (p + i) = f x) :
    writtenKinds written p (p + xs.length) = xs.flatMap f := by
  induction xs generalizing p with
  | nil => exact writtenKinds_self
  | cons x xs ih =>
    have hfirst : written p = f x := h 0 x rfl
    have hrest (i : Nat) (y : α) (hy : xs[i]? = some y) : written (p + 1 + i) = f y := by
      rw [Nat.add_assoc, Nat.add_comm 1]
      exact h (i + 1) y hy
    rw [List.length_cons, Nat.add_comm xs.length, ← Nat.add_assoc, writtenKinds_cons (by omega), hfirst,
      List.flatMap_cons, ih hrest]

/-- What is written in the place of a `use` statement: the same, but for other names in the place of those
that stand outside groups, perhaps with an alias where there is none. -/
def Readdresses (c : Code) (items : List ImportItem) (written : Nat → List TokenKind) (p n : Nat) : Prop :=
  ∀ q, p ≤ q → q < n → written q = (c.kind? q).toList ∨
    ∃ item ∈ items, item.groupLead? = none ∧ item.nameToken = c.tokenIndex q ∧
      ∃ name ∈ importNames, written q = [name] ∨ item.alias? = none ∧ written q = [name, kwAs, ident]

namespace Readdresses

theorem mono {p' n' : Nat} {items' : List ImportItem} (h : Readdresses c items written p n)
    (hp : p ≤ p') (hn : n' ≤ n)
    (hrest : ∀ item ∈ items, item ∉ items' → ∀ q, p' ≤ q → q < n' → item.nameToken ≠ c.tokenIndex q) :
    Readdresses c items' written p' n' := by
  intro q hpq hqn
  refine (h q (by omega) (by omega)).imp_right ?_
  rintro ⟨item, hitem, hlead, htoken, hname⟩
  refine ⟨item, ?_, hlead, htoken, hname⟩
  by_contra hnot
  exact hrest item hitem hnot q hpq hqn htoken

theorem same (h : Readdresses c items written p n) {q : Nat} (hpq : p ≤ q) (hqn : q < n)
    (hnone : ∀ item ∈ items, item.groupLead? = none → item.nameToken ≠ c.tokenIndex q) :
    written q = (c.kind? q).toList := by
  refine (h q hpq hqn).resolve_right ?_
  rintro ⟨item, hitem, hlead, htoken, -⟩
  exact hnone item hitem hlead htoken

end Readdresses

section Same

variable (h : ∀ q, p ≤ q → q < n → written q = (c.kind? q).toList)
include h

theorem writtenKinds_kind {kind : TokenKind} (hpn : p < n) (hkind : c.kind? p = some kind) :
    writtenKinds written p n = kind :: writtenKinds written (p + 1) n := by
  rw [writtenKinds_cons hpn, h p (Nat.le_refl p) hpn, hkind]
  rfl

theorem writtenKinds_afterImportKind (hn : afterImportKind c p ≤ n) :
    writtenKinds written p (afterImportKind c p) ∈ importWords := by
  rw [afterImportKind] at hn ⊢
  split at hn
  · rename_i hsome
    rw [if_pos hsome, writtenKinds_cons (Nat.lt_succ_self p), writtenKinds_self,
      h p (Nat.le_refl p) (by omega)]
    rw [importKind?] at hsome
    split at hsome
    · rename_i hkind
      rw [hkind]
      decide
    · rename_i hkind
      rw [hkind]
      decide
    · cases hsome
  · rename_i hnone
    rw [if_neg hnone, writtenKinds_self]
    decide

theorem writtenKinds_importAlias (hn : (importAlias c p).2 ≤ n) :
    writtenKinds written p (importAlias c p).2 ∈ importTails := by
  rw [importAlias] at hn ⊢
  split at hn
  · rename_i has
    rw [if_pos has, writtenKinds_cons (by simp), writtenKinds_cons (by simp), writtenKinds_self,
      h p (Nat.le_refl p) (by dsimp only at hn; omega), h (p + 1) (by omega) (by dsimp only at hn; omega),
      Code.isAt_iff.mp has.1, Code.isAt_iff.mp has.2]
    decide
  · rename_i hnone
    rw [if_neg hnone, writtenKinds_self]
    decide

theorem isGroup_of_groupItems {lead : Text} {fuel : Nat} (hp : p ≤ c.size)
    (hok : groupItems c kind lead fuel p = .ok (items, n)) : IsGroup (writtenKinds written p n) := by
  induction fuel generalizing p items with
  | zero => cases hok
  | succ fuel ih =>
    rw [groupItems] at hok
    by_cases hclose : c.isAt .rightBrace p
    · rw [if_pos hclose] at hok
      cases hok
      rw [writtenKinds_kind h (Nat.lt_succ_self p) (Code.isAt_iff.mp hclose), writtenKinds_self]
      exact .nil
    rw [if_neg hclose] at hok
    dsimp only at hok
    by_cases hname : c.isAtAny [.ident, .nameQualified] (afterImportKind c p)
    swap
    · rw [if_pos (by simpa using hname)] at hok
      cases hok
    rw [if_neg (by simpa using hname)] at hok
    have hword := (afterImportKind_reaches hp).1
    have hsize := Code.lt_size_of_isAtAny hname
    have htail := (importAlias_reaches (p := afterImportKind c p + 1) hsize).1
    obtain ⟨name, hmem, hkind⟩ := Code.exists_kind_of_isAtAny hname
    -- What comes before the comma or the brace is one name with what belongs to it.
    have hitem (hn : (importAlias c (afterImportKind c p + 1)).2 < n) :
        ∃ word ∈ importWords, ∃ tail ∈ importTails,
          writtenKinds written p (importAlias c (afterImportKind c p + 1)).2 = word ++ name :: tail := by
      refine ⟨_, writtenKinds_afterImportKind h (by omega), _,
        writtenKinds_importAlias (p := afterImportKind c p + 1) (n := n)
          (fun q hpq hqn => h q (by omega) hqn) (by omega), ?_⟩
      rw [writtenKinds_append hword (by omega : afterImportKind c p ≤ _),
        writtenKinds_kind (fun q hpq hqn => h q (by omega) (by omega)) (by omega) hkind]
    split_ifs at hok with hcomma hend
    · obtain ⟨⟨rest, stop⟩, hrest, heq⟩ := bind_eq_ok hok
      cases heq
      have hlt := Code.lt_size_of_isAt hcomma
      have hfound := groupItems_found kind lead fuel hlt
      rw [hrest] at hfound
      have hmore := hfound.1.1
      obtain ⟨word, hw, tail, ht, hwritten⟩ := hitem (by omega)
      rw [writtenKinds_append (m := (importAlias c (afterImportKind c p + 1)).2) (by omega) (by omega),
        hwritten, writtenKinds_kind (fun q hpq hqn => h q (by omega) hqn) (by omega) (Code.isAt_iff.mp hcomma)]
      exact .cons hw hmem ht (ih (fun q hpq hqn => h q (by omega) hqn) hlt hrest)
    · cases hok
      obtain ⟨word, hw, tail, ht, hwritten⟩ := hitem (by omega)
      rw [writtenKinds_append (m := (importAlias c (afterImportKind c p + 1)).2) (by omega) (by omega),
        hwritten, writtenKinds_kind (fun q hpq hqn => h q (by omega) hqn) (by omega) (Code.isAt_iff.mp hend),
        writtenKinds_self]
      exact .last hw hmem ht

end Same

theorem groupItems_lead {lead : Text} {fuel : Nat} (hok : groupItems c kind lead fuel p = .ok (items, n)) :
    ∀ item ∈ items, item.groupLead? ≠ none := by
  induction fuel generalizing p items with
  | zero => cases hok
  | succ fuel ih =>
    rw [groupItems] at hok
    dsimp only at hok
    split_ifs at hok with hclose hname hcomma hend
    · cases hok
      exact List.forall_mem_nil _
    · obtain ⟨⟨rest, stop⟩, hrest, heq⟩ := bind_eq_ok hok
      cases heq
      exact List.forall_mem_cons.mpr ⟨Option.some_ne_none _, ih hrest⟩
    · cases hok
      exact List.forall_mem_singleton.mpr (Option.some_ne_none _)

theorem importAlias_of_none (h : (importAlias c p).1 = none) : (importAlias c p).2 = p := by
  rw [importAlias] at h ⊢
  split at h
  · cases h
  · rename_i hnone
    rw [if_neg hnone]

section Readdressed

variable (ho : c.Ordered)
include ho

theorem isImported_of_namedItems (hname : c.isAtAny importNames p)
    (hok : namedItems c kind p = .ok (items, n)) (h : Readdresses c items written p n) :
    IsImported (writtenKinds written p n) := by
  have hsize := Code.lt_size_of_isAtAny hname
  have hreach := (namedItems_found (c := c) kind hsize)
  rw [hok] at hreach
  have hpn := hreach.1.1
  obtain ⟨name, hmem, hkind⟩ := Code.exists_kind_of_isAtAny hname
  rw [namedItems] at hok
  dsimp only at hok
  by_cases hgroup : c.isAt .backslash (p + 1) ∧ c.isAt .leftBrace (p + 2)
  · rw [if_pos hgroup] at hok
    have hsame (q : Nat) (hpq : p ≤ q) (hqn : q < n) : written q = (c.kind? q).toList :=
      h.same hpq hqn fun item hitem hnone => absurd hnone (groupItems_lead hok item hitem)
    have hopen := Code.lt_size_of_isAt hgroup.2
    have hfound := groupItems_found kind (dropBackslashes (c.text p)) (c.size + 1) hopen
    rw [hok] at hfound
    have hlast := hfound.1.1
    rw [writtenKinds_kind hsame (by omega) hkind,
      writtenKinds_kind (fun q hpq hqn => hsame q (by omega) hqn) (by omega) (Code.isAt_iff.mp hgroup.1),
      writtenKinds_kind (fun q hpq hqn => hsame q (by omega) hqn) (by omega) (Code.isAt_iff.mp hgroup.2)]
    exact .group hmem (isGroup_of_groupItems (fun q hpq hqn => hsame q (by omega) hqn) hopen hok)
  · rw [if_neg hgroup] at hok
    obtain ⟨rfl, rfl⟩ := Prod.mk.inj (Except.ok.inj hok)
    have hafter (q : Nat) (hpq : p + 1 ≤ q) (hqn : q < (importAlias c (p + 1)).2) :
        written q = (c.kind? q).toList := by
      refine h.same (by omega) hqn fun item hitem _ htoken => ?_
      obtain rfl := List.mem_singleton.mp hitem
      have hlt := ho.index p q hpq (Nat.lt_of_lt_of_le hqn hreach.1.2)
      exact absurd htoken (Nat.ne_of_lt hlt)
    have htail := writtenKinds_importAlias hafter (Nat.le_refl _)
    rw [writtenKinds_cons hpn]
    rcases h p (Nat.le_refl p) hpn with hsame | ⟨item, hitem, -, -, name', hname', hwritten | ⟨hnone, hwritten⟩⟩
    · rw [hsame, hkind]
      exact .symbol hmem htail
    · rw [hwritten]
      exact .symbol hname' htail
    · obtain rfl := List.mem_singleton.mp hitem
      rw [importAlias_of_none hnone, writtenKinds_self, hwritten]
      exact .symbol hname' (by decide)

theorem isImportRow_of_importItems {fuel : Nat} (hok : importItems c kind fuel p = .ok (items, n))
    (h : Readdresses c items written p n) : IsImportRow (writtenKinds written p n) := by
  induction fuel generalizing p items with
  | zero => cases hok
  | succ fuel ih =>
    rw [importItems_succ] at hok
    by_cases hname : c.isAtAny [.ident, .nameQualified, .nameFullyQualified] p
    swap
    · rw [if_pos (by simpa using hname)] at hok
      cases hok
    rw [if_neg (by simpa using hname)] at hok
    have hsize := Code.lt_size_of_isAtAny hname
    obtain ⟨⟨first, stop⟩, hfirst, hrest⟩ := bind_eq_ok hok
    have hfound := namedItems_found (c := c) kind hsize
    rw [hfirst] at hfound
    obtain ⟨⟨hpstop, hstop⟩, hplaces⟩ := hfound
    dsimp only at hrest
    by_cases hcomma : c.isAt .comma stop
    swap
    · rw [if_neg hcomma] at hrest
      cases hrest
      exact .last (isImported_of_namedItems ho hname hfirst h)
    rw [if_pos hcomma] at hrest
    obtain ⟨⟨more, last⟩, hmore, heq⟩ := bind_eq_ok hrest
    cases heq
    have hlt := Code.lt_size_of_isAt hcomma
    have hfound := importItems_found kind fuel hlt
    rw [hmore] at hfound
    obtain ⟨⟨hlast, hsize'⟩, hmorePlaces⟩ := hfound
    -- The names before the comma stand before it, and those after it after it.
    have hapart {item : ImportItem} {q r : Nat} (htoken : item.nameToken = c.tokenIndex r) (hne : r ≠ q)
        (hr : r < last) (hq : q < last) : item.nameToken ≠ c.tokenIndex q := by
      rw [htoken]
      rcases Nat.lt_or_gt_of_ne hne with hlt | hgt
      · exact Nat.ne_of_lt (ho.index r q hlt (Nat.lt_of_lt_of_le hq hsize'))
      · exact Nat.ne_of_gt (ho.index q r hgt (Nat.lt_of_lt_of_le hr hsize'))
    have hfirstOnly : Readdresses c first written p stop := by
      refine h.mono (Nat.le_refl p) (by omega) fun item hitem hnot q hpq hq => ?_
      obtain ⟨r, hle, hrn, htoken⟩ := hmorePlaces item ((List.mem_append.mp hitem).resolve_left hnot)
      exact hapart htoken (by omega) hrn (by omega)
    have hmoreOnly : Readdresses c more written (stop + 1) last := by
      refine h.mono (by omega) (Nat.le_refl last) fun item hitem hnot q hpq hq => ?_
      obtain ⟨r, hle, hrn, htoken⟩ := hplaces item ((List.mem_append.mp hitem).resolve_right hnot)
      exact hapart htoken (by omega) (by omega) hq
    have hsign : written stop = [.comma] := by
      rw [h.same (by omega) (by omega), Code.isAt_iff.mp hcomma]
      · rfl
      · intro item hitem _
        rcases List.mem_append.mp hitem with hitem | hitem
        · obtain ⟨r, hle, hrn, htoken⟩ := hplaces item hitem
          exact hapart htoken (by omega) (by omega) (by omega)
        · obtain ⟨r, hle, hrn, htoken⟩ := hmorePlaces item hitem
          exact hapart htoken (by omega) hrn (by omega)
    rw [writtenKinds_append (m := stop) (by omega) (by omega), writtenKinds_cons (p := stop) (by omega), hsign]
    exact .cons (isImported_of_namedItems ho hname hfirst hfirstOnly) (ih hmore hmoreOnly)

/-- A `use` statement without a problem is a word of the grammar, with other names and aliases, too. -/
theorem isUse_of_useStatement (huse : c.kind? p = some .kwUse) (herrors : (useStatement c p).errors = [])
    (hvalue : (useStatement c p).value = .imports items)
    (h : Readdresses c items written p (useStatement c p).next) :
    IsUse (writtenKinds written p (useStatement c p).next) := by
  obtain ⟨found, next, hitems, hend, hfound, hnext⟩ :=
    useStatement_wellFormed (c := c) (p := p) (by rw [herrors]; simp)
  obtain rfl : found = items := StatementKind.imports.inj (hfound.symm.trans hvalue)
  rw [hnext, terminator, if_pos hend] at h ⊢
  dsimp only at h ⊢
  have hsize := Code.lt_size_of_kind? huse
  have hstart : c.Reaches (p + 1) (afterImportKind c (p + 1)) := afterImportKind_reaches hsize
  have hplaces := importItems_found ((importKind? c (p + 1)).getD .type) (c.size + 1) hstart.2
  rw [hitems] at hplaces
  obtain ⟨⟨hlt, hle⟩, hplaces⟩ := hplaces
  have hfrom := hstart.1
  have hlast := Code.lt_size_of_isAtAny hend
  have hother {q : Nat} (hq : q < afterImportKind c (p + 1) ∨ q = next) (hpq : p ≤ q) (hqn : q < next + 1) :
      written q = (c.kind? q).toList := by
    refine h.same hpq hqn fun item hitem _ htoken => ?_
    obtain ⟨r, hfirst, hr, htoken'⟩ := hplaces item hitem
    rw [htoken] at htoken'
    rcases hq with hq | rfl
    · exact absurd htoken' (Nat.ne_of_lt (ho.index q r (by omega) (by omega)))
    · exact absurd htoken' (Nat.ne_of_gt (ho.index r q hr hlast))
  have hword := writtenKinds_afterImportKind (p := p + 1) (n := afterImportKind c (p + 1))
    (fun q hpq hqn => hother (.inl hqn) (by omega) (by omega)) (Nat.le_refl _)
  have hrow := isImportRow_of_importItems ho hitems
    (h.mono (by omega) (Nat.le_succ next) fun _ hitem hnot => absurd hitem hnot)
  obtain ⟨stop, hstop, hkind⟩ := Code.exists_kind_of_isAtAny hend
  have hfirst : written p = [.kwUse] := by
    rw [hother (.inl (by omega)) (Nat.le_refl p) (by omega), huse]
    rfl
  have hsign : written next = [stop] := by
    rw [hother (.inr rfl) (by omega) (Nat.lt_succ_self next), hkind]
    rfl
  rw [writtenKinds_cons (by omega), hfirst, writtenKinds_append (m := next) (by omega) (Nat.le_succ next),
    writtenKinds_append (m := afterImportKind c (p + 1)) hfrom (by omega),
    writtenKinds_cons (Nat.lt_succ_self next), writtenKinds_self, hsign]
  exact .intro hword hrow hstop

end Readdressed
end Sound

/-- The kinds of the code from a position on. -/
def Spells (c : Code) : Nat → List TokenKind → Prop
  | _, [] => True
  | p, kind :: kinds => c.kind? p = some kind ∧ Spells c (p + 1) kinds

section Complete

variable {c : Code} {kind : SymbolKind} {p : Nat} {kinds : List TokenKind}

theorem spells_iff :
    Spells c p kinds ↔ ∀ i kind, kinds[i]? = some kind → c.kind? (p + i) = some kind := by
  induction kinds generalizing p with
  | nil => simp [Spells]
  | cons kind kinds ih =>
    rw [Spells, ih]
    constructor
    · rintro ⟨hkind, hrest⟩ i kind' hi
      cases i with
      | zero => rwa [← Option.some.inj hi]
      | succ i => rw [Nat.add_comm i 1, ← Nat.add_assoc]; exact hrest i kind' hi
    · intro h
      exact ⟨h 0 kind rfl, fun i kind' hi => by rw [Nat.add_assoc, Nat.add_comm 1 i]; exact h (i + 1) kind' hi⟩

theorem spells_append {more : List TokenKind} :
    Spells c p (kinds ++ more) ↔ Spells c p kinds ∧ Spells c (p + kinds.length) more := by
  induction kinds generalizing p with
  | nil => exact ⟨fun h => ⟨trivial, h⟩, And.right⟩
  | cons kind kinds ih =>
    rw [List.cons_append, Spells, Spells, ih, and_assoc, List.length_cons, Nat.add_assoc,
      Nat.add_comm 1]

theorem afterImportKind_of_word {word : List TokenKind} (hword : word ∈ importWords)
    (h : Spells c p word) {name : TokenKind} (hname : c.kind? (p + word.length) = some name)
    (hmem : name ∈ importNames) : afterImportKind c p = p + word.length := by
  rw [afterImportKind, importKind?]
  simp only [importWords, List.mem_cons, List.not_mem_nil, or_false] at hword
  rcases hword with rfl | rfl | rfl
  · simp only [List.length_nil, Nat.add_zero] at hname
    rw [hname]
    simp only [importNames, List.mem_cons, List.not_mem_nil, or_false] at hmem
    rcases hmem with rfl | rfl | rfl <;> rfl
  · rw [h.1]
    rfl
  · rw [h.1]
    rfl

theorem importAlias_of_tail {tail : List TokenKind} (htail : tail ∈ importTails) (h : Spells c p tail)
    (hnext : c.kind? (p + tail.length) ≠ some .kwAs) : (importAlias c p).2 = p + tail.length := by
  rw [importAlias]
  simp only [importTails, List.mem_cons, List.not_mem_nil, or_false] at htail
  rcases htail with rfl | rfl
  · rw [if_neg fun has => hnext (Code.isAt_iff.mp has.1)]
    rfl
  · rw [if_pos ⟨Code.isAt_iff.mpr h.1, Code.isAt_iff.mpr h.2.1⟩]
    rfl

theorem isAtAny_of_mem {name : TokenKind} {names : List TokenKind} (hkind : c.kind? p = some name)
    (hmem : name ∈ names) : c.isAtAny names p := by
  rw [Code.isAtAny, hkind, Option.any_some]
  exact List.contains_iff_mem.mpr hmem

theorem isAt_of_ne {other : TokenKind} (hkind : c.kind? p = some kind') (hne : other ≠ kind') :
    c.isAt other p = false := by
  rw [Code.isAt, hkind]
  simpa using hne.symm

/-- A name of a group with what belongs to it goes up to the sign after it. -/
theorem groupItem_read {word tail : List TokenKind} {name next : TokenKind}
    (hword : word ∈ importWords) (hname : name ∈ groupNames) (htail : tail ∈ importTails)
    (h : Spells c p (word ++ name :: tail)) (hnext : c.kind? (p + (word ++ name :: tail).length) = some next)
    (has : next ≠ .kwAs) : c.isAt .rightBrace p = false ∧
      c.isAtAny [.ident, .nameQualified] (afterImportKind c p) ∧
      (importAlias c (afterImportKind c p + 1)).2 = p + (word ++ name :: tail).length := by
  obtain ⟨hw, hn, ht⟩ := spells_append.mp h
  have hgroup : ∀ name ∈ groupNames, name ∈ importNames := by decide
  have hstart := afterImportKind_of_word hword hw hn (hgroup name hname)
  have hlength : p + (word ++ name :: tail).length = p + word.length + 1 + tail.length := by
    rw [List.length_append, List.length_cons]
    omega
  rw [hlength] at hnext ⊢
  refine ⟨?_, hstart ▸ isAtAny_of_mem hn hname, ?_⟩
  · simp only [importWords, List.mem_cons, List.not_mem_nil, or_false] at hword
    rcases hword with rfl | rfl | rfl
    · refine isAt_of_ne hn ?_
      rintro rfl
      exact absurd hname (by decide)
    · exact isAt_of_ne hw.1 (by decide)
    · exact isAt_of_ne hw.1 (by decide)
  · rw [hstart]
    exact importAlias_of_tail htail ht (by rw [hnext]; simpa using has)

theorem groupItems_of_isGroup {lead : Text} (h : IsGroup kinds) {fuel : Nat} (hfuel : kinds.length ≤ fuel)
    (hkinds : Spells c p kinds) :
    ∃ items, groupItems c kind lead fuel p = .ok (items, p + kinds.length) := by
  induction h generalizing p fuel with
  | nil =>
    obtain ⟨fuel, rfl⟩ := Nat.exists_eq_add_of_le' hfuel
    refine ⟨[], ?_⟩
    rw [List.length_singleton, groupItems, if_pos (Code.isAt_iff.mpr hkinds.1)]
  | @last word tail name hword hname htail =>
    obtain ⟨hitem, hend, -⟩ := spells_append.mp hkinds
    obtain ⟨fuel, rfl⟩ := Nat.exists_eq_add_of_le' (Nat.le_trans (List.length_pos_of_ne_nil (by simp)) hfuel : 1 ≤ fuel)
    obtain ⟨hclose, hat, halias⟩ := groupItem_read hword hname htail hitem hend (by decide)
    rw [groupItems, hclose, if_neg Bool.false_ne_true]
    dsimp only
    rw [hat, halias, isAt_of_ne hend (by decide), Code.isAt_iff.mpr hend]
    refine ⟨_, congrArg Except.ok (Prod.ext rfl ?_)⟩
    simp only [List.length_append, List.length_singleton, Nat.add_assoc]
  | @cons word tail rest name hword hname htail _ ih =>
    obtain ⟨hitem, hcomma, hrest⟩ := spells_append.mp hkinds
    obtain ⟨fuel, rfl⟩ := Nat.exists_eq_add_of_le' (Nat.le_trans (List.length_pos_of_ne_nil (by simp)) hfuel : 1 ≤ fuel)
    obtain ⟨hclose, hat, halias⟩ := groupItem_read hword hname htail hitem hcomma (by decide)
    have hless : rest.length ≤ fuel := by
      simp at hfuel
      omega
    obtain ⟨items, hitems⟩ := ih hless hrest
    rw [groupItems, hclose, if_neg Bool.false_ne_true]
    dsimp only
    rw [hat, halias, Code.isAt_iff.mpr hcomma, if_pos rfl, hitems]
    refine ⟨_, congrArg Except.ok (Prod.ext rfl ?_)⟩
    simp only [List.length_append, List.length_cons]
    omega

theorem namedItems_of_isImported (h : IsImported kinds) (hkinds : Spells c p kinds) {next : TokenKind}
    (hnext : c.kind? (p + kinds.length) = some next) (hsign : next = .comma ∨ next ∈ terminators) :
    c.isAtAny [.ident, .nameQualified, .nameFullyQualified] p ∧
      ∃ items, namedItems c kind p = .ok (items, p + kinds.length) := by
  have hsize := Code.lt_size_of_kind? hnext
  have hplain : next ≠ .kwAs ∧ next ≠ .backslash := by
    simp only [terminators, List.mem_cons, List.not_mem_nil, or_false] at hsign
    rcases hsign with rfl | rfl | rfl <;> decide
  cases h with
  | @symbol name tail hname htail =>
    obtain ⟨hkind, htailKinds⟩ := hkinds
    rw [List.length_cons, Nat.add_comm tail.length, ← Nat.add_assoc] at hnext ⊢
    refine ⟨isAtAny_of_mem hkind hname, ?_⟩
    have hslash : c.isAt .backslash (p + 1) = false := by
      simp only [importTails, List.mem_cons, List.not_mem_nil, or_false] at htail
      rcases htail with rfl | rfl
      · exact isAt_of_ne hnext hplain.2.symm
      · exact isAt_of_ne htailKinds.1 (by decide)
    rw [namedItems, hslash]
    simp only [Bool.false_eq_true, false_and, if_false]
    rw [importAlias_of_tail htail htailKinds (by rw [hnext]; simpa using hplain.1)]
    exact ⟨_, rfl⟩
  | @group name names hname hnames =>
    obtain ⟨hkind, hslash, hbrace, hrest⟩ := hkinds
    refine ⟨isAtAny_of_mem hkind hname, ?_⟩
    simp only [List.length_cons] at hsize
    rw [namedItems, if_pos ⟨Code.isAt_iff.mpr hslash, Code.isAt_iff.mpr hbrace⟩]
    obtain ⟨items, hitems⟩ := groupItems_of_isGroup hnames
      (show _ ≤ c.size + 1 by omega) hrest
    rw [hitems]
    refine ⟨items, congrArg Except.ok (Prod.ext rfl ?_)⟩
    simp only [List.length_cons]
    omega

theorem importItems_of_isImportRow (h : IsImportRow kinds) (hkinds : Spells c p kinds) {stop : TokenKind}
    (hnext : c.kind? (p + kinds.length) = some stop) (hstop : stop ∈ terminators) {fuel : Nat}
    (hfuel : kinds.length ≤ fuel) :
    ∃ items, importItems c kind fuel p = .ok (items, p + kinds.length) := by
  have hcomma : stop ≠ .comma := by
    rintro rfl
    exact absurd hstop (by decide)
  induction h generalizing p fuel with
  | last hitem =>
    obtain ⟨hat, items, hitems⟩ := namedItems_of_isImported hitem hkinds hnext (.inr hstop)
    obtain ⟨fuel, rfl⟩ := Nat.exists_eq_add_of_le'
      (Nat.le_trans (by cases hitem <;> simp) hfuel : 1 ≤ fuel)
    rw [importItems_succ, hat, hitems]
    refine ⟨items, ?_⟩
    change (if c.isAt .comma (p + _) = true then _ else _) = _
    rw [isAt_of_ne hnext hcomma.symm, if_neg Bool.false_ne_true]
  | @cons item rest hitem _ ih =>
    obtain ⟨hitemKinds, hsign, hrest⟩ := spells_append.mp hkinds
    have hlength : p + (item ++ .comma :: rest).length = p + item.length + 1 + rest.length := by
      rw [List.length_append, List.length_cons]
      omega
    rw [hlength] at hnext ⊢
    obtain ⟨hat, items, hitems⟩ := namedItems_of_isImported hitem hitemKinds hsign (.inl rfl)
    obtain ⟨fuel, rfl⟩ := Nat.exists_eq_add_of_le' (Nat.le_trans (List.length_pos_of_ne_nil (by simp)) hfuel : 1 ≤ fuel)
    have hless : rest.length ≤ fuel := by
      simp at hfuel
      omega
    obtain ⟨more, hmore⟩ := ih hrest hnext hless
    rw [importItems_succ, hat, hitems]
    refine ⟨items ++ more, ?_⟩
    change (if c.isAt .comma (p + _) = true then _ else _) = _
    rw [Code.isAt_iff.mpr hsign, if_pos rfl, hmore]
    rfl

/-- A word of the grammar is read as a `use` statement, without a problem and up to its end. -/
theorem useStatement_of_isUse (h : IsUse kinds) (hkinds : Spells c p kinds) :
    ∃ items, useStatement c p = ⟨.imports items, p + kinds.length, []⟩ := by
  cases h with
  | @intro word row stop hword hrow hstop =>
    obtain ⟨-, hrest⟩ := hkinds
    obtain ⟨hbefore, hend, -⟩ := spells_append.mp hrest
    obtain ⟨hwordKinds, hrowKinds⟩ := spells_append.mp hbefore
    have hlength : p + 1 + (word ++ row).length = p + 1 + word.length + row.length := by
      rw [List.length_append, Nat.add_assoc (p + 1)]
    rw [hlength] at hend
    have hsize := Code.lt_size_of_kind? hend
    obtain ⟨name, hname, hmem⟩ : ∃ name, c.kind? (p + 1 + word.length) = some name ∧ name ∈ importNames := by
      obtain ⟨name, rest, rfl, hmem⟩ := hrow.exists_name
      exact ⟨name, hrowKinds.1, hmem⟩
    have hstart := afterImportKind_of_word hword hwordKinds hname hmem
    obtain ⟨items, hitems⟩ := importItems_of_isImportRow hrow
      hrowKinds hend hstop (show row.length ≤ c.size + 1 by omega)
    have hterminator : isTerminator c (p + 1 + word.length + row.length) := isAtAny_of_mem hend hstop
    refine ⟨items, ?_⟩
    rw [useStatement]
    dsimp only
    rw [hstart, hitems]
    dsimp only
    rw [if_pos hterminator, terminator, if_pos hterminator]
    have hnext : p + (.kwUse :: (word ++ row ++ [stop])).length = p + 1 + word.length + row.length + 1 := by
      simp only [List.length_cons, List.length_append, List.length_nil]
      omega
    rw [hnext]

end Complete

/-- What is imported outside groups is a name, behind a comma or a word of the `use` statement. -/
theorem importItems_names {c : Code} {kind : SymbolKind} {fuel p n : Nat} {items : List ImportItem}
    (hp : c.isAtAny importLeads p) (hok : importItems c kind fuel (p + 1) = .ok (items, n)) :
    ∀ item ∈ items, item.groupLead? = none → ∃ q, item.nameToken = c.tokenIndex (q + 1) ∧
      c.isAtAny importNames (q + 1) ∧ c.isAtAny importLeads q := by
  induction fuel generalizing p items with
  | zero => cases hok
  | succ fuel ih =>
    rw [importItems_succ] at hok
    by_cases hname : c.isAtAny [.ident, .nameQualified, .nameFullyQualified] (p + 1)
    swap
    · rw [if_pos (by simpa using hname)] at hok
      cases hok
    rw [if_neg (by simpa using hname)] at hok
    obtain ⟨⟨first, stop⟩, hfirst, hrest⟩ := bind_eq_ok hok
    have hfirstNames : ∀ item ∈ first, item.groupLead? = none → ∃ q, item.nameToken = c.tokenIndex (q + 1) ∧
        c.isAtAny importNames (q + 1) ∧ c.isAtAny importLeads q := by
      rw [namedItems] at hfirst
      dsimp only at hfirst
      split at hfirst
      · exact fun item hitem hlead => absurd hlead (groupItems_lead hfirst item hitem)
      · cases hfirst
        exact List.forall_mem_singleton.mpr fun _ => ⟨p, rfl, hname, hp⟩
    dsimp only at hrest
    split at hrest
    · rename_i hcomma
      obtain ⟨⟨more, last⟩, hmore, heq⟩ := bind_eq_ok hrest
      cases heq
      refine List.forall_mem_append.mpr ⟨hfirstNames, ih ?_ hmore⟩
      rw [Code.isAtAny, Code.isAt_iff.mp hcomma]
      rfl
    · cases hrest
      exact hfirstNames

theorem useStatement_names {c : Code} {p : Nat} {items : List ImportItem} (huse : c.kind? p = some .kwUse)
    (hvalue : (useStatement c p).value = .imports items) :
    ∀ item ∈ items, item.groupLead? = none → ∃ q, item.nameToken = c.tokenIndex (q + 1) ∧
      c.isAtAny importNames (q + 1) ∧ c.isAtAny importLeads q := by
  obtain ⟨q, hq, hlead⟩ : ∃ q, afterImportKind c (p + 1) = q + 1 ∧ c.isAtAny importLeads q := by
    unfold afterImportKind
    split
    · rename_i hkind
      refine ⟨p + 1, rfl, ?_⟩
      unfold importKind? at hkind
      unfold Code.isAtAny
      split at hkind
      · rw [‹c.kind? (p + 1) = _›]
        rfl
      · rw [‹c.kind? (p + 1) = _›]
        rfl
      · cases hkind
    · refine ⟨p, rfl, ?_⟩
      rw [Code.isAtAny, huse]
      rfl
  rw [useStatement, hq] at hvalue
  split at hvalue
  · cases hvalue
  · rename_i hok
    dsimp only at hvalue
    split at hvalue
    · obtain rfl := StatementKind.imports.inj hvalue
      exact importItems_names hlead hok
    · cases hvalue

end Parser
end NamespaceMigration
