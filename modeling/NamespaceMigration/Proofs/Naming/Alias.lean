import Mathlib.Data.List.Nodup
import Mathlib.Data.List.Perm.Subperm
import NamespaceMigration.Name.Context
import NamespaceMigration.Proofs.Naming.Keys

/-! New aliases. The alias that is chosen for a name goes by nothing that the scope has, and is one
segment. -/
namespace NamespaceMigration

theorem aliasKey_append_ofNat (kind : SymbolKind) (stem : Text) (n : Nat) :
    aliasKey kind (stem ++ Text.ofNat n) = aliasKey kind stem ++ Text.ofNat n := by
  unfold aliasKey
  split
  · rfl
  · exact Text.toLower_append_digits stem (Text.ofNat_all_isDigit n)

theorem aliasKey_ofNat_injective (kind : SymbolKind) (stem : Text) {m n : Nat}
    (h : aliasKey kind (stem ++ Text.ofNat m) = aliasKey kind (stem ++ Text.ofNat n)) : m = n := by
  rw [aliasKey_append_ofNat, aliasKey_append_ofNat] at h
  have hd : Text.ofNat m = Text.ofNat n := List.append_cancel_left h
  rw [← Nat.ofDigitChars_ten_toDigits (n := m), ← Nat.ofDigitChars_ten_toDigits (n := n)]
  exact congrArg (Nat.ofDigitChars 10 · 0) hd

namespace NameContext

variable (c : NameContext) (kind : SymbolKind)

/-- The keys of all short names that are taken. -/
def takenKeys : List Text :=
  (c.aliases.get kind).map (aliasKey kind ·.alias) ++ (c.definitions.get kind).map (aliasKey kind) ++
    c.references.get kind

theorem length_takenKeys : (c.takenKeys kind).length = c.takenCount kind := by
  simp [takenKeys, takenCount, Nat.add_assoc]

variable {c kind}

theorem hasAlias_iff {short : Text} :
    c.hasAlias short kind ↔ ∃ e ∈ c.aliases.get kind, aliasKey kind e.alias = aliasKey kind short := by
  simp [hasAlias, findAlias?, List.find?_isSome]

theorem defines_iff {name : Text} :
    c.defines name kind ↔ ∃ d ∈ c.definitions.get kind, aliasKey kind d = aliasKey kind name := by
  simp [defines]

theorem isFree_iff {short : Text} :
    c.isFree short kind ↔ aliasKey kind short ∉ c.takenKeys kind := by
  simp only [isFree, takenKeys, refers, Bool.and_eq_true, Bool.not_eq_true', List.mem_append,
    List.mem_map, not_or, ← hasAlias_iff, ← defines_iff, List.contains_eq_mem, Bool.not_eq_true,
    decide_eq_false_iff_not]

theorem firstFree_taken {stem : Text} {tries counter : Nat}
    (h : ¬c.isFree (c.firstFree kind stem tries counter) kind) :
    ∀ n, counter ≤ n → n ≤ counter + tries →
      aliasKey kind (stem ++ Text.ofNat n) ∈ c.takenKeys kind := by
  have htaken {n : Nat} (hn : ¬c.isFree (stem ++ Text.ofNat n) kind) :
      aliasKey kind (stem ++ Text.ofNat n) ∈ c.takenKeys kind := by
    rw [isFree_iff] at hn
    exact Decidable.not_not.mp hn
  induction tries generalizing counter with
  | zero =>
    intro n h1 h2
    obtain rfl : n = counter := by omega
    exact htaken h
  | succ tries ih =>
    rw [firstFree] at h
    split at h
    · contradiction
    · rename_i hc
      intro n h1 h2
      rcases Nat.lt_or_eq_of_le h1 with hlt | rfl
      · exact ih h n hlt (by omega)
      · exact htaken hc

/-- More numbers are tried than names are taken, so one of them is free. -/
theorem firstFree_isFree (stem : Text) (counter : Nat) :
    c.isFree (c.firstFree kind stem (c.takenCount kind) counter) kind := by
  by_contra h
  have htaken := firstFree_taken h
  let candidates := (List.range' counter (c.takenCount kind + 1)).map fun n =>
    aliasKey kind (stem ++ Text.ofNat n)
  have hnodup : candidates.Nodup := by
    refine List.Nodup.map (fun m n hmn => aliasKey_ofNat_injective kind stem hmn) ?_
    exact List.nodup_range' 1
  have hsub : candidates ⊆ c.takenKeys kind := by
    intro key hkey
    obtain ⟨n, hn, rfl⟩ := List.mem_map.mp hkey
    obtain ⟨h1, h2⟩ := List.mem_range'_1.mp hn
    exact htaken n h1 (by omega)
  have hle := (List.subperm_of_subset hnodup hsub).length_le
  rw [length_takenKeys, List.length_map, List.length_range'] at hle
  omega

theorem allocateAlias_cases (c : NameContext) (name : QualifiedName) (kind : SymbolKind) :
    c.allocateAlias name kind = name.short ∨
      c.allocateAlias name kind = (name.segments.drop (name.segments.length - 2)).flatten ∨
      ∃ n, c.allocateAlias name kind = name.short ++ Text.ofNat n := by
  have hfirst (tries counter : Nat) :
      ∃ n, c.firstFree kind name.short tries counter = name.short ++ Text.ofNat n := by
    induction tries generalizing counter with
    | zero => exact ⟨counter, rfl⟩
    | succ tries ih =>
      rw [firstFree]
      split
      · exact ⟨counter, rfl⟩
      · exact ih (counter + 1)
  unfold allocateAlias
  dsimp only
  split
  · exact Or.inl rfl
  · split
    · exact Or.inr (Or.inl rfl)
    · exact Or.inr (Or.inr (hfirst _ _))

/-- The numbers are tried in order, up to one more than names are taken. -/
theorem firstFree_first (c : NameContext) (kind : SymbolKind) (stem : Text) (tries counter : Nat) :
    ∃ n, counter ≤ n ∧ n ≤ counter + tries ∧ c.firstFree kind stem tries counter = stem ++ Text.ofNat n ∧
      ∀ m, counter ≤ m → m < n → ¬c.isFree (stem ++ Text.ofNat m) kind := by
  induction tries generalizing counter with
  | zero => exact ⟨counter, Nat.le_refl _, Nat.le_refl _, rfl, fun m hle hlt => absurd hle (Nat.not_le.mpr hlt)⟩
  | succ tries ih =>
    rw [firstFree]
    split
    · exact ⟨counter, Nat.le_refl _, Nat.le_add_right _ _, rfl,
        fun m hle hlt => absurd hle (Nat.not_le.mpr hlt)⟩
    · rename_i hcounter
      obtain ⟨n, hle, hbound, heq, hfirst⟩ := ih (counter + 1)
      refine ⟨n, by omega, by omega, heq, fun m hm hlt => ?_⟩
      rcases Nat.eq_or_lt_of_le hm with rfl | hm
      · exact hcounter
      · exact hfirst m hm hlt

theorem allocateAlias_isFree (c : NameContext) (name : QualifiedName) (kind : SymbolKind) :
    c.isFree (c.allocateAlias name kind) kind := by
  unfold allocateAlias
  dsimp only
  split
  · assumption
  · split
    · rename_i h
      exact h.2.2
    · exact firstFree_isFree _ _

/-- What holds of the context of every scope: its namespace has no backslash at either end, each
alias is one segment, and no two aliases of a kind have one key. -/
structure IsPlain (c : NameContext) : Prop where
  space : ∀ space, c.space? = some space → IsSpace space
  segment : ∀ kind, ∀ e ∈ c.aliases.get kind, '\\' ∉ e.alias
  unique : ∀ kind, ((c.aliases.get kind).map (aliasKey kind ·.alias)).Nodup

theorem IsPlain.findAlias?_eq (hc : c.IsPlain) {short : Text} {e : AliasEntry}
    (he : e ∈ c.aliases.get kind) (hkey : aliasKey kind e.alias = aliasKey kind short) :
    c.findAlias? short kind = some e := by
  cases hfind : c.findAlias? short kind with
  | none =>
    have := List.find?_eq_none.mp hfind e he
    simp [hkey] at this
  | some e' =>
    have he' := List.mem_of_find?_eq_some hfind
    have hkey' : aliasKey kind e'.alias = aliasKey kind short := by
      simpa using List.find?_some hfind
    rw [List.inj_on_of_nodup_map (hc.unique kind) he' he (hkey'.trans hkey.symm)]

theorem addAlias?_eq_some_iff {target : QualifiedName} {short : Text} {c' : NameContext} :
    c.addAlias? target short kind = some c' ↔ ¬c.hasAlias short kind ∧
      c' = { c with aliases := c.aliases.modify kind (· ++ [⟨short, target⟩]) } := by
  rw [addAlias?]
  split
  · rename_i h
    simp [h]
  · rename_i h
    rw [Option.some.injEq]
    exact ⟨fun he => ⟨h, he.symm⟩, fun he => he.2.symm⟩

theorem get_modify_append (kind' : SymbolKind) (e : AliasEntry) :
    (c.aliases.modify kind (· ++ [e])).get kind' =
      c.aliases.get kind' ++ if kind = kind' then [e] else [] := by
  rw [PerKind.get_modify]
  split
  · rfl
  · rw [List.append_nil]

theorem addAlias?_isPlain {target : QualifiedName} {short : Text} {c' : NameContext} (hc : c.IsPlain)
    (hshort : '\\' ∉ short) (h : c.addAlias? target short kind = some c') : c'.IsPlain := by
  obtain ⟨hfree, rfl⟩ := addAlias?_eq_some_iff.mp h
  refine ⟨hc.space, fun kind' e he => ?_, fun kind' => ?_⟩
  · rw [get_modify_append, List.mem_append] at he
    rcases he with he | he
    · exact hc.segment kind' e he
    · split at he
      · rw [List.mem_singleton] at he
        rwa [he]
      · simp at he
  · rw [get_modify_append, List.map_append]
    split
    · rename_i hkind
      subst hkind
      refine (hc.unique kind).append (List.nodup_singleton _) ?_
      rw [List.map_singleton, List.disjoint_singleton]
      intro hkey
      obtain ⟨e, he, hkey⟩ := List.mem_map.mp hkey
      exact hfree (hasAlias_iff.mpr ⟨e, he, hkey⟩)
    · rw [List.map_nil, List.append_nil]
      exact hc.unique kind'

end NameContext

theorem splitOn_not_mem (c : Char) (t : Text) : ∀ s ∈ t.splitOn c, c ∉ s := by
  induction t with
  | nil => simp
  | cons d t ih =>
    rw [List.splitOn_cons_eq_if_modifyHead]
    split
    · simpa using ih
    · rename_i hd
      have hd' : d ≠ c := by simpa using hd
      cases hs : t.splitOn c with
      | nil => simp
      | cons u us =>
        rw [hs] at ih
        simp only [List.modifyHead_cons, List.mem_cons, forall_eq_or_imp] at ih ⊢
        exact ⟨by simp [Ne.symm hd', ih.1], ih.2⟩

theorem NameContext.allocateAlias_not_mem (c : NameContext) (name : QualifiedName)
    (kind : SymbolKind) : '\\' ∉ c.allocateAlias name kind := by
  have hshort := name.short_not_mem
  rcases c.allocateAlias_cases name kind with h | h | ⟨n, h⟩
  · rwa [h]
  · rw [h]
    intro hmem
    obtain ⟨s, hs, hc⟩ := List.mem_flatten.mp hmem
    exact splitOn_not_mem '\\' name.text s (List.mem_of_mem_drop hs) hc
  · rw [h, List.mem_append, not_or]
    refine ⟨hshort, fun hmem => ?_⟩
    have := List.all_eq_true.mp (Text.ofNat_all_isDigit n) _ hmem
    exact absurd this (by decide)

namespace NameContext

theorem resolve_of_not_mem (c : NameContext) {written : Text} (h : '\\' ∉ written)
    (kind : SymbolKind) :
    c.resolve written kind =
      match c.findAlias? written kind with
      | some e => .resolved e.target
      | none =>
        if kind = .type ∨ c.space? = none ∨ c.defines written kind then
          .resolved (.join c.space? written)
        else .fallback (.join c.space? written) (.ofText written) := by
  rw [resolve.eq_def]
  split
  · simp at h
  · have hsplit := Text.splitAtFirst?_eq_none_iff.mpr h
    cases hfind : c.findAlias? written kind with
    | some e => simp only [hsplit]
    | none => simp only [hsplit]

theorem resolve_congr {c d : NameContext} {written : Text} (h : '\\' ∉ written) {kind : SymbolKind}
    (hspace : d.space? = c.space?) (hdef : d.definitions = c.definitions)
    (halias : d.findAlias? written kind = c.findAlias? written kind) :
    d.resolve written kind = c.resolve written kind := by
  rw [resolve_of_not_mem d h, resolve_of_not_mem c h, halias, hspace, defines, defines, hdef]

/-- When a short name stands for a name, given the alias that it is, if it is one. -/
def Stands (c : NameContext) (short : Text) (kind : SymbolKind) (name : QualifiedName) :
    Option AliasEntry → Prop
  | some e => e.target.key kind = name.key kind
  | none => short = name.short ∧ sameSpace c.space? name.space? ∧
      (kind = .type ∨ c.space? = none ∨ c.defines short kind)

theorem Stands.resolve {c : NameContext} (hc : c.IsPlain) {short : Text} {kind : SymbolKind}
    {name : QualifiedName} (hshort : '\\' ∉ short) (hname : name.text.head? ≠ some '\\')
    (h : c.Stands short kind name (c.findAlias? short kind)) :
    ∃ n, c.resolve short kind = .resolved n ∧ n.key kind = name.key kind := by
  rw [resolve_of_not_mem c hshort]
  cases hfind : c.findAlias? short kind with
  | some e =>
    rw [hfind] at h
    exact ⟨e.target, rfl, h⟩
  | none =>
    rw [hfind] at h
    obtain ⟨rfl, hsame, hown⟩ := h
    dsimp only
    rw [if_pos hown]
    exact ⟨_, rfl, QualifiedName.join_short_key kind hc.space hname hsame⟩

/-- How the search for an alias of a target ends: with the short name, for a type with its last two
segments together, or with the short name and the first number from one on that is free. -/
inductive SearchEnds (c : NameContext) (target : QualifiedName) (kind : SymbolKind) : Text → Prop where
  | short (free : c.isFree target.short kind) : SearchEnds c target kind target.short
  | pair (taken : ¬c.isFree target.short kind) (isType : kind = .type)
      (free : c.isFree (target.segments.drop (target.segments.length - 2)).flatten kind) :
      SearchEnds c target kind (target.segments.drop (target.segments.length - 2)).flatten
  | numbered (taken : ¬c.isFree target.short kind) (n : Nat) (one_le : 1 ≤ n)
      (bound : n ≤ c.takenCount kind + 1) (free : c.isFree (target.short ++ Text.ofNat n) kind)
      (first : ∀ m, 1 ≤ m → m < n → ¬c.isFree (target.short ++ Text.ofNat m) kind) :
      SearchEnds c target kind (target.short ++ Text.ofNat n)

theorem allocateAlias_ends (c : NameContext) (target : QualifiedName) (kind : SymbolKind) :
    c.SearchEnds target kind (c.allocateAlias target kind) := by
  have hfree := c.allocateAlias_isFree target kind
  rw [allocateAlias] at hfree ⊢
  split
  · rename_i hshort
    exact .short hshort
  · rename_i hshort
    rw [if_neg hshort] at hfree
    split
    · rename_i hpair
      exact .pair hshort hpair.1 hpair.2.2
    · rename_i hpair
      rw [if_neg hpair] at hfree
      obtain ⟨n, hle, hbound, heq, hfirst⟩ := c.firstFree_first kind target.short (c.takenCount kind) 1
      rw [heq] at hfree ⊢
      exact .numbered hshort n hle (by omega) hfree hfirst

/-- A new alias binds its target and nothing else: every other name of one segment is found as before. -/
theorem findAlias?_addAlias {c c' : NameContext} {target : QualifiedName} {short : Text} {kind : SymbolKind}
    (h : c.addAlias? target short kind = some c') (written : Text) (kind' : SymbolKind) :
    c'.findAlias? written kind' =
      if kind = kind' ∧ aliasKey kind short = aliasKey kind written then some ⟨short, target⟩
      else c.findAlias? written kind' := by
  obtain ⟨hfree, rfl⟩ := addAlias?_eq_some_iff.mp h
  rw [findAlias?, get_modify_append, List.find?_append]
  split_ifs with hkind hsame hsame
  · obtain rfl := hkind
    have hnone : c.findAlias? written kind = none := by
      rw [hasAlias, Bool.not_eq_true, Option.isSome_eq_false_iff, Option.isNone_iff_eq_none, findAlias?,
        hsame.2] at hfree
      exact hfree
    rw [findAlias?] at hnone
    rw [hnone, Option.none_or, List.find?_singleton, if_pos (by simpa using hsame.2)]
  · obtain rfl := hkind
    rw [List.find?_singleton, if_neg (by simpa using hsame), Option.or_none]
    rfl
  · exact absurd hsame.1 hkind
  · rw [List.find?_nil, Option.or_none]
    rfl

/-- Whatever a scope has, the search for a new alias ends, with one that is free in its kind. Its import can
be added, it means the target, and no name of one segment that is taken in its kind changes its meaning. -/
theorem allocateAlias_imports (c : NameContext) (target : QualifiedName) (kind : SymbolKind) :
    c.SearchEnds target kind (c.allocateAlias target kind) ∧
    aliasKey kind (c.allocateAlias target kind) ∉ c.takenKeys kind ∧
    ∃ c', c.addAlias? target (c.allocateAlias target kind) kind = some c' ∧
      c'.resolve (c.allocateAlias target kind) kind = .resolved target ∧
      ∀ (kind' : SymbolKind) (written : Text), '\\' ∉ written →
        aliasKey kind' written ∈ c.takenKeys kind' →
        c'.resolve written kind' = c.resolve written kind' := by
  have hfresh := isFree_iff.mp (c.allocateAlias_isFree target kind)
  have hfree : ¬c.hasAlias (c.allocateAlias target kind) kind := by
    intro halias
    obtain ⟨e, he, hkey⟩ := hasAlias_iff.mp halias
    refine hfresh (hkey ▸ ?_)
    rw [takenKeys, List.append_assoc]
    exact List.mem_append_left _ (List.mem_map_of_mem he)
  have hadd : c.addAlias? target (c.allocateAlias target kind) kind = some _ :=
    addAlias?_eq_some_iff.mpr ⟨hfree, rfl⟩
  refine ⟨c.allocateAlias_ends target kind, hfresh, _, hadd, ?_, fun kind' written hwritten htaken => ?_⟩
  · rw [resolve_of_not_mem _ (c.allocateAlias_not_mem target kind), findAlias?_addAlias hadd,
      if_pos ⟨rfl, rfl⟩]
  · refine resolve_congr hwritten rfl rfl ?_
    rw [findAlias?_addAlias hadd, if_neg]
    rintro ⟨rfl, hkey⟩
    exact hfresh (hkey ▸ htaken)

end NameContext

end NamespaceMigration
