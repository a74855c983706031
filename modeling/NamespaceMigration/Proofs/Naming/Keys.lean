import Mathlib.Data.List.Basic
import NamespaceMigration.Proofs.Naming.LetterCase

/-! Keys of the names in a namespace. A short name that is put into the namespace of a name has the
key of that name. -/
namespace NamespaceMigration

/-- A namespace as it is written: something, with no backslash at either end. -/
structure IsSpace (space : Text) : Prop where
  ne_nil : space ≠ []
  head : space.head? ≠ some '\\'
  last : space.getLast? ≠ some '\\'

theorem dropBackslashes_eq_self {name : Text} (h : name.head? ≠ some '\\') :
    dropBackslashes name = name := by
  cases name with
  | nil => rfl
  | cons c name =>
    have hc : c ≠ '\\' := by simpa using h
    exact List.dropWhile_cons_of_neg (by simpa using hc)

theorem head_dropBackslashes (name : Text) : (dropBackslashes name).head? ≠ some '\\' := by
  intro h
  have := List.head?_dropWhile_not (· == '\\') name
  rw [← dropBackslashes, h] at this
  simp at this

theorem dropBackslashes_of_not_mem {name : Text} (h : '\\' ∉ name) : dropBackslashes name = name :=
  dropBackslashes_eq_self fun hc => h (List.mem_of_mem_head? hc)

theorem IsSpace.trim {space : Text} (h : IsSpace space) : Text.trim (· == '\\') space = space := by
  have hstart : Text.trimStart (· == '\\') space = space := dropBackslashes_eq_self h.head
  have hend : dropBackslashes space.reverse = space.reverse :=
    dropBackslashes_eq_self (by rw [List.head?_reverse]; exact h.last)
  rw [Text.trim, hstart, Text.trimEnd]
  change (dropBackslashes space.reverse).reverse = space
  rw [hend, List.reverse_reverse]

theorem IsSpace.head_append {space : Text} (h : IsSpace space) (t : Text) :
    (space ++ t).head? ≠ some '\\' := by
  obtain ⟨c, u, rfl⟩ := List.exists_cons_of_ne_nil h.ne_nil
  simpa using h.head

theorem Text.splitAtFirst?_eq_none_iff {c : Char} {t : Text} : splitAtFirst? c t = none ↔ c ∉ t := by
  induction t with
  | nil => simp [splitAtFirst?]
  | cons d t ih =>
    rw [splitAtFirst?, List.mem_cons, not_or]
    split
    · rename_i hd
      simp [hd]
    · rename_i hd
      rw [Option.map_eq_none_iff, ih]
      exact ⟨fun h => ⟨Ne.symm hd, h⟩, fun h => h.2⟩

theorem lastSegment_not_mem (name : Text) : '\\' ∉ lastSegment name := by
  unfold lastSegment
  split
  · rename_i h
    exact (Text.splitAtLast?_eq_some_iff.mp h).2
  · rename_i h
    exact Text.splitAtLast?_eq_none_iff.mp h

namespace QualifiedName

theorem ofText_text_head (name : Text) : (ofText name).text.head? ≠ some '\\' :=
  head_dropBackslashes name

theorem key_ofText (kind : SymbolKind) (name : Text) :
    (ofText name).key kind = lookupKey kind name := by
  have : dropBackslashes (dropBackslashes name) = dropBackslashes name :=
    dropBackslashes_eq_self (head_dropBackslashes name)
  rw [key, ofText, lookupKey, lookupKey, this]

theorem key_written (n : QualifiedName) (kind : SymbolKind) :
    (ofText n.written).key kind = n.key kind := by
  have : dropBackslashes n.written = dropBackslashes n.text := List.dropWhile_cons_of_pos rfl
  rw [key_ofText, key, lookupKey, lookupKey, this]

theorem join_some {space : Text} (h : IsSpace space) {name : Text} (hn : '\\' ∉ name) :
    join (some space) name = ⟨space ++ '\\' :: name⟩ := by
  rw [join.eq_def]
  split
  · contradiction
  · rename_i hs
    simp only [Option.some.injEq] at hs
    exact absurd hs h.ne_nil
  · rename_i hs
    simp only [Option.some.injEq] at hs
    subst hs
    rw [h.trim, dropBackslashes_of_not_mem hn, ofText, dropBackslashes_eq_self (h.head_append _)]

theorem join_none {name : Text} (hn : '\\' ∉ name) : join none name = ⟨name⟩ := by
  rw [join, ofText, dropBackslashes_of_not_mem hn]

theorem short_not_mem (n : QualifiedName) : '\\' ∉ n.short := lastSegment_not_mem n.text

theorem space?_eq_none_iff {n : QualifiedName} : n.space? = none ↔ '\\' ∉ n.text := by
  rw [space?, Option.map_eq_none_iff, Text.splitAtLast?_eq_none_iff]

theorem text_of_space?_none {n : QualifiedName} (h : n.space? = none) : n.text = n.short := by
  rw [space?, Option.map_eq_none_iff] at h
  rw [short, lastSegment, h]

theorem text_of_space?_some {n : QualifiedName} {space : Text} (h : n.space? = some space) :
    n.text = space ++ '\\' :: n.short := by
  obtain ⟨⟨before, after⟩, hs, rfl⟩ := Option.map_eq_some_iff.mp h
  rw [short, lastSegment, hs]
  exact (Text.splitAtLast?_eq_some_iff.mp hs).1

theorem key_of_space (kind : SymbolKind) {space short : Text} (h : space.head? ≠ some '\\')
    (hne : space ≠ []) (hs : '\\' ∉ short) :
    lookupKey kind (space ++ '\\' :: short) =
      if kind.isCaseSensitive then Text.toLower space ++ '\\' :: short
      else Text.toLower (space ++ '\\' :: short) := by
  have hdrop : dropBackslashes (space ++ '\\' :: short) = space ++ '\\' :: short := by
    obtain ⟨c, u, rfl⟩ := List.exists_cons_of_ne_nil hne
    exact dropBackslashes_eq_self (by simpa using h)
  have hsplit : Text.splitAtLast? '\\' (space ++ '\\' :: short) = some (space, short) :=
    Text.splitAtLast?_eq_some_iff.mpr ⟨rfl, hs⟩
  rw [lookupKey, hdrop, hsplit]

/-- The short name of a name means that name inside its own namespace. -/
theorem join_short_key {space? : Option Text} {n : QualifiedName} (kind : SymbolKind)
    (hspace : ∀ s, space? = some s → IsSpace s) (hhead : n.text.head? ≠ some '\\')
    (hsame : sameSpace space? n.space?) : (join space? n.short).key kind = n.key kind := by
  have hs := n.short_not_mem
  cases hn : n.space? with
  | none =>
    cases space? with
    | none => rw [join_none hs, key, key, text_of_space?_none hn]
    | some s => simp [hn, sameSpace] at hsame
  | some own =>
    cases space? with
    | none => simp [hn, sameSpace] at hsame
    | some s =>
      have hsp := hspace s rfl
      have htext := text_of_space?_some hn
      have hown : own ≠ [] ∧ own.head? ≠ some '\\' := by
        rw [htext] at hhead
        cases own with
        | nil => simp at hhead
        | cons c own => exact ⟨by simp, by simpa using hhead⟩
      have hcase : Text.eqIgnoreCase s own := by simpa [hn, sameSpace] using hsame
      have hascii : Text.toLowerAscii s = Text.toLowerAscii own := by
        simpa [Text.eqIgnoreCase] using hcase
      rw [join_some hsp hs, key, key, htext, key_of_space kind hsp.head hsp.ne_nil hs,
        key_of_space kind hown.2 hown.1 hs, Text.toLower_eq_of_eqIgnoreCase hcase,
        Text.toLower_eq_of_eqIgnoreCase (s := s ++ '\\' :: n.short)]
      rw [Text.eqIgnoreCase, Text.toLowerAscii_append, Text.toLowerAscii_append, hascii]
      exact beq_self_eq_true _

end QualifiedName
end NamespaceMigration
