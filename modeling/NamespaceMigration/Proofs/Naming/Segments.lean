import NamespaceMigration.Name.Identifier
import NamespaceMigration.Proofs.Lexing.Names
import NamespaceMigration.Proofs.Naming.Alias

/-! Names as lists of segments. Joining names, taking the short name and the namespace, and writing
reserved segments in another way are operations on these lists. -/
namespace NamespaceMigration

/-- What stands between the backslashes of a name. -/
structure AreSegments (segments : List Text) : Prop where
  ne_nil : segments ≠ []
  plain : ∀ s ∈ segments, s ≠ [] ∧ '\\' ∉ s

namespace Text

theorem join_cons (c : Char) (t : Text) {ts : List Text} (h : ts ≠ []) :
    join [c] (t :: ts) = t ++ c :: join [c] ts := by
  obtain ⟨u, us, rfl⟩ := List.exists_cons_of_ne_nil h
  rw [join, List.intercalate_cons_cons, List.append_assoc]
  rfl

theorem join_singleton (c : Char) (t : Text) : join [c] [t] = t := List.intercalate_singleton

theorem join_append (c : Char) {ts us : List Text} (ht : ts ≠ []) (hu : us ≠ []) :
    join [c] (ts ++ us) = join [c] ts ++ c :: join [c] us := by
  induction ts with
  | nil => exact absurd rfl ht
  | cons t ts ih =>
    by_cases hts : ts = []
    · subst hts
      rw [List.singleton_append, join_cons c t hu, join_singleton]
    · rw [List.cons_append, join_cons c t (List.append_ne_nil_of_left_ne_nil hts us), ih hts,
        join_cons c t hts, List.append_assoc]
      rfl

theorem join_concat (c : Char) {ts : List Text} (h : ts ≠ []) (t : Text) :
    join [c] (ts ++ [t]) = join [c] ts ++ c :: t := by
  rw [join_append c h (List.cons_ne_nil t []), join_singleton]

theorem splitOn_join {c : Char} {ts : List Text} (h : ∀ t ∈ ts, c ∉ t) (hne : ts ≠ []) :
    (join [c] ts).splitOn c = ts := List.splitOn_intercalate c h hne

theorem join_splitOn (c : Char) (t : Text) : join [c] (t.splitOn c) = t := List.intercalate_splitOn c

theorem join_injective {c : Char} {ts us : List Text} (ht : ∀ t ∈ ts, c ∉ t) (htn : ts ≠ [])
    (hu : ∀ u ∈ us, c ∉ u) (hun : us ≠ []) (h : join [c] ts = join [c] us) : ts = us := by
  rw [← splitOn_join ht htn, h, splitOn_join hu hun]

theorem mem_join {c d : Char} {ts : List Text} (h : d ∈ join [c] ts) : d = c ∨ ∃ t ∈ ts, d ∈ t := by
  induction ts with
  | nil => cases h
  | cons t ts ih =>
    by_cases hts : ts = []
    · subst hts
      rw [join_singleton] at h
      exact Or.inr ⟨t, List.mem_cons_self, h⟩
    · rw [join_cons c t hts, List.mem_append, List.mem_cons] at h
      rcases h with h | rfl | h
      · exact Or.inr ⟨t, List.mem_cons_self, h⟩
      · exact Or.inl rfl
      · rcases ih h with rfl | ⟨u, hu, hd⟩
        · exact Or.inl rfl
        · exact Or.inr ⟨u, List.mem_cons_of_mem t hu, hd⟩

end Text

namespace AreSegments

variable {ss ts : List Text}

theorem of_forall (hne : ss ≠ []) (h : ∀ s ∈ ss, Identifier.isIdentifier s) : AreSegments ss := by
  refine ⟨hne, fun s hs => ?_⟩
  have hid := h s hs
  cases s with
  | nil => cases hid
  | cons c t =>
    rw [Identifier.isIdentifier, Bool.and_eq_true, List.all_eq_true] at hid
    refine ⟨List.cons_ne_nil c t, fun hmem => ?_⟩
    rcases List.mem_cons.mp hmem with rfl | hmem
    · exact absurd hid.1 (by decide)
    · exact absurd (hid.2 _ hmem) (by decide)

theorem append (hs : AreSegments ss) (ht : ∀ t ∈ ts, t ≠ [] ∧ '\\' ∉ t) : AreSegments (ss ++ ts) :=
  ⟨List.append_ne_nil_of_left_ne_nil hs.ne_nil ts, List.forall_mem_append.mpr ⟨hs.plain, ht⟩⟩

theorem splitOn (hs : AreSegments ss) : (Text.join ['\\'] ss).splitOn '\\' = ss :=
  Text.splitOn_join (fun s h => (hs.plain s h).2) hs.ne_nil

theorem isSpace (hs : AreSegments ss) : IsSpace (Text.join ['\\'] ss) := by
  have hfirst (s : Text) (h : s ∈ ss) (t : Text) :
      s ++ t ≠ [] ∧ (s ++ t).head? ≠ some '\\' := by
    obtain ⟨hne, hmem⟩ := hs.plain s h
    obtain ⟨c, u, rfl⟩ := List.exists_cons_of_ne_nil hne
    refine ⟨List.cons_ne_nil _ _, fun hc => hmem ?_⟩
    cases hc
    exact List.mem_cons_self
  have hlast (s : Text) (h : s ∈ ss) (t : Text) : (t ++ s).getLast? ≠ some '\\' := by
    obtain ⟨hne, hmem⟩ := hs.plain s h
    rw [List.getLast?_append_of_ne_nil t hne]
    exact fun hc => hmem (List.mem_of_getLast? hc)
  have hstart : ∃ s ∈ ss, ∃ t, Text.join ['\\'] ss = s ++ t := by
    obtain ⟨s, rest, rfl⟩ := List.exists_cons_of_ne_nil hs.ne_nil
    refine ⟨s, List.mem_cons_self, ?_⟩
    by_cases hrest : rest = []
    · exact ⟨[], by rw [hrest, Text.join_singleton, List.append_nil]⟩
    · exact ⟨_, Text.join_cons _ _ hrest⟩
  have hend : ∃ s ∈ ss, ∃ t, Text.join ['\\'] ss = t ++ s := by
    obtain ⟨before, s, rfl⟩ : ∃ before s, ss = before ++ [s] :=
      ⟨_, _, (List.dropLast_append_getLast hs.ne_nil).symm⟩
    refine ⟨s, List.mem_append_right _ List.mem_cons_self, ?_⟩
    by_cases hbefore : before = []
    · exact ⟨[], by rw [hbefore, List.nil_append, Text.join_singleton, List.nil_append]⟩
    · exact ⟨Text.join ['\\'] before ++ ['\\'], by
        rw [Text.join_concat _ hbefore, List.append_assoc]
        rfl⟩
  obtain ⟨s, hs, t, hst⟩ := hstart
  obtain ⟨s', hs', t', hst'⟩ := hend
  refine ⟨?_, ?_, ?_⟩
  · rw [hst]
    exact (hfirst s hs t).1
  · rw [hst]
    exact (hfirst s hs t).2
  · rw [hst']
    exact hlast s' hs' t'

theorem dropBackslashes (hs : AreSegments ss) :
    NamespaceMigration.dropBackslashes (Text.join ['\\'] ss) = Text.join ['\\'] ss :=
  dropBackslashes_eq_self hs.isSpace.head

end AreSegments

namespace QualifiedName

variable {ss ts : List Text} {s : Text}

theorem ofText_join (hs : AreSegments ss) :
    ofText (Text.join ['\\'] ss) = ⟨Text.join ['\\'] ss⟩ := by
  rw [ofText, hs.dropBackslashes]

theorem join_segments (hs : AreSegments ss) (ht : AreSegments ts) :
    join (some (Text.join ['\\'] ss)) (Text.join ['\\'] ts) = ⟨Text.join ['\\'] (ss ++ ts)⟩ := by
  have hspace := hs.isSpace
  have hname : ofText (Text.join ['\\'] (ss ++ ts)) = ⟨Text.join ['\\'] (ss ++ ts)⟩ :=
    ofText_join (hs.append ht.plain)
  rw [Text.join_append _ hs.ne_nil ht.ne_nil] at hname ⊢
  rw [join.eq_def]
  split
  · contradiction
  · rename_i hnil
    exact absurd (Option.some.inj hnil) hspace.ne_nil
  · rename_i space _ hsome
    cases hsome
    rw [hspace.trim, ht.dropBackslashes, hname]

theorem short_segments (hs : '\\' ∉ s) : short ⟨Text.join ['\\'] (ss ++ [s])⟩ = s := by
  rw [short, lastSegment]
  by_cases hss : ss = []
  · rw [hss, List.nil_append, Text.join_singleton, Text.splitAtLast?_eq_none_iff.mpr hs]
  · rw [Text.join_concat _ hss, Text.splitAtLast?_eq_some_iff.mpr ⟨rfl, hs⟩]

theorem space?_segments (hss : ss ≠ []) (hs : '\\' ∉ s) :
    space? ⟨Text.join ['\\'] (ss ++ [s])⟩ = some (Text.join ['\\'] ss) := by
  rw [space?, Text.join_concat _ hss, Text.splitAtLast?_eq_some_iff.mpr ⟨rfl, hs⟩]
  rfl

theorem segments_join (hs : AreSegments ss) : segments ⟨Text.join ['\\'] ss⟩ = ss := hs.splitOn

end QualifiedName

/-- Inside any namespace a name has its own short name. -/
theorem QualifiedName.short_join (space? : Option Text) {name : Text} (h : '\\' ∉ name) :
    (join space? name).short = name := by
  have hplain := dropBackslashes_of_not_mem h
  have hwhole : lastSegment name = name := by
    rw [lastSegment, Text.splitAtLast?_eq_none_iff.mpr h]
  have hlast (u : Text) : lastSegment (dropBackslashes (u ++ '\\' :: name)) = name := by
    rw [dropBackslashes, List.dropWhile_append]
    split
    · rw [List.dropWhile_cons_of_pos (by rfl)]
      exact (congrArg lastSegment hplain).trans hwhole
    · rw [lastSegment, Text.splitAtLast?_eq_some_iff.mpr ⟨rfl, h⟩]
  rw [join.eq_def]
  split
  · exact (congrArg lastSegment hplain).trans hwhole
  · exact (congrArg lastSegment hplain).trans hwhole
  · rw [hplain]
    exact hlast _

theorem lastSegment_segments {ss : List Text} {s : Text} (hs : '\\' ∉ s) :
    lastSegment (Text.join ['\\'] (ss ++ [s])) = s := QualifiedName.short_segments hs

theorem QualifiedName.short_mem_segments (n : QualifiedName) : n.short ∈ n.segments := by
  obtain ⟨init, last, hsegments⟩ := (List.eq_nil_or_concat n.segments).resolve_left (List.splitOn_ne_nil _ _)
  rw [List.concat_eq_append] at hsegments
  have hlast : last ∈ n.segments := hsegments ▸ List.mem_append_right _ List.mem_cons_self
  have hshort : n.short = last := by
    rw [short, ← Text.join_splitOn '\\' n.text]
    change lastSegment (Text.join ['\\'] n.segments) = last
    rw [hsegments, lastSegment_segments (splitOn_not_mem '\\' n.text last hlast)]
  exact hshort ▸ hlast

theorem isIdentifier_plain {s : Text} (h : Identifier.isIdentifier s) : s ≠ [] ∧ '\\' ∉ s :=
  (AreSegments.of_forall (List.cons_ne_nil s []) (List.forall_mem_singleton.mpr h)).plain s
    List.mem_cons_self

namespace Lexer

/-- A name without backslashes is an identifier. -/
theorem IsName.isIdentifier {t : Text} (h : IsName t) (hmem : '\\' ∉ t) :
    Identifier.isIdentifier t := by
  have hchars : ∀ u : Text, '\\' ∉ u → nameLength u = u.length → u.all isNameChar := by
    intro u hu hlength
    induction u with
    | nil => rfl
    | cons c u ih =>
      obtain ⟨hc, hrest⟩ := nameLength_cons_eq_length_iff.mp hlength
      rw [List.mem_cons, not_or] at hu
      have hc : isNameChar c := hc.resolve_right fun hsign => hu.1 hsign.1.symm
      rw [List.all_cons, hc, ih hu.2 hrest]
      rfl
  obtain ⟨c, u, rfl⟩ := List.exists_cons_of_ne_nil h.ne_nil
  have hall := hchars (c :: u) hmem h.2
  rw [List.all_cons, Bool.and_eq_true] at hall
  rw [Identifier.isIdentifier, hall.2, Bool.and_true]
  simpa using h.1

theorem IsName.lastSegment {t : Text} (h : IsName t) : IsName (lastSegment t) := by
  unfold NamespaceMigration.lastSegment
  split
  · rename_i space short hsplit
    obtain ⟨rfl, -⟩ := Text.splitAtLast?_eq_some_iff.mp hsplit
    exact h.of_append.2
  · exact h

theorem IsName.splitOn {t : Text} (h : IsName t) : ∀ s ∈ t.splitOn '\\', Identifier.isIdentifier s := by
  have hjoin : ∀ ss : List Text, (∀ s ∈ ss, '\\' ∉ s) → IsName (Text.join ['\\'] ss) →
      ∀ s ∈ ss, Identifier.isIdentifier s := by
    intro ss hss hname
    induction ss with
    | nil => exact List.forall_mem_nil _
    | cons s ss ih =>
      rw [List.forall_mem_cons] at hss ⊢
      by_cases hnil : ss = []
      · subst hnil
        rw [Text.join_singleton] at hname
        exact ⟨hname.isIdentifier hss.1, List.forall_mem_nil _⟩
      · rw [Text.join_cons _ _ hnil] at hname
        exact ⟨hname.of_append.1.isIdentifier hss.1, ih hss.2 hname.of_append.2⟩
  exact hjoin _ (splitOn_not_mem '\\' t) (by rwa [Text.join_splitOn])

end Lexer
end NamespaceMigration
