import NamespaceMigration.Adaptation.Qualified
import NamespaceMigration.Proofs.Rewriting.Comments
import NamespaceMigration.Proofs.Statements.Names

/-! What is written for a name whose meaning is known: a name in full, or, in a comment, a word. -/
namespace NamespaceMigration

open Lexer (IsName IsWord)

/-- The namespace and the targets of a context are names. -/
structure NameContext.HasNames (c : NameContext) : Prop where
  space : ∀ space, c.space? = some space → IsName space
  target : ∀ kind, ∀ e ∈ c.aliases.get kind, IsName e.target.text

namespace SourceFile

theorem addImport_hasNames {c : NameContext} (hc : c.HasNames) {item : ImportItem}
    (h : IsName item.name) : (c.addImport item).HasNames := by
  rw [NameContext.addImport]
  cases hadd : c.addAlias? (.ofText item.name) item.shortName item.kind with
  | none => exact hc
  | some c' =>
    obtain ⟨-, rfl⟩ := NameContext.addAlias?_eq_some_iff.mp hadd
    refine ⟨hc.space, fun kind e he => ?_⟩
    rw [Option.getD_some, NameContext.get_modify_append, List.mem_append] at he
    rcases he with he | he
    · exact hc.target kind e he
    · split at he
      · rw [List.mem_singleton] at he
        subst he
        change IsName (dropBackslashes item.name)
        rwa [h.dropBackslashes]
      · cases he

theorem context_hasNames {t : Text} {s : Scope} (hs : s ∈ (parse t).scopes) :
    ((parse t).context s).HasNames := by
  have hempty : (NameContext.empty s.space?).HasNames := by
    refine ⟨fun space h => scopes_space hs (Option.filter_eq_some_iff.mp h).1, fun kind e he => ?_⟩
    simp [NameContext.empty] at he
  have himports : (((parse t).scopeImports s).foldl NameContext.addImport
      (.empty s.space?)).HasNames :=
    List.foldlRecOn _ _ hempty fun c hc item hitem =>
      addImport_hasNames hc (scopeImports_plain item hitem).name
  exact List.foldlRecOn _ _ himports fun c hc entry _ => ⟨hc.space, hc.target⟩

end SourceFile

theorem QualifiedName.join_isName {space? : Option Text} {name : Text}
    (hspace : ∀ s, space? = some s → IsName s) (hname : IsName name) :
    IsName (join space? name).text := by
  rw [join.eq_def]
  split
  · change IsName (dropBackslashes name)
    rwa [hname.dropBackslashes]
  · exact absurd rfl (hspace [] rfl).ne_nil
  · rename_i s _
    have hs := hspace s rfl
    change IsName (dropBackslashes (Text.trim (· == '\\') s ++ '\\' :: dropBackslashes name))
    rw [hs.isSpace.trim, hname.dropBackslashes, (hs.join hname).dropBackslashes]
    exact hs.join hname

theorem Text.splitAtFirst?_eq_some {c : Char} {t before after : Text}
    (h : splitAtFirst? c t = some (before, after)) : t = before ++ c :: after := by
  induction t generalizing before with
  | nil => cases h
  | cons d t ih =>
    rw [splitAtFirst?] at h
    split at h
    · rename_i hd
      cases h
      rw [hd]
      rfl
    · obtain ⟨⟨b, a⟩, hs, he⟩ := Option.map_eq_some_iff.mp h
      cases he
      rw [ih hs]
      rfl

theorem NameContext.findAlias?_mem {c : NameContext} {short : Text} {kind : SymbolKind} {e : AliasEntry}
    (h : c.findAlias? short kind = some e) : e ∈ c.aliases.get kind := List.mem_of_find?_eq_some h

/-- What a name means is a name. -/
theorem NameContext.resolve_isName {c : NameContext} (hc : c.HasNames) {written : Text}
    (hw : IsName written) {kind : SymbolKind} {n : QualifiedName}
    (h : c.resolve written kind = .resolved n) : IsName n.text := by
  rw [resolve.eq_def] at h
  split at h
  · exact absurd hw.isSpace.head (by simp)
  · split at h
    · rename_i first rest hsplit
      rw [Text.splitAtFirst?_eq_some hsplit] at hw
      split at h
      · cases h
        exact QualifiedName.join_isName hc.space hw.of_append.2
      · split at h
        · rename_i e he
          cases h
          refine QualifiedName.join_isName (fun s hs => ?_) hw.of_append.2
          cases hs
          exact hc.target .type e (findAlias?_mem he)
        · cases h
          rw [Text.splitAtFirst?_eq_some hsplit]
          exact QualifiedName.join_isName hc.space hw
    · split at h
      · rename_i e he
        cases h
        exact hc.target kind e (findAlias?_mem he)
      · split at h
        · cases h
          exact QualifiedName.join_isName hc.space hw
        · cases h

theorem QualifiedName.join_forall {P : Char → Prop} (hsign : P '\\') {space? : Option Text} {name : Text}
    (hspace : ∀ s, space? = some s → IsName s ∧ ∀ c ∈ s, P c) (hname : ∀ c ∈ name, P c) :
    ∀ c ∈ (join space? name).text, P c := by
  have hdrop : ∀ t : Text, (∀ c ∈ t, P c) → ∀ c ∈ dropBackslashes t, P c := fun t ht c hc =>
    ht c ((List.dropWhile_suffix _).subset hc)
  rw [join.eq_def]
  split
  · exact hdrop name hname
  · exact absurd rfl (hspace [] rfl).1.ne_nil
  · rename_i s _
    obtain ⟨hs, hchars⟩ := hspace s rfl
    rw [hs.isSpace.trim]
    refine hdrop _ (List.forall_mem_append.mpr ⟨hchars, ?_⟩)
    exact List.forall_mem_cons.mpr ⟨hsign, hdrop name hname⟩

/-- The characters of what a name means are those of the name and of names in the context. -/
theorem NameContext.resolve_forall {c : NameContext} (hc : c.HasNames) {P : Char → Prop}
    (hP : ∀ name, IsName name → ∀ d ∈ name, P d) {written : Text} (hw : ∀ d ∈ written, P d)
    (hsign : P '\\') {kind : SymbolKind} {n : QualifiedName}
    (h : c.resolve written kind = .resolved n) : ∀ d ∈ n.text, P d := by
  have hspace : ∀ s, c.space? = some s → IsName s ∧ ∀ d ∈ s, P d := fun s hs =>
    ⟨hc.space s hs, hP s (hc.space s hs)⟩
  rw [resolve.eq_def] at h
  split at h
  · rename_i name
    cases h
    exact fun d hd => hw d (List.mem_cons_of_mem _ ((List.dropWhile_suffix _).subset hd))
  · split at h
    · rename_i first rest hsplit
      have hrest : ∀ d ∈ rest, P d := fun d hd => hw d (by
        rw [Text.splitAtFirst?_eq_some hsplit]
        exact List.mem_append_right _ (List.mem_cons_of_mem _ hd))
      split at h
      · cases h
        exact QualifiedName.join_forall hsign hspace hrest
      · split at h
        · rename_i e he
          cases h
          refine QualifiedName.join_forall hsign (fun s hs => ?_) hrest
          cases hs
          have htarget := hc.target .type e (findAlias?_mem he)
          exact ⟨htarget, hP _ htarget⟩
        · cases h
          exact QualifiedName.join_forall hsign hspace hw
    · split at h
      · rename_i e he
        cases h
        exact hP _ (hc.target kind e (findAlias?_mem he))
      · split at h
        · cases h
          exact QualifiedName.join_forall hsign hspace hw
        · cases h

namespace NameContext

theorem qualify?_eq_some {c : NameContext} {written new : Text} {kind : SymbolKind}
    (h : c.qualify? written kind = some new) : isWrittenInFull written = false ∧
      ∃ n, c.resolve written kind = .resolved n ∧ new = n.written := by
  rw [qualify?] at h
  split at h
  · cases h
  · rename_i hfull
    refine ⟨by simpa using hfull, ?_⟩
    cases hr : c.resolve written kind with
    | resolved n =>
      rw [hr] at h
      cases h
      exact ⟨n, rfl, rfl⟩
    | fallback namespaced global =>
      rw [hr] at h
      cases h

theorem qualify?_isName {c : NameContext} (hc : c.HasNames) {written new : Text}
    (hw : isWrittenInFull written = false → IsName written) {kind : SymbolKind}
    (h : c.qualify? written kind = some new) : ∃ u, new = '\\' :: u ∧ IsName u := by
  obtain ⟨hfull, n, hn, rfl⟩ := qualify?_eq_some h
  exact ⟨n.text, rfl, resolve_isName hc (hw hfull) hn⟩

theorem qualify?_isWord {c : NameContext} (hc : c.HasNames) {written new : Text}
    (hw : IsWord written) {kind : SymbolKind} (h : c.qualify? written kind = some new) :
    IsWord new := by
  obtain ⟨-, n, hn, rfl⟩ := qualify?_eq_some h
  refine ⟨List.cons_ne_nil _ _, List.forall_mem_cons.mpr ⟨by decide, ?_⟩⟩
  exact resolve_forall hc (fun name h => h.isWord.2) hw.2 (by decide) hn

end NameContext
end NamespaceMigration
