import NamespaceMigration.Adaptation.Fragment
import NamespaceMigration.Proofs.Rendering.Fragments
import NamespaceMigration.Proofs.Rendering.Sources

/-! Fragments of source texts, and what comes of merging them. They are read back from the files that they
are written to if each of their statements stands alone. A statement that a tag ends does not. -/
namespace NamespaceMigration

open Lexer (nameKind)

namespace Fragment

/-- What the fragment of a text consists of. -/
theorem ofText_eq_ok {t : Text} {f : Fragment} (h : ofText t = .ok f) : ∃ s directives,
    (SourceFile.parse t).scopes = [s] ∧
      Directive.addAll [] ((SourceFile.parse t).root.children.flatMap Statement.laterDirectives) =
        (directives, none) ∧
      f = ⟨directives, s.space?,
        ((SourceFile.parse t).scopeImports s).map fun item => { item with groupLead? := none },
        s.bodyStatements.map fun statement => ((SourceFile.parse t).rangeWithDoc statement).of t⟩ := by
  rw [ofText, ofFile] at h
  split at h
  · rename_i s hscopes
    dsimp only at h
    split at h
    · cases h
    · rename_i directives hadd
      cases h
      exact ⟨s, directives, hscopes, hadd, rfl⟩
  · cases h

/-- A fragment whose directives have literals for values, whose imports have no keyword for a name and
whose statements stand alone. -/
structure IsRegular (f : Fragment) : Prop where
  directives : ∀ d ∈ f.directives, Lexer.isLiteral d.value
  imports : ∀ item ∈ f.imports,
    nameKind (some (ImportItem.wordBefore item.kind)) item.name = .ident ∨
      nameKind (some (ImportItem.wordBefore item.kind)) item.name = .nameQualified
  body : ∀ t ∈ f.body, IsSelfContained (Text.trimEnd isBlank t)

instance (f : Fragment) : Decidable f.IsRegular :=
  decidable_of_iff ((∀ d ∈ f.directives, Lexer.isLiteral d.value) ∧
      (∀ item ∈ f.imports, nameKind (some (ImportItem.wordBefore item.kind)) item.name = .ident ∨
        nameKind (some (ImportItem.wordBefore item.kind)) item.name = .nameQualified) ∧
      ∀ t ∈ f.body, IsSelfContained (Text.trimEnd isBlank t))
    ⟨fun h => ⟨h.1, h.2.1, h.2.2⟩, fun h => ⟨h.directives, h.imports, h.body⟩⟩

theorem directives_words {t : Text} :
    ∀ d ∈ (SourceFile.parse t).root.children.flatMap Statement.laterDirectives, d.HasWord := by
  intro d hd
  obtain ⟨s, hs, hd⟩ := List.mem_flatMap.mp hd
  rw [← SourceFile.outline_top] at hs
  obtain ⟨l, hl, rfl⟩ := List.mem_map.mp hs
  have hwords := SourceFile.outline_words t l (List.mem_of_mem_filter hl)
  rw [Statement.laterDirectives] at hd
  split at hd
  · rename_i hkind
    rw [hkind] at hwords
    exact hwords d hd
  · cases hd

theorem isWritable_ofText {t : Text} {f : Fragment} (h : ofText t = .ok f) (hregular : f.IsRegular) :
    f.IsWritable := by
  obtain ⟨s, directives, hscopes, hadd, rfl⟩ := ofText_eq_ok h
  refine ⟨fun d hd => ?_, Directive.addAll_once .nil hadd, fun name hname => ?_, fun item hitem => ?_,
    hregular.body⟩
  · have hword : d.HasWord := by
      rcases Directive.addAll_mem hadd d hd with hmem | hmem
      · cases hmem
      · exact directives_words d hmem
    exact ⟨hword.key, hword.lower, hregular.directives d hd⟩
  · obtain ⟨l, hl, _, _, hkind⟩ := SourceFile.exists_space (hscopes ▸ List.mem_singleton_self s) hname
    have hwords := SourceFile.outline_words t l hl
    rw [hkind] at hwords
    exact hwords
  · have hkind := hregular.imports item hitem
    obtain ⟨item, hmem, rfl⟩ := List.mem_map.mp hitem
    obtain ⟨l, hl, items, hitems, hmem⟩ := SourceFile.mem_scopeImports hmem
    have hwords := SourceFile.outline_words t l hl
    rw [hitems] at hwords
    exact ⟨(hwords item hmem).name, hkind, (hwords item hmem).short⟩

theorem IsWritable.merge {a b f : Fragment} (ha : a.IsWritable) (hb : b.IsWritable)
    (h : a.merge b = .ok f) : f.IsWritable := by
  obtain ⟨-, directives, hadd, rfl⟩ := merge_eq_ok h
  refine ⟨fun d hd => ?_, Directive.addAll_once ha.once hadd, ha.space, fun item hitem => ?_,
    List.forall_mem_append.mpr ⟨ha.body, hb.body⟩⟩
  · exact (Directive.addAll_mem hadd d hd).elim (ha.directives d) (hb.directives d)
  · exact (mem_foldl_addImport item hitem).elim (ha.imports item) (hb.imports item)

/-- Regular fragments of texts, and fragments that are merged from them. -/
inductive Collected : Fragment → Prop
  | ofText {t : Text} {f : Fragment} (h : ofText t = .ok f) (hregular : f.IsRegular) : Collected f
  | merge {a b f : Fragment} (ha : Collected a) (hb : Collected b) (h : a.merge b = .ok f) : Collected f

theorem Collected.isWritable {f : Fragment} (h : f.Collected) : f.IsWritable := by
  induction h with
  | ofText h hregular => exact isWritable_ofText h hregular
  | merge _ _ h ha hb => exact ha.merge hb h

/-- What is collected is read back from its file. -/
theorem Collected.ofText_render {f : Fragment} (h : f.Collected) : ∃ g,
    Fragment.ofText f.render = .ok g ∧ g.directives = f.directives ∧ g.space? = f.space? ∧
      g.imports.map ImportItem.sense = f.imports.map ImportItem.sense ∧
      g.body = f.body.map (Text.trimEnd isBlank) :=
  h.isWritable.exists_ofText_render

/-- Two files of a namespace, with an import that both have. -/
theorem Collected.ofText_render_two :
    let base : ImportItem := ⟨.type, "Vendor\\Base", none, 16, none⟩
    let run : ImportItem := ⟨.function, "Vendor\\go", some "run", 15, none⟩
    let first : Text := "class A extends \\Vendor\\Base \x7b\x7d"
    let second : Text := "/** Goes. */\nfunction f() \x7b return \\Vendor\\go(); \x7d"
    let a : Fragment := ⟨[⟨"strict_types", "1"⟩], some "Acme", [base], [first]⟩
    let b : Fragment := ⟨[], some "acme", [⟨.type, "Vendor\\Base", none, 8, none⟩, run], [second]⟩
    let f : Fragment := ⟨[⟨"strict_types", "1"⟩], some "Acme", [base, run], [first, second]⟩
    Fragment.ofText ("<?php\ndeclare(strict_types=1);\nnamespace Acme;\nuse Vendor\\Base;\n" ++ first) =
        .ok a ∧
      Fragment.ofText ("<?php\nnamespace acme;\nuse Vendor\\Base;\nuse function Vendor\\go as run;\n" ++
        second) = .ok b ∧
      a.merge b = .ok f ∧ ∃ g, Fragment.ofText f.render = .ok g ∧ g.directives = f.directives ∧
        g.space? = f.space? ∧ g.imports.map ImportItem.sense = f.imports.map ImportItem.sense ∧
        g.body = f.body.map (Text.trimEnd isBlank) := by
  intro base run first second a b f
  obtain ⟨ha, haregular⟩ :
      Fragment.ofText ("<?php\ndeclare(strict_types=1);\nnamespace Acme;\nuse Vendor\\Base;\n" ++ first) = .ok a ∧
        a.IsRegular := by decide +kernel
  obtain ⟨hb, hbregular⟩ :
      Fragment.ofText ("<?php\nnamespace acme;\nuse Vendor\\Base;\nuse function Vendor\\go as run;\n" ++
        second) = .ok b ∧ b.IsRegular := by decide +kernel
  have hmerge : a.merge b = .ok f := by decide +kernel
  exact ⟨ha, hb, hmerge, ofText_render (.merge (.ofText ha haregular) (.ofText hb hbregular) hmerge)⟩

/-- A statement that a tag ends does not stand alone, and what is written after it is no code. -/
example :
    let f : Fragment := ⟨[], none, [], ["const A = 1 ?>\n", "function f() \x7b\x7d"]⟩
    ¬ IsSelfContained (Text.trimEnd isBlank "const A = 1 ?>\n") ∧
      Fragment.ofText f.render =
        .ok ⟨[], none, [], ["const A = 1 ?>\n", "\nfunction f() \x7b\x7d\n"]⟩ := by
  decide +kernel

end Fragment
end NamespaceMigration
