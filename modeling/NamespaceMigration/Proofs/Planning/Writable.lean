import Mathlib.Data.List.TakeWhile
import NamespaceMigration.Proofs.Migration.Clearing
import NamespaceMigration.Proofs.Moving.Imports
import NamespaceMigration.Proofs.Planning.Components
import NamespaceMigration.Proofs.Planning.Index
import NamespaceMigration.Proofs.Planning.Legality
import NamespaceMigration.Proofs.Rendering.Sources

/-! New names as they are written. A legal new name with a namespace is read as one name. One without a namespace is a
new name of a type, and no keyword, since the old name of the type was none. -/
namespace NamespaceMigration

open Identifier (isIdentifier isSegment withSuffix)
open SourceFile (parse)

/-- The name of a type is a word. -/
def StatementKind.HasTypeWord : StatementKind → Prop
  | .classLike _ name _ => Lexer.IsWordOf name
  | _ => True

namespace Parser

variable {t : Text}

theorem declaration_typeWord (p : Nat) : (declaration (.ofText t) p).value.HasTypeWord := by
  rw [declaration]
  split
  · rename_i hclass
    obtain ⟨hident, first, hfirst, hword⟩ := classKeyword?_eq_some hclass
    refine Code.isWordOf_text hfirst ?_ hident
    rcases hword with hword | ⟨rfl, -⟩
    · have hplain : ∀ kind ∈ [TokenKind.kwClass, .kwInterface, .kwTrait], kind.makesNextIdent = false := by decide
      exact hplain first hword
    · rfl
  · split <;> trivial

theorem shape_typeWord (inner : Inner) (p : Nat) : (shape (.ofText t) inner p).value.1.HasTypeWord := by
  rw [shape]
  split <;> try trivial
  · change (useStatement (.ofText t) p).value.HasTypeWord
    rw [useStatement]
    split
    · trivial
    · dsimp only
      split <;> trivial
  · split
    · simp only [declareStatement]
      split_ifs <;> trivial
    · exact declaration_typeWord p
  · split
    · trivial
    · exact declaration_typeWord p
  · exact declaration_typeWord p

theorem namespaceStatement_typeWord (inner : Inner) (p : Nat) :
    (namespaceStatement (.ofText t) inner p).value.1.HasTypeWord := by
  obtain ⟨_, _, _, hspace, -⟩ := namespaceStatement_kind (c := .ofText t) inner p
  rw [hspace]
  trivial

end Parser

theorem SourceFile.outline_typeWords (t : Text) : ∀ l ∈ (parse t).outline, l.statement.kind.HasTypeWord :=
  outline_forall (P := fun s => s.kind.HasTypeWord) trivial
    (Parser.topStatements_everywhere (c := .ofText t) (fun _ => trivial) Parser.shape_typeWord
      fun inner p _ => Parser.namespaceStatement_typeWord inner p)

/-- The names of declared types are words. -/
theorem Located.isWordOf_declared {t : Text} {l : Located} (hl : l ∈ (parse t).outline) {kind : DeclarationKind}
    {names : List (DeclarationKind × QualifiedName)} (h : l.declared? = some (kind, names)) :
    ∀ entry ∈ names, entry.1.isType → Lexer.IsWordOf entry.2.short := by
  have hwords := SourceFile.outline_typeWords t l hl
  have hparts := Located.parts_isIdentifier hl
  rw [declared?] at h
  split at h
  · rename_i type name nameToken hkind
    rw [hkind] at hwords
    have hword : Lexer.IsWordOf name := hwords
    have hjoin : QualifiedName.join l.space? name = nameIn (spaceParts l.space?) name := by
      rw [← join_nameIn (fun s hs => isIdentifier_plain (hparts s hs)) ⟨hword.name.ne_nil, hword.single⟩,
        spaceOf_spaceParts]
    cases h
    refine List.forall_mem_singleton.mpr fun _ => ?_
    dsimp only
    rwa [hjoin, short_nameIn hword.single]
  · cases h
    exact List.forall_mem_singleton.mpr fun htype => absurd htype Bool.false_ne_true
  · cases h
    exact List.forall_mem_map.mpr fun _ _ htype => absurd htype Bool.false_ne_true
  · cases h

theorem FilePlan.isWordOf_type {c : PlanConfig} {path t : Text} {d : Decision} (h : d ∈ (ofText c path t).decisions)
    (hplain : d.isConditional = false) {k : Component} (hk : k ∈ d.components) (htype : k.kind.isType) :
    Lexer.IsWordOf k.old.short := by
  obtain ⟨l, hl, declaration, hat, rfl⟩ := mem_decisions h
  rcases SourceFile.declarationAt_cases hat with hconditional | ⟨names, hdeclared, heq⟩
  · rw [Decision.isConditional, SourceFile.decide, hconditional] at hplain
    cases hplain
  · have hcomponents := PlanConfig.components_declared hl hdeclared c
    rw [← heq] at hcomponents
    change k ∈ c.components declaration at hk
    rw [hcomponents] at hk
    obtain ⟨entry, hentry, rfl⟩ := List.mem_map.mp hk
    exact Located.isWordOf_declared hl hdeclared entry hentry htype

namespace Lexer

theorem isName_of_isIdentifier {s : Text} (h : isIdentifier s) : IsName s := by
  obtain ⟨c, t, rfl⟩ := List.exists_cons_of_ne_nil (isIdentifier_plain h).1
  have hchars := isNameChar_of_isIdentifier h
  rw [isIdentifier_cons_iff] at h
  refine ⟨by simpa using h.1, ?_⟩
  generalize c :: t = s at hchars
  induction s with
  | nil => rfl
  | cons c s ih =>
    rw [List.forall_mem_cons] at hchars
    exact nameLength_cons_eq_length_iff.mpr ⟨.inl hchars.1, ih hchars.2⟩

theorem isName_join {ss : List Text} (hne : ss ≠ []) (h : ∀ s ∈ ss, isIdentifier s) :
    IsName (Text.join ['\\'] ss) := by
  induction ss with
  | nil => exact absurd rfl hne
  | cons s ss ih =>
    rw [List.forall_mem_cons] at h
    by_cases hss : ss = []
    · rw [hss, Text.join_singleton]
      exact isName_of_isIdentifier h.1
    · rw [Text.join_cons _ _ hss]
      exact (isName_of_isIdentifier h.1).join (ih hss h.2)

end Lexer

/-- A legal name can be written if it is no keyword. -/
theorem isSpaceName_of_segments {n : QualifiedName} (h : ∀ s ∈ n.segments, isSegment s)
    (hplain : '\\' ∉ n.text → Word.keywordKind? n.text = none) : IsSpaceName n.text := by
  have hids : ∀ s ∈ n.segments, isIdentifier s := fun s hs => (Bool.and_eq_true_iff.mp (h s hs)).1
  have hjoin : Text.join ['\\'] n.segments = n.text := Text.join_splitOn '\\' n.text
  refine ⟨hjoin ▸ Lexer.isName_join (List.splitOn_ne_nil _ _) hids, ?_⟩
  rw [Lexer.nameKind]
  split
  · rename_i hmem
    right
    -- The first segment is not reserved.
    obtain ⟨s, ss, hsegments⟩ := List.exists_cons_of_ne_nil (List.splitOn_ne_nil '\\' n.text)
    change n.segments = s :: ss at hsegments
    rw [hsegments, List.forall_mem_cons] at h
    have hs : '\\' ∉ s := (isIdentifier_plain (Bool.and_eq_true_iff.mp h.1).1).2
    have hss : ss ≠ [] := by
      rintro rfl
      rw [hsegments, Text.join_singleton] at hjoin
      exact hs (hjoin ▸ hmem)
    have hfirst : n.text.takeWhile (· ≠ '\\') = s := by
      rw [← hjoin, hsegments, Text.join_cons _ _ hss, List.takeWhile_append_of_pos, List.takeWhile_cons_of_neg]
      · exact List.append_nil s
      · simp
      · exact fun c hc => by simpa using fun heq : c = '\\' => hs (heq ▸ hc)
    rw [hfirst, if_neg]
    intro hspace
    have hreserved : Word.isReserved s := by
      rw [Word.isReserved, beq_iff_eq.mp hspace]
      decide
    have hfree := (Bool.and_eq_true_iff.mp h.1).2
    rw [hreserved] at hfree
    cases hfree
  · rename_i hmem
    left
    rw [if_neg (by decide), hplain hmem]
    rfl

theorem mem_dropBackslashes {t : Text} {d : Char} (hd : d ∈ t) (hne : d ≠ '\\') : d ∈ dropBackslashes t := by
  rw [← List.takeWhile_append_dropWhile (p := (· == '\\')) (l := t), List.mem_append] at hd
  exact hd.resolve_left fun hmem => hne (by simpa using List.mem_takeWhile_imp hmem)

theorem mem_of_mem_lastSegment {name : Text} {d : Char} (h : d ∈ lastSegment name) : d ∈ name := by
  unfold lastSegment at h
  split at h
  · rename_i hsplit
    rw [(Text.splitAtLast?_eq_some_iff.mp hsplit).1]
    exact List.mem_append_right _ (List.mem_cons_of_mem _ h)
  · exact h

theorem Text.mem_trim {t : Text} {d : Char} (hd : d ∈ t) (hne : d ≠ '\\') : d ∈ trim (· == '\\') t := by
  have hstart : d ∈ trimStart (· == '\\') t := mem_dropBackslashes hd hne
  exact List.mem_reverse.mpr (mem_dropBackslashes (List.mem_reverse.mpr hstart) hne)

namespace QualifiedName

/-- A namespace that is more than backslashes is written in front of a name. -/
theorem mem_join {space name : Text} {d : Char} (hd : d ∈ space) (hne : d ≠ '\\') :
    '\\' ∈ (join (some space) name).text := by
  have hjoin : (join (some space) name).text =
      dropBackslashes (Text.trim (· == '\\') space ++ '\\' :: dropBackslashes name) := by
    rw [join.eq_def]
    split
    · contradiction
    · rename_i hnil
      rw [Option.some.inj hnil] at hd
      cases hd
    · rename_i hsome
      cases hsome
      rfl
  have hne : (dropBackslashes (Text.trim (· == '\\') space)).isEmpty = false :=
    List.isEmpty_eq_false_iff.mpr (List.ne_nil_of_mem (mem_dropBackslashes (Text.mem_trim hd hne) hne))
  rw [dropBackslashes] at hne
  rw [hjoin, dropBackslashes, List.dropWhile_append, hne, if_neg Bool.false_ne_true]
  simp

theorem text_join_of_backslashes {space name : Text} (h : ∀ d ∈ space, d = '\\') :
    (join (some space) name).text = dropBackslashes name := by
  have hnil : Text.trim (· == '\\') space = [] := by
    have hstart : Text.trimStart (· == '\\') space = [] :=
      List.dropWhile_eq_nil_iff.mpr fun d hd => beq_iff_eq.mpr (h d hd)
    rw [Text.trim, hstart]
    rfl
  rw [join.eq_def]
  split
  · rfl
  · rfl
  · rename_i hsome
    cases hsome
    rw [hnil]
    exact dropBackslashes_eq_self (head_dropBackslashes name)

theorem mem_join_name {space? : Option Text} {name : Text} {d : Char} (hd : d ∈ name) (hne : d ≠ '\\') :
    d ∈ (join space? name).text := by
  rw [join.eq_def]
  split
  · exact mem_dropBackslashes hd hne
  · exact mem_dropBackslashes hd hne
  · refine mem_dropBackslashes (List.mem_append_right _ (List.mem_cons_of_mem _ ?_)) hne
    exact mem_dropBackslashes hd hne

end QualifiedName

namespace PlanConfig

variable {c : PlanConfig}

/-- Without its lead a namespace is more than backslashes, or nothing if it is the lead. -/
theorem rest_cases (c : PlanConfig) {space : Text} (h : IsSpace space) :
    (if c.append then some space else c.withoutLead space).getD [] = [] ∧ c.lead = space ∨
      ∃ d ∈ (if c.append then some space else c.withoutLead space).getD [], d ≠ '\\' := by
  have hlast {init rest : Text} (hsplit : space = init ++ rest) (hrest : rest ≠ []) : ∃ d ∈ rest, d ≠ '\\' := by
    refine ⟨rest.getLast hrest, List.getLast_mem hrest, fun hd => h.last ?_⟩
    rw [hsplit, List.getLast?_append_of_ne_nil _ hrest, List.getLast?_eq_some_getLast hrest, hd]
  have hwhole : ∃ d ∈ space, d ≠ '\\' := hlast (List.nil_append _).symm h.ne_nil
  split
  · exact .inr hwhole
  rw [withoutLead]
  split
  · exact .inr hwhole
  · split
    · rename_i hdrop
      rw [Text.dropLead?_eq_some_iff, List.append_nil] at hdrop
      exact .inl ⟨rfl, hdrop.symm⟩
    · rename_i rest hdrop
      rw [Text.dropLead?_eq_some_iff] at hdrop
      have hrest : rest ≠ [] := by
        rintro rfl
        exact h.last (hdrop ▸ List.getLast?_concat)
      have hsplit : space = (c.lead ++ ['\\']) ++ rest := by rw [hdrop, List.append_assoc, List.singleton_append]
      exact .inr (hlast hsplit hrest)
    · exact .inr hwhole

theorem mem_sanitizeNamespace {name : Text} {d : Char} (hd : d ∈ name) (hne : d ≠ '\\') :
    d ∈ Identifier.sanitizeNamespace name := by
  rw [← Text.join_splitOn '\\' name] at hd
  obtain ⟨s, hs, hd⟩ := (Text.mem_join hd).resolve_left hne
  refine Text.mem_join_of_mem (List.mem_map_of_mem hs) ?_
  rw [withSuffix]
  split
  · exact List.mem_append_left _ hd
  · exact hd

/-- A namespace gets one that is more than backslashes, whatever the lead. -/
theorem exists_newSpace? {parts : List Text} (hparts : AreSegments parts) :
    ∃ space, c.newSpace? (some (Text.join ['\\'] parts)) = some space ∧ ∃ d ∈ space, d ≠ '\\' := by
  have hspace := hparts.isSpace
  generalize Text.join ['\\'] parts = space at hspace
  have hrest := c.rest_cases hspace
  rw [newSpace?, Option.bind_eq_bind, Option.bind_some]
  dsimp only
  generalize (if c.append then some space else c.withoutLead space).getD [] = rest at hrest ⊢
  obtain ⟨d, hd, hne⟩ : ∃ d ∈ (if rest.isEmpty then QualifiedName.ofText c.lead
      else QualifiedName.join (some c.lead) rest).text, d ≠ '\\' := by
    rcases hrest with ⟨rfl, hlead⟩ | ⟨d, hd, hne⟩
    · obtain ⟨d, u, rfl⟩ := List.exists_cons_of_ne_nil hspace.ne_nil
      have hne : d ≠ '\\' := by simpa using hspace.head
      exact ⟨d, mem_dropBackslashes (hlead ▸ List.mem_cons_self) hne, hne⟩
    · rw [if_neg (by simpa using List.ne_nil_of_mem hd)]
      exact ⟨d, QualifiedName.mem_join_name hd hne, hne⟩
  rw [if_neg (by simpa using List.ne_nil_of_mem hd)]
  exact ⟨_, rfl, d, mem_sanitizeNamespace hd hne, hne⟩

/-- What is no type of its own stays as it is or has a namespace. -/
theorem newName_eq_or_mem {kind : DeclarationKind} {conditional : Bool} (hkind : ¬(kind.isType ∧ conditional = false))
    {parts : List Text} {short : Text} (h : IsDeclared parts short) :
    c.newName kind (nameIn parts short) conditional = nameIn parts short ∨
      '\\' ∈ (c.newName kind (nameIn parts short) conditional).text := by
  have hshort := isIdentifier_plain h.short
  have hnew : c.newName kind (nameIn parts short) conditional = .join (c.newSpace? (spaceOf parts)) short := by
    rw [newName, if_neg (by simpa using hkind), space?_nameIn hshort.2, short_nameIn hshort.2]
  rw [hnew]
  by_cases hnil : parts = []
  · subst hnil
    left
    exact join_nameIn (List.forall_mem_nil _) hshort
  · right
    obtain ⟨space, hspace, d, hd, hne⟩ := exists_newSpace? (c := c) (.of_forall hnil h.parts)
    rw [spaceOf_of_ne_nil hnil, hspace]
    exact QualifiedName.mem_join hd hne

/-- The new name of a type has a namespace or is what is left of its short name. -/
theorem newTypeName_mem_or_eq (old : QualifiedName) : '\\' ∈ (c.newTypeName old).text ∨
    (c.newTypeName old).text =
      dropBackslashes (safeSegment (Text.capitalize (c.shortParts old.space? old.short).2)) := by
  rw [newTypeName]
  dsimp only
  rw [← shortParts]
  generalize (if (c.shortParts old.space? old.short).1.isEmpty then _ else _) = space
  by_cases hspace : ∃ d ∈ space, d ≠ '\\'
  · obtain ⟨d, hd, hne⟩ := hspace
    exact .inl (QualifiedName.mem_join hd hne)
  · right
    push Not at hspace
    have hlead : lastSegment space = [] := by
      rw [List.eq_nil_iff_forall_not_mem]
      intro d hd
      exact lastSegment_not_mem space (hspace d (mem_of_mem_lastSegment hd) ▸ hd)
    rw [QualifiedName.text_join_of_backslashes hspace, hlead]
    rfl

end PlanConfig

theorem Text.exists_of_head?_capitalize {d : Char} (h : IsSign d) {t : Text} (hhead : (capitalize t).head? = some d) :
    ∃ u, t = d :: u := by
  cases t with
  | nil => cases hhead
  | cons c u =>
    rw [capitalize, List.head?_append_of_ne_nil _ (upperChar_ne_nil c)] at hhead
    refine ⟨u, congrArg (· :: u) (not_not.mp fun hne => ?_)⟩
    exact h.not_mem_of_ne hne (fun d hd => mem_upperChar hd) (List.mem_of_head? hhead)

namespace Word

theorem isMagicConstant_of_keywordKind? {word : Text} {kind : TokenKind} (h : keywordKind? word = some kind)
    (hfree : isReserved word = false) : isMagicConstant word := by
  have hother : ∀ w ∈ otherKeywords, w ∈ reservedWords := by decide +kernel
  have hown : ∀ entry ∈ ownKinds, entry.1 ∈ reservedWords := by decide +kernel
  have hnot : word.toLowerAscii ∉ reservedWords := by simpa [isReserved] using hfree
  rw [keywordKind?] at h
  split_ifs at h with hmagic hkeyword
  · exact hmagic
  · exact absurd (hother _ (List.contains_iff_mem.mp hkeyword)) hnot
  · obtain ⟨before, after, heq, -⟩ := List.lookup_eq_some_iff.mp h
    exact absurd (hown _ (heq ▸ List.mem_append_right before List.mem_cons_self)) hnot

theorem isMagicConstant_append {lead word : Text} (h : isReserved word) : isMagicConstant (lead ++ word) = false := by
  have hends : ∀ w ∈ magicConstants, ∀ r ∈ reservedWords, r.isSuffixOf w = false := by decide +kernel
  rw [isMagicConstant, List.contains_eq_mem, decide_eq_false_iff_not, Text.toLowerAscii_append]
  intro hmem
  have := hends _ hmem _ (List.contains_iff_mem.mp h)
  rw [Bool.eq_false_iff] at this
  exact this (by simp)

end Word

namespace PlanConfig

variable {c : PlanConfig}

/-- What is left of the name of a type is no keyword. -/
theorem keywordKind?_lastPart {space? : Option Text} {short : Text} (hshort : Lexer.IsWordOf short) :
    Word.keywordKind? (safeSegment (Text.capitalize (c.shortParts space? short).2)) = none := by
  have hlast : (c.shortParts space? short).2 = short ∨ '_' ∉ (c.shortParts space? short).2 := by
    rcases c.shortParts_cases space? short with heq | ⟨pieces, last, heq, hcut⟩
    · exact .inl (congrArg Prod.snd heq)
    · obtain ⟨-, -, -, hmem, -⟩ := splitShort?_eq_some hcut
      exact .inr (congrArg Prod.snd heq ▸ hmem)
  generalize (c.shortParts space? short).2 = last at hlast ⊢
  cases hkind : Word.keywordKind? (safeSegment (Text.capitalize last)) with
  | none => rfl
  | some kind =>
    have hmagic := List.contains_iff_mem.mp
      (Word.isMagicConstant_of_keywordKind? hkind (isReserved_safeSegment _))
    rw [safeSegment, withSuffix] at hkind hmagic
    split at hmagic
    · -- No magic constant is a reserved word with its suffix.
      rename_i hreserved
      have hends : ∀ w ∈ Word.magicConstants, w.dropLast ∉ Word.reservedWords := by decide +kernel
      refine absurd (List.contains_iff_mem.mp hreserved) ?_
      have hend := hends _ hmagic
      rwa [Text.toLowerAscii_append, show Text.toLowerAscii ['_'] = ['_'] from rfl, List.dropLast_concat] at hend
    · -- All of them begin with an underscore, so nothing was cut off the short name, nor was it capitalized.
      rename_i hplain
      rw [if_neg hplain] at hkind
      have hheads : ∀ w ∈ Word.magicConstants, w.head? = some '_' := by decide +kernel
      have hhead := hheads _ hmagic
      rw [Text.toLowerAscii, List.head?_map, Option.map_eq_some_iff] at hhead
      obtain ⟨d, hd, hlower⟩ := hhead
      have hsign : d = '_' := by
        rcases toLower_eq_or_isAlpha d with hsame | halpha
        · exact hsame.symm.trans hlower
        · rw [hlower, isSign_underscore.alpha] at halpha
          cases halpha
      obtain ⟨t, rfl⟩ := Text.exists_of_head?_capitalize isSign_underscore (hsign ▸ hd)
      obtain rfl := hlast.resolve_right fun hmem => hmem List.mem_cons_self
      rw [Text.capitalize, isSign_underscore.upperChar, List.singleton_append, hshort.plain] at hkind
      cases hkind

/-- The new short name of a type is no keyword if it is legal. -/
theorem keywordKind?_newTypeName {old : QualifiedName} (hold : Lexer.IsWordOf old.short)
    (hfree : Word.isReserved (c.newTypeName old).short = false) :
    Word.keywordKind? (c.newTypeName old).short = none := by
  have hpart : (c.shortParts old.space? old.short).2 ≠ [] ∧ (c.shortParts old.space? old.short).2 ⊆ old.short :=
    last_subset hold.name.ne_nil
  have hplain := plain_capitalize hpart hold.single
  have hlast : Word.keywordKind? (safeSegment (Text.capitalize (c.shortParts old.space? old.short).2)) = none :=
    keywordKind?_lastPart hold
  rw [newTypeName] at hfree ⊢
  dsimp only at hfree ⊢
  rw [← shortParts] at hfree ⊢
  generalize (if (c.shortParts old.space? old.short).1.isEmpty then _ else _) = space at hfree ⊢
  generalize Text.capitalize (c.shortParts old.space? old.short).2 = last at *
  by_cases hlead : (lastSegment space).isEmpty
  · have hshort := QualifiedName.short_join (some space) (safeSegment_plain hplain).2
    rw [safeSegment] at hshort hlast
    rw [if_pos hlead, hshort]
    exact hlast
  rw [if_neg hlead] at hfree ⊢
  have hlead : lastSegment space ≠ [] ∧ '\\' ∉ lastSegment space := ⟨by simpa using hlead, lastSegment_not_mem _⟩
  rw [QualifiedName.short_join _ (withLead_plain hplain hlead).2] at hfree ⊢
  rw [Identifier.withLead] at hfree ⊢
  split at hfree
  · rename_i hreserved
    cases hkind : Word.keywordKind? (lastSegment space ++ last) with
    | none => rw [if_pos hreserved, hkind]
    | some kind =>
      have hmagic := Word.isMagicConstant_of_keywordKind? hkind hfree
      rw [Word.isMagicConstant_append hreserved] at hmagic
      cases hmagic
  · rename_i hplain
    rw [if_neg hplain]
    rwa [safeSegment, withSuffix, if_neg hplain] at hlast

end PlanConfig

/-- The new short name of a type with a file of its own is a word, if it is legal and another one. -/
theorem FilePlan.isWordOf_primary {c : PlanConfig} {path t : Text} {d : Decision}
    (h : d ∈ (ofText c path t).decisions) {k : Component} (hprimary : d.primary? = some k)
    (hne : k.old.short ≠ k.new.short) (hlegal : ∀ s ∈ k.new.segments, isSegment s) : Lexer.IsWordOf k.new.short := by
  rw [Decision.primary?] at hprimary
  split at hprimary
  swap
  · cases hprimary
  rename_i hexclusive
  obtain ⟨short, hshort, htype, -, hcomponents, -⟩ := exclusive_spec h hexclusive
  rw [hcomponents, List.head?_cons, Option.some.injEq] at hprimary
  subst hprimary
  have hplain : d.isConditional = false := by
    rw [Decision.isConditional, beq_eq_false_iff_ne]
    rintro heq
    rw [heq] at htype
    cases htype
  have hold := isWordOf_type h hplain (hcomponents ▸ List.mem_singleton.mpr rfl) htype
  rw [PlanConfig.planned] at hne hlegal hold ⊢
  dsimp only at hne hlegal hold ⊢
  split at hne
  · exact absurd rfl hne
  rename_i hignored
  rw [if_neg hignored] at hlegal ⊢
  have hlast := hlegal _ (QualifiedName.short_mem_segments _)
  rw [isSegment, Bool.and_eq_true, Bool.not_eq_true'] at hlast
  refine ⟨Lexer.isName_of_isIdentifier hlast.1, (isIdentifier_plain hlast.1).2, ?_⟩
  rw [PlanConfig.newName, if_pos ⟨htype, rfl⟩] at hlast ⊢
  exact PlanConfig.keywordKind?_newTypeName hold hlast.2

namespace RenameIndex

/-- An index of planned files: every entry is about a component of a decision about some text. -/
def IsPlanned (x : RenameIndex) : Prop := ∀ e ∈ x.entries, ∃ c path t, ∃ d ∈ (FilePlan.ofText c path t).decisions,
  ∃ k ∈ d.components, k.symbolKind = e.kind ∧ k.old = e.old ∧ k.new = e.new

/-- An index whose new names are legal. -/
def IsLegal (x : RenameIndex) : Prop := ∀ e ∈ x.entries, ∀ s ∈ e.new.segments, isSegment s

variable {x y : RenameIndex}

theorem IsPlanned.merge (hx : x.IsPlanned) (hy : y.IsPlanned) : (x.merge y).IsPlanned :=
  List.forall_mem_append.mpr ⟨hx, hy⟩

theorem isPlanned_ofFiles {files : List FilePlan}
    (h : ∀ file ∈ files, ∀ d ∈ file.decisions, ∃ c path t, d ∈ (FilePlan.ofText c path t).decisions) :
    (ofFiles files).IsPlanned := by
  intro e he
  obtain ⟨⟨file, i⟩, hfile, he⟩ := List.mem_flatMap.mp he
  obtain ⟨⟨d, j⟩, hd, he⟩ := List.mem_flatMap.mp he
  obtain ⟨k, hk, rfl⟩ := List.mem_map.mp he
  obtain ⟨c, path, t, hplanned⟩ := h file (List.fst_mem_of_mem_zipIdx hfile) d (List.fst_mem_of_mem_zipIdx hd)
  exact ⟨c, path, t, d, hplanned, k, hk, rfl, rfl, rfl⟩

theorem isPlanned_index (root : Text) (c : PlanConfig) (sources : List (Text × Bytes)) :
    (planSources root c sources).index.IsPlanned := by
  change (ofFiles (planSources root c sources).files).IsPlanned
  refine isPlanned_ofFiles fun file hfile d hd => ?_
  obtain ⟨path, t, hplanned⟩ := exists_ofText_of_planned hfile hd
  exact ⟨c, path, t, hplanned⟩

/-- New names of a plan that are legal can be written where they are imported. -/
theorem IsPlanned.isWritable (h : x.IsPlanned) (hlegal : x.IsLegal) : x.IsWritable := by
  intro e he hchanges
  obtain ⟨c, path, t, d, hd, k, hk, -, hold, hnew⟩ := h e he
  refine isSpaceName_of_segments (hlegal e he) fun hlone => ?_
  have hne : k.new ≠ k.old := by
    rw [hold, hnew]
    exact fun heq => by simp [IndexEntry.changes, heq] at hchanges
  obtain ⟨hplanned, hnames⟩ := FilePlan.component_spec hd hk
  cases hnames with
  | runtime _ _ _ hsame => exact absurd hsame hne
  | @declared short hdeclared hname =>
    have hshort := isIdentifier_plain hdeclared.short
    have hnewName : k.new = c.newName k.kind k.old d.isConditional := by
      have hnew := congrArg Component.new hplanned
      rw [PlanConfig.planned] at hnew
      dsimp only at hnew
      split at hnew
      · exact absurd hnew hne
      · exact hnew
    by_cases htype : k.kind.isType ∧ d.isConditional = false
    · have hword := FilePlan.isWordOf_type hd htype.2 hk htype.1
      rw [PlanConfig.newName, if_pos (by simpa using htype)] at hnewName
      rw [← hnew, hnewName] at hlone ⊢
      have htext := (c.newTypeName_mem_or_eq k.old).resolve_left hlone
      have hpart : (c.shortParts k.old.space? k.old.short).2 ≠ [] ∧
          (c.shortParts k.old.space? k.old.short).2 ⊆ k.old.short := PlanConfig.last_subset hword.name.ne_nil
      have hplain := safeSegment_plain (PlanConfig.plain_capitalize hpart hword.single)
      rw [dropBackslashes_of_not_mem hplain.2] at htext
      rw [htext]
      exact PlanConfig.keywordKind?_lastPart hword
    · rw [hname] at hnewName
      rcases PlanConfig.newName_eq_or_mem (c := c) htype hdeclared with hsame | hmem
      · exact absurd (hnewName.trans (hsame.trans hname.symm)) hne
      · rw [← hnewName, hnew] at hmem
        exact absurd hmem hlone

end RenameIndex
end NamespaceMigration
