import NamespaceMigration.Plan.Signature
import NamespaceMigration.Proofs.Json.Reading
import NamespaceMigration.Proofs.Json.Storable
import NamespaceMigration.Proofs.Sealing.Bounds
import NamespaceMigration.Proofs.Sealing.Records

/-! A plan whose numbers fit is read back from the file that it is sealed in. -/
namespace NamespaceMigration

section Stored

open JsonValue (Storable)

namespace JsonValue

variable {α : Type} {encode : α → JsonValue} {depth : Nat}

theorem storable_list {l : List α} (h : ∀ a ∈ l, (encode a).Storable depth) :
    (JsonValue.array (l.map encode)).Storable (depth + 1) :=
  .array (List.forall_mem_map.mpr h)

theorem storable_ofOption {o : Option α} (h : ∀ a ∈ o, (encode a).Storable depth) :
    (ofOption encode o).Storable depth := by
  cases o with
  | none => exact .null
  | some a => exact h a rfl

theorem storable_word {n : Nat} (h : n < Nat.pow 2 wordBits) : (JsonValue.nat n).Storable depth :=
  .nat h

theorem storable_offset {n : Nat} (h : n < Nat.pow 2 offsetBits) :
    (JsonValue.nat n).Storable depth :=
  .nat (Nat.lt_trans h (by decide))

end JsonValue

open JsonValue

variable {depth : Nat}

theorem DeclarationKind.storable_toJson (kind : DeclarationKind) : kind.toJson.Storable depth := by
  cases kind <;> exact .string _

theorem Component.storable_toJson (c : Component) : c.toJson.Storable 1 := by
  refine .object ?_
  simp only [List.forall_mem_cons]
  exact ⟨c.kind.storable_toJson, .string _, .string _, List.forall_mem_nil _⟩

theorem Directive.storable_toJson (d : Directive) : d.toJson.Storable 1 := by
  refine .object ?_
  simp only [List.forall_mem_cons]
  exact ⟨.string _, .string _, List.forall_mem_nil _⟩

theorem SourceSpan.storable_toJson {s : SourceSpan} (h : s.Fits) : s.toJson.Storable 1 := by
  refine .object ?_
  simp only [List.forall_mem_cons]
  exact ⟨storable_word h.startLine, storable_word h.endLine, storable_offset h.startOffset,
    storable_offset h.endOffset, List.forall_mem_nil _⟩

theorem TokenSpan.storable_toJson {s : TokenSpan} (h : s.Fits) : s.toJson.Storable 1 := by
  refine .object ?_
  simp only [List.forall_mem_cons]
  exact ⟨storable_word h.first, storable_word h.stop, List.forall_mem_nil _⟩

theorem Decision.storable_toJson {d : Decision} (h : d.Fits) : d.toJson.Storable 3 := by
  have hspaceTokens : (ofOption TokenSpan.toJson d.spaceTokens?).Storable 1 :=
    storable_ofOption fun s hs => TokenSpan.storable_toJson (h.spaceTokens s hs)
  have hspace (o : Option Text) : (ofOption .string o).Storable 2 :=
    storable_ofOption fun _ _ => .string _
  refine .object ?_
  simp only [List.forall_mem_cons]
  exact ⟨d.kind.storable_toJson, (SourceSpan.storable_toJson h.span).mono (by decide),
    (TokenSpan.storable_toJson h.tokens).mono (by decide), hspaceTokens.mono (by decide),
    hspace _, hspace _, storable_list fun c _ => c.storable_toJson,
    storable_list fun d _ => d.storable_toJson, .string _, .bool _, .bool _, .bool _, .string _,
    List.forall_mem_nil _⟩

theorem PlanError.storable_toJson {e : PlanError} (h : e.Fits) : e.toJson.Storable 2 := by
  refine .object ?_
  simp only [List.forall_mem_cons]
  exact ⟨.string _, .string _,
    storable_ofOption fun s hs => SourceSpan.storable_toJson (h s hs), List.forall_mem_nil _⟩

theorem FilePlan.storable_toJson {p : FilePlan} (h : p.Fits) : p.toJson.Storable 5 := by
  have herrors : (JsonValue.array (p.errors.map PlanError.toJson)).Storable 3 :=
    storable_list fun e he => PlanError.storable_toJson (h.errors e he)
  refine .object ?_
  simp only [List.forall_mem_cons]
  exact ⟨.string _, .string _, .bool _,
    storable_list fun d hd => Decision.storable_toJson (h.decisions d hd),
    herrors.mono (by decide), List.forall_mem_nil _⟩

theorem ProjectPlan.storable_toJson {p : ProjectPlan} (h : p.Fits) : p.toJson.Storable 7 := by
  refine .object ?_
  simp only [List.forall_mem_cons]
  exact ⟨.string _, .string _, .string _, .string _,
    storable_list fun file hfile => FilePlan.storable_toJson (h file hfile), List.forall_mem_nil _⟩

end Stored

open JsonValue (Storable)

namespace JsonValue

variable {v : JsonValue} {key : Bytes}

/-- The value that is written in a sealed file. -/
def signed (v : JsonValue) (key : Bytes) : JsonValue :=
  v.canonical.withMember signatureKey (.string (v.signature key))

theorem sealed_eq (v : JsonValue) (key : Bytes) : v.sealed key = (v.signed key).print ++ ['\n'] := rfl

theorem signed_object (members : List (Text × JsonValue)) (key : Bytes) :
    ∃ others, (JsonValue.object members).signed key = .object others := by
  rw [signed, canonical]
  exact ⟨_, rfl⟩

theorem canonical_signed {depth : Nat} (h : v.Storable depth) :
    (v.signed key).canonical = v.signed key :=
  canonical_withMember h.canonical_canonical rfl

theorem storable_signed {depth : Nat} (h : v.Storable (depth + 1)) :
    (v.signed key).Storable (depth + 1) :=
  h.canonical.withMember (.string _)

theorem signature_signed {depth : Nat} (h : v.Storable depth) :
    (v.signed key).signature key = v.signature key := by
  rw [signature, canonical_signed h, signed, withoutMember_withMember, signature]

theorem writtenSignature?_signed (members : List (Text × JsonValue)) (key : Bytes) :
    ((JsonValue.object members).signed key).writtenSignature? =
      some ((JsonValue.object members).signature key) := by
  have hmember : ((JsonValue.object members).signed key).member? signatureKey =
      some (.string ((JsonValue.object members).signature key)) := by
    rw [signed, canonical]
    exact (lookup_insert signatureKey).trans (if_pos rfl)
  rw [writtenSignature?, hmember]

end JsonValue

theorem dropNewline_append (bytes : Bytes) : dropNewline (bytes ++ [10]) = bytes := by
  rw [dropNewline, if_pos List.getLast?_concat, List.dropLast_concat]

theorem JsonValue.dropNewline_object (members : List (Text × JsonValue)) :
    dropNewline (Text.toUtf8 (JsonValue.object members).print) =
      Text.toUtf8 (JsonValue.object members).print := by
  rw [print, Text.toUtf8_append, dropNewline, if_neg]
  intro hlast
  cases List.getLast?_concat.symm.trans hlast

namespace ProjectPlan

variable {p : ProjectPlan}

theorem storable_signed (h : p.Fits) (key : Bytes) : (p.toJson.signed key).Storable JsonReader.maxDepth :=
  (JsonValue.storable_signed (storable_toJson h)).mono (by decide)

theorem canonicalText_signed (h : p.Fits) (key : Bytes) :
    (p.toJson.signed key).canonicalText = (p.toJson.signed key).print := by
  rw [JsonValue.canonicalText, JsonValue.canonical_signed (storable_toJson h)]

theorem sealed_eq (h : p.Fits) (key : Bytes) :
    p.sealed key = Text.toUtf8 (p.toJson.signed key).canonicalText ++ [10] := by
  rw [sealed, JsonValue.sealed_eq, Text.toUtf8_append, canonicalText_signed h key]
  rfl

theorem read_signed (h : p.Fits) (key : Bytes) {blanks : Bytes} (hblanks : blanks ∈ [[], [10]]) :
    JsonReader.read (Text.toUtf8 (p.toJson.signed key).canonicalText ++ blanks) =
      .ok (p.toJson.signed key) := by
  have hcanonical : (p.toJson.signed key).canonical = p.toJson.signed key :=
    JsonValue.canonical_signed (storable_toJson h)
  have hends : JsonReader.skipSpace blanks = [] ∧ JsonReader.EndsNumber blanks := by
    simp only [List.mem_cons, List.not_mem_nil, or_false] at hblanks
    rcases hblanks with rfl | rfl
    · exact ⟨rfl, JsonReader.endsNumber_nil⟩
    · exact ⟨rfl, JsonReader.endsNumber_code (c := '\n') (by decide) []⟩
  have hread := JsonReader.read_canonicalText (storable_signed h key) hends.1 hends.2
  rw [hcanonical] at hread
  rw [canonicalText_signed h key]
  exact hread

theorem dropNewline_signed (h : p.Fits) (key : Bytes) {blanks : Bytes} (hblanks : blanks ∈ [[], [10]]) :
    dropNewline (Text.toUtf8 (p.toJson.signed key).canonicalText ++ blanks) =
      Text.toUtf8 (p.toJson.signed key).canonicalText := by
  simp only [List.mem_cons, List.not_mem_nil, or_false] at hblanks
  rcases hblanks with rfl | rfl
  · obtain ⟨members, hmembers⟩ := JsonValue.signed_object p.fields key
    rw [List.append_nil, canonicalText_signed h key, toJson_eq, hmembers]
    exact JsonValue.dropNewline_object members
  · exact dropNewline_append _

theorem ofJson_signed (h : p.Fits) (key : Bytes) :
    ofJson (p.toJson.signed key) = .ok (dialect, { p with index := .empty }) := by
  obtain ⟨members, hmembers, hhas⟩ := JsonValue.canonical_object (nodup_fields p)
  rw [toJson_eq, JsonValue.signed, hmembers]
  exact ofJson_of_has h (hhas.insert rfl _)

theorem ofSealed_signed (h : p.Fits) (key : Bytes) {blanks : Bytes} (hblanks : blanks ∈ [[], [10]]) :
    ofSealed key (Text.toUtf8 (p.toJson.signed key).canonicalText ++ blanks) = .ok p.reindex := by
  have hstorable := storable_toJson h
  have hwritten : (p.toJson.signed key).writtenSignature? = some (p.toJson.signature key) :=
    JsonValue.writtenSignature?_signed p.fields key
  have hgood : ¬(p.toJson.signature key ≠ (p.toJson.signed key).signature key ∨
      Text.toUtf8 (p.toJson.signed key).canonicalText ≠
        dropNewline (Text.toUtf8 (p.toJson.signed key).canonicalText ++ blanks)) := by
    rw [JsonValue.signature_signed hstorable, dropNewline_signed h key hblanks]
    simp
  rw [ofSealed, read_signed h key hblanks, Except.mapError, ok_bind, hwritten]
  dsimp only
  rw [if_neg hgood, ofJson_signed h, Except.mapError, ok_bind]
  exact if_pos rfl

theorem ofSealed_sealed (h : p.Fits) (key : Bytes) : ofSealed key (p.sealed key) = .ok p.reindex := by
  rw [sealed_eq h]
  exact ofSealed_signed h key (by simp)

/-- The plan of any files comes back from the file that it is sealed in, and with it the index. -/
theorem ofSealed_planned {files : List FilePlan} (h : ∀ file ∈ files, file.IsPlanned)
    (sourceRoot : Text) (c : PlanConfig) (key : Bytes) :
    let p := ofFiles sourceRoot c files
    ∃ q, ofSealed key (p.sealed key) = .ok q ∧ q = p ∧ q.index = p.index :=
  ⟨_, ofSealed_sealed (fits_ofFiles h sourceRoot c) key, rfl, rfl⟩

/-- The plan of a file with a quote, a backslash, a line feed and other letters in its path and its
text. -/
def accentedFile : FilePlan :=
  .ofBytes (.ofLead "Acme") "a\x22\\\n\u00e9.php"
    (Text.toUtf8 "<?php\nclass \u00c9t\u00e9 \x7b\x7d\necho '\x22\\';\n")

theorem ofSealed_accentedFile :
    let p := ofFiles "src" (.ofLead "Acme") [accentedFile]
    (∀ file ∈ [accentedFile], file.IsPlanned) ∧
      ∃ q, ofSealed [1, 2] (p.sealed [1, 2]) = .ok q ∧ q = p ∧ q.index = p.index := by
  have hplanned : ∀ file ∈ [accentedFile], file.IsPlanned :=
    List.forall_mem_singleton.mpr ⟨_, _, _, by decide, rfl⟩
  exact ⟨hplanned, ofSealed_planned hplanned "src" (.ofLead "Acme") [1, 2]⟩

end ProjectPlan
end NamespaceMigration
