import NamespaceMigration.Proofs.Json.Values
import NamespaceMigration.Proofs.Sealing.Roundtrip

/-! What is accepted as a plan: signed canonical documents and nothing else. Two of them that have one
signature are one document, or two messages of one authentication code. -/
namespace NamespaceMigration

open JsonValue (FloatFree)

theorem Nat.digitChar_inj_of_lt : ∀ m < 16, ∀ n < 16, Nat.digitChar m = Nat.digitChar n → m = n := by
  decide

theorem Bytes.toHex_injective : Function.Injective Bytes.toHex := by
  intro bytes
  induction bytes with
  | nil =>
    intro others h
    cases others with
    | nil => rfl
    | cons => cases h
  | cons b bytes ih =>
    intro others h
    cases others with
    | nil => cases h
    | cons b' others =>
      rw [toHex, toHex, List.flatMap_cons, List.flatMap_cons, List.cons_append, List.cons_append,
        List.cons_append, List.cons_append, List.nil_append, List.nil_append, List.cons.injEq,
        List.cons.injEq] at h
      obtain ⟨hhigh, hlow, hrest⟩ := h
      have hb := b.toNat_lt
      have hb' := b'.toNat_lt
      have hdiv := Nat.digitChar_inj_of_lt _ (by omega) _ (by omega) hhigh
      have hmod := Nat.digitChar_inj_of_lt _ (by omega) _ (by omega) hlow
      have hbyte : b = b' := UInt8.toNat_inj.mp (by omega)
      rw [hbyte, ih hrest]

namespace JsonValue

/-- What is signed of a value: its text without the signature. -/
def signedBody (v : JsonValue) : Bytes := Text.toUtf8 (v.withoutMember signatureKey).canonicalText

variable {v w : JsonValue} {key : Bytes}

theorem signedBody_eq (h : v.canonical = v) :
    v.signedBody = Text.toUtf8 (v.canonical.withoutMember signatureKey).print := by
  rw [signedBody, canonicalText, canonical_withoutMember h, h]

theorem signature_eq (h : v.canonical = v) :
    v.signature key = Bytes.toHex (Hmac.sha256 key v.signedBody) := by
  rw [signature, signedBody_eq h]

theorem member?_of_writtenSignature? {written : Text} (h : v.writtenSignature? = some written) :
    v.member? signatureKey = some (.string written) := by
  rw [writtenSignature?] at h
  split at h
  · rename_i hmember
    cases h
    exact hmember
  · cases h

theorem eq_of_signedBody (hv : JsonReader.IsReading JsonReader.maxDepth v)
    (hw : JsonReader.IsReading JsonReader.maxDepth w) (hfreeV : v.FloatFree) (hfreeW : w.FloatFree)
    (hbody : v.signedBody = w.signedBody) {written : Text}
    (hwrittenV : v.writtenSignature? = some written)
    (hwrittenW : w.writtenSignature? = some written) : v = w := by
  have hstorableV := (hv.2 hfreeV).withoutMember signatureKey
  have hstorableW := (hw.2 hfreeW).withoutMember signatureKey
  have hrest : v.withoutMember signatureKey = w.withoutMember signatureKey := by
    have hcanonical := JsonReader.print_injective hstorableV hstorableW (Text.toUtf8_injective hbody)
    rwa [canonical_withoutMember hv.1, canonical_withoutMember hw.1] at hcanonical
  rw [← withMember_withoutMember hv.1 (member?_of_writtenSignature? hwrittenV), hrest,
    withMember_withoutMember hw.1 (member?_of_writtenSignature? hwrittenW)]

end JsonValue

/-- The content is the text of the value, maybe with a line feed after it, and the value has its own
signature. -/
structure IsSealed (key content : Bytes) (v : JsonValue) : Prop where
  read : JsonReader.read content = .ok v
  written : v.writtenSignature? = some (Bytes.toHex (Hmac.sha256 key v.signedBody))
  text : content = Text.toUtf8 v.canonicalText ∨ content = Text.toUtf8 v.canonicalText ++ [10]

theorem dropNewline_cases (bytes : Bytes) :
    bytes = dropNewline bytes ∨ bytes = dropNewline bytes ++ [10] := by
  rw [dropNewline]
  split_ifs with h
  · exact Or.inr (List.dropLast_append_getLast? 10 h).symm
  · exact Or.inl rfl

namespace ProjectPlan

variable {key content : Bytes} {p : ProjectPlan}

theorem ofSealed_eq_ok (h : ofSealed key content = .ok p) : ∃ v q, IsSealed key content v ∧
    dropNewline content = Text.toUtf8 v.canonicalText ∧ ofJson v = .ok (dialect, q) ∧ p = q.reindex := by
  obtain ⟨v, hread, h⟩ := bind_eq_ok h
  have hread := mapError_eq_ok hread
  have hcanonical := (JsonReader.read_isReading hread).1
  split at h
  · rename_i written hwritten
    split at h
    · cases h
    · rename_i hgood
      rw [not_or, not_not, not_not, JsonValue.signature_eq hcanonical] at hgood
      obtain ⟨⟨found, q⟩, hplan, h⟩ := bind_eq_ok h
      dsimp only at h
      split at h
      · rename_i hdialect
        cases h
        subst hdialect
        refine ⟨v, q, ⟨hread, hgood.1 ▸ hwritten, ?_⟩, hgood.2.symm, mapError_eq_ok hplan, rfl⟩
        rw [hgood.2]
        exact dropNewline_cases content
      · cases h
  · cases h

/-- Whatever is accepted is a signed canonical document of the plan, whose index is made again from the files
that the document has. Two such documents without floats that have the same signature are the same up to a
line feed, or else their bodies differ and yet have one authentication code. -/
theorem ofSealed_canonical (key : Bytes) :
    (∀ content p, ofSealed key content = .ok p → ∃ v q, IsSealed key content v ∧
      ofJson v = .ok (dialect, q) ∧ p = { q with index := .ofFiles q.files }) ∧
    (∀ content content' p p' v v', ofSealed key content = .ok p → ofSealed key content' = .ok p' →
      JsonReader.read content = .ok v → JsonReader.read content' = .ok v' →
      v.FloatFree → v'.FloatFree → v.writtenSignature? = v'.writtenSignature? →
      dropNewline content = dropNewline content' ∨ (v.signedBody ≠ v'.signedBody ∧
        Hmac.sha256 key v.signedBody = Hmac.sha256 key v'.signedBody)) := by
  refine ⟨fun content p h => ?_, fun content content' p p' v v' h h' hread hread' hfree hfree'
    hwritten => ?_⟩
  · obtain ⟨v, q, hsealed, -, hplan, hindex⟩ := ofSealed_eq_ok h
    exact ⟨v, q, hsealed, hplan, hindex⟩
  · obtain ⟨w, _, hsealed, htext, -⟩ := ofSealed_eq_ok h
    obtain ⟨w', _, hsealed', htext', -⟩ := ofSealed_eq_ok h'
    obtain rfl : w = v := Except.ok.inj (hsealed.read.symm.trans hread)
    obtain rfl : w' = v' := Except.ok.inj (hsealed'.read.symm.trans hread')
    by_cases hbody : w.signedBody = w'.signedBody
    · left
      rw [htext, htext', JsonValue.eq_of_signedBody (JsonReader.read_isReading hread)
        (JsonReader.read_isReading hread') hfree hfree' hbody hsealed.written
        (hwritten ▸ hsealed.written)]
    · right
      rw [hsealed.written, hsealed'.written, Option.some.injEq] at hwritten
      exact ⟨hbody, Bytes.toHex_injective hwritten⟩

/-- A file that declares a class again. The plan has the first one, the function, and an error. -/
def repeatedFile : FilePlan :=
  .ofBytes (.ofLead "Acme") "a.php"
    (Text.toUtf8 "<?php\nclass A \x7b\x7d\nfunction f() \x7b\x7d\nclass A \x7b\x7d\n")

def repeatedPlan : ProjectPlan := .ofFiles "src" (.ofLead "Acme") [repeatedFile]

/-- The plan is accepted under its key with and without the line feed at the end. -/
theorem ofSealed_repeatedPlan :
    let v := repeatedPlan.toJson.signed defaultKey
    let text := Text.toUtf8 v.canonicalText
    ofSealed defaultKey (text ++ [10]) = .ok repeatedPlan ∧ ofSealed defaultKey text = .ok repeatedPlan ∧
    (∃ w q, IsSealed defaultKey (text ++ [10]) w ∧ ofJson w = .ok (dialect, q) ∧
      repeatedPlan = { q with index := .ofFiles q.files }) ∧
    (dropNewline (text ++ [10]) = dropNewline text ∨ (v.signedBody ≠ v.signedBody ∧
      Hmac.sha256 defaultKey v.signedBody = Hmac.sha256 defaultKey v.signedBody)) := by
  intro v text
  have hplanned : ∀ file ∈ [repeatedFile], file.IsPlanned :=
    List.forall_mem_singleton.mpr ⟨_, _, _, by decide, rfl⟩
  have hfits : repeatedPlan.Fits := fits_ofFiles hplanned "src" (.ofLead "Acme")
  have hline : ([10] : Bytes) ∈ [[], [10]] := by simp
  have hlong : ofSealed defaultKey (text ++ [10]) = .ok repeatedPlan :=
    ofSealed_signed hfits defaultKey hline
  have hshort : ofSealed defaultKey text = .ok repeatedPlan := by
    have hshort := ofSealed_signed hfits defaultKey List.mem_cons_self
    rwa [List.append_nil] at hshort
  have hreadLong := read_signed hfits defaultKey hline
  have hreadShort := read_signed hfits defaultKey List.mem_cons_self
  rw [List.append_nil] at hreadShort
  have hfree := (storable_signed hfits defaultKey).floatFree
  exact ⟨hlong, hshort, (ofSealed_canonical defaultKey).1 _ _ hlong,
    (ofSealed_canonical defaultKey).2 _ _ _ _ _ _ hlong hshort hreadLong hreadShort hfree hfree rfl⟩

end ProjectPlan
end NamespaceMigration
