import NamespaceMigration.Plan.Document
import NamespaceMigration.Proofs.Fallible
import NamespaceMigration.Proofs.Json.Canonical

/-! Records read back from their JSON forms. Sorting their members changes nothing, and neither does
a member that they do not know. -/
namespace NamespaceMigration
namespace JsonValue

/-- The members of a record are there, in canonical form. -/
def Members.Has (members fields : Members) : Prop :=
  ∀ key v, fields.lookup key = some v → members.lookup key = some v.canonical

section Members

variable {fields members : Members} {α : Type} {decode : JsonValue → Except DecodeError α}

theorem canonical_object (h : (fields.map (·.1)).Nodup) :
    ∃ members : Members, (JsonValue.object fields).canonical = .object members ∧
      members.Has fields := by
  refine ⟨canonicalMembers fields [], by rw [canonical], fun key v hlookup => ?_⟩
  rw [lookup_canonicalMembers h, hlookup]
  rfl

theorem Members.Has.insert (h : members.Has fields) {key : Text} (hkey : fields.lookup key = none)
    (value : JsonValue) : Members.Has (insert key value members) fields := by
  intro k v hlookup
  have hne : k ≠ key := by
    rintro rfl
    rw [hkey] at hlookup
    cases hlookup
  rw [lookup_insert, if_neg hne]
  exact h k v hlookup

theorem Members.Has.get? (h : members.Has fields) (key : Text) {v : JsonValue} {a : α}
    (hlookup : fields.lookup key = some v) (hdecode : decode v.canonical = .ok a) :
    members.get? key decode = .ok (some a) := by
  rw [Members.get?, h key v hlookup]
  dsimp only
  rw [hdecode]
  rfl

end Members

section Values

variable {α : Type} {encode : α → JsonValue} {decode : JsonValue → Except DecodeError α}

theorem asNat_nat {bits n : Nat} (expected : Text) (h : n < Nat.pow 2 bits) :
    asNat bits expected (JsonValue.nat n).canonical = .ok n := by
  change asNat bits expected (.number (.int n)) = .ok n
  rw [asNat, if_pos ⟨Int.natCast_nonneg n, h⟩]
  rfl

theorem asList_map {l : List α} (h : ∀ a ∈ l, decode (encode a).canonical = .ok a) :
    asList decode (JsonValue.array (l.map encode)).canonical = .ok l := by
  rw [canonical, canonicalItems_eq_map, asList, List.map_map]
  induction l with
  | nil => rfl
  | cons a l ih =>
    obtain ⟨ha, hl⟩ := List.forall_mem_cons.mp h
    rw [List.map_cons, List.mapM_cons, Function.comp_apply, ha, ok_bind, ih hl]
    rfl

theorem asOption_ofOption {o : Option α} (h : ∀ a ∈ o, decode (encode a).canonical = .ok a)
    (hnull : ∀ a, (encode a).canonical ≠ .null) :
    asOption decode (ofOption encode o).canonical = .ok o := by
  cases o with
  | none => rfl
  | some a =>
    have hsome : asOption decode (encode a).canonical = (decode (encode a).canonical).map some := by
      cases hv : (encode a).canonical with
      | null => exact absurd hv (hnull a)
      | _ => rfl
    rw [ofOption, hsome, h a rfl]
    rfl

end Values
end JsonValue

open JsonValue

theorem DeclarationKind.ofJson_toJson (kind : DeclarationKind) :
    DeclarationKind.ofJson kind.toJson.canonical = .ok kind := by
  cases kind with
  | classLike kind => cases kind <;> rfl
  | _ => rfl

theorem PlanErrorKind.asWord_name (kind : PlanErrorKind) :
    asWord PlanErrorKind.words (JsonValue.string kind.name).canonical = .ok kind := by
  cases kind <;> rfl

theorem Component.ofJson_toJson (c : Component) :
    Component.ofJson c.toJson.canonical = .ok c := by
  have hkeys : (["kind", "original", "new"] : List Text).Nodup := by decide
  obtain ⟨members, hmembers, h⟩ : ∃ members : Members, c.toJson.canonical = .object members ∧
      members.Has _ := canonical_object hkeys
  rw [hmembers, ofJson, asMembers, ok_bind,
    h.get? "kind" rfl (DeclarationKind.ofJson_toJson c.kind), ok_bind,
    h.get? "new" rfl (rfl : QualifiedName.ofJson c.new.toJson.canonical = _), ok_bind,
    h.get? "original" rfl (rfl : QualifiedName.ofJson c.old.toJson.canonical = _), ok_bind]
  rfl

theorem Directive.ofJson_toJson (d : Directive) :
    Directive.ofJson d.toJson.canonical = .ok d := by
  have hkeys : (["key", "value"] : List Text).Nodup := by decide
  obtain ⟨members, hmembers, h⟩ : ∃ members : Members, d.toJson.canonical = .object members ∧
      members.Has _ := canonical_object hkeys
  rw [hmembers, ofJson, asMembers, ok_bind, h.get? "key" rfl (rfl : asText _ = _), ok_bind,
    h.get? "value" rfl (rfl : asText _ = _), ok_bind]
  rfl

/-- The numbers of a span have the bits that they are stored in. -/
structure SourceSpan.Fits (s : SourceSpan) : Prop where
  startLine : s.startLine < Nat.pow 2 wordBits
  endLine : s.endLine < Nat.pow 2 wordBits
  startOffset : s.startOffset < Nat.pow 2 offsetBits
  endOffset : s.endOffset < Nat.pow 2 offsetBits

theorem SourceSpan.ofJson_toJson {s : SourceSpan} (hfits : s.Fits) :
    SourceSpan.ofJson s.toJson.canonical = .ok s := by
  have hkeys : (["start_line", "end_line", "start_offset", "end_offset"] : List Text).Nodup := by
    decide
  obtain ⟨members, hmembers, h⟩ : ∃ members : Members, s.toJson.canonical = .object members ∧
      members.Has _ := canonical_object hkeys
  rw [hmembers, ofJson, asMembers, ok_bind,
    h.get? "end_line" rfl (asNat_nat "usize" hfits.endLine), ok_bind,
    h.get? "end_offset" rfl (asNat_nat "u32" hfits.endOffset), ok_bind,
    h.get? "start_line" rfl (asNat_nat "usize" hfits.startLine), ok_bind,
    h.get? "start_offset" rfl (asNat_nat "u32" hfits.startOffset), ok_bind]
  rfl

structure TokenSpan.Fits (s : TokenSpan) : Prop where
  first : s.first < Nat.pow 2 wordBits
  stop : s.stop < Nat.pow 2 wordBits

theorem TokenSpan.ofJson_toJson {s : TokenSpan} (hfits : s.Fits) :
    TokenSpan.ofJson s.toJson.canonical = .ok s := by
  have hkeys : (["first", "end"] : List Text).Nodup := by decide
  obtain ⟨members, hmembers, h⟩ : ∃ members : Members, s.toJson.canonical = .object members ∧
      members.Has _ := canonical_object hkeys
  rw [hmembers, ofJson, asMembers, ok_bind, h.get? "end" rfl (asNat_nat "usize" hfits.stop), ok_bind,
    h.get? "first" rfl (asNat_nat "usize" hfits.first), ok_bind]
  rfl

structure Decision.Fits (d : Decision) : Prop where
  span : d.span.Fits
  tokens : d.tokens.Fits
  spaceTokens : ∀ s ∈ d.spaceTokens?, s.Fits

theorem Decision.ofJson_toJson {d : Decision} (hfits : d.Fits) :
    Decision.ofJson d.toJson.canonical = .ok d := by
  have hkeys : Decision.keys.Nodup := by decide
  obtain ⟨members, hmembers, h⟩ : ∃ members : Members, d.toJson.canonical = .object members ∧
      members.Has _ := canonical_object hkeys
  have hcomponents : asList Component.ofJson _ = .ok d.components :=
    asList_map fun c _ => Component.ofJson_toJson c
  have hdirectives : asList Directive.ofJson _ = .ok d.directives :=
    asList_map fun d _ => Directive.ofJson_toJson d
  have hspaceTokens : asOption TokenSpan.ofJson _ = .ok d.spaceTokens? :=
    asOption_ofOption (fun s hs => TokenSpan.ofJson_toJson (hfits.spaceTokens s hs))
      fun s => by rw [TokenSpan.toJson, canonical]; exact JsonValue.noConfusion
  have hspace (o : Option Text) : asOption asText (ofOption .string o).canonical = .ok o :=
    asOption_ofOption (fun _ _ => rfl) fun s => by rw [canonical]; exact JsonValue.noConfusion
  rw [hmembers, ofJson, asMembers, ok_bind, h.get? "components" rfl hcomponents, ok_bind,
    h.get? "directives" rfl hdirectives, ok_bind,
    h.get? "exclusive" rfl (rfl : asBool _ = _), ok_bind,
    h.get? "ignored" rfl (rfl : asBool _ = _), ok_bind,
    h.get? "kind" rfl (DeclarationKind.ofJson_toJson d.kind), ok_bind,
    h.get? "namespace_tokens" rfl hspaceTokens, ok_bind,
    h.get? "new_namespace" rfl (hspace d.newSpace?), ok_bind,
    h.get? "original_namespace" rfl (hspace d.oldSpace?), ok_bind,
    h.get? "risky" rfl (rfl : asBool _ = _), ok_bind,
    h.get? "span" rfl (SourceSpan.ofJson_toJson hfits.span), ok_bind,
    h.get? "summary" rfl (rfl : asText _ = _), ok_bind,
    h.get? "target" rfl (rfl : asText _ = _), ok_bind,
    h.get? "tokens" rfl (TokenSpan.ofJson_toJson hfits.tokens), ok_bind]
  rfl

def PlanError.Fits (e : PlanError) : Prop := ∀ s ∈ e.span?, s.Fits

theorem PlanError.ofJson_toJson {e : PlanError} (hfits : e.Fits) :
    PlanError.ofJson e.toJson.canonical = .ok e := by
  have hkeys : (["kind", "message", "span"] : List Text).Nodup := by decide
  obtain ⟨members, hmembers, h⟩ : ∃ members : Members, e.toJson.canonical = .object members ∧
      members.Has _ := canonical_object hkeys
  have hspan : asOption SourceSpan.ofJson _ = .ok e.span? :=
    asOption_ofOption (fun s hs => SourceSpan.ofJson_toJson (hfits s hs))
      fun s => by rw [SourceSpan.toJson, canonical]; exact JsonValue.noConfusion
  rw [hmembers, ofJson, asMembers, ok_bind,
    h.get? "kind" rfl (PlanErrorKind.asWord_name e.kind), ok_bind,
    h.get? "message" rfl (rfl : asText _ = _), ok_bind, h.get? "span" rfl hspan, ok_bind]
  rfl

structure FilePlan.Fits (p : FilePlan) : Prop where
  decisions : ∀ d ∈ p.decisions, d.Fits
  errors : ∀ e ∈ p.errors, e.Fits

theorem FilePlan.ofJson_toJson {p : FilePlan} (hfits : p.Fits) :
    FilePlan.ofJson p.toJson.canonical = .ok p := by
  have hkeys : FilePlan.keys.Nodup := by decide
  obtain ⟨members, hmembers, h⟩ : ∃ members : Members, p.toJson.canonical = .object members ∧
      members.Has _ := canonical_object hkeys
  have hdecisions : asList Decision.ofJson _ = .ok p.decisions :=
    asList_map fun d hd => Decision.ofJson_toJson (hfits.decisions d hd)
  have herrors : asList PlanError.ofJson _ = .ok p.errors :=
    asList_map fun e he => PlanError.ofJson_toJson (hfits.errors e he)
  rw [hmembers, ofJson, asMembers, ok_bind, h.get? "decisions" rfl hdecisions, ok_bind,
    h.get? "errors" rfl herrors, ok_bind, h.get? "has_include" rfl (rfl : asBool _ = _), ok_bind,
    h.get? "hash" rfl (rfl : asText _ = _), ok_bind,
    h.get? "path" rfl (rfl : asText _ = _), ok_bind]
  rfl

namespace ProjectPlan

def Fits (p : ProjectPlan) : Prop := ∀ file ∈ p.files, file.Fits

/-- The members of a plan in its JSON form. -/
def fields (p : ProjectPlan) : Members := [
  ("dialect", .string dialect),
  ("source_root", .string p.sourceRoot),
  ("includes_dir", .string p.includesDir),
  ("prefix", .string p.lead),
  ("files", .array (p.files.map FilePlan.toJson))]

theorem toJson_eq (p : ProjectPlan) : p.toJson = .object p.fields := rfl

theorem nodup_fields (p : ProjectPlan) : (p.fields.map (·.1)).Nodup := by
  have hkeys : ProjectPlan.keys.Nodup := by decide
  exact hkeys

theorem ofJson_of_has {p : ProjectPlan} (hfits : p.Fits) {members : Members}
    (h : members.Has p.fields) :
    ProjectPlan.ofJson (.object members) = .ok (dialect, { p with index := .empty }) := by
  have hfiles : asList FilePlan.ofJson _ = .ok p.files :=
    asList_map fun file hfile => FilePlan.ofJson_toJson (hfits file hfile)
  rw [ofJson, asMembers, ok_bind, h.get? "dialect" rfl (rfl : asText _ = _), ok_bind,
    h.get? "files" rfl hfiles, ok_bind, h.get? "includes_dir" rfl (rfl : asText _ = _), ok_bind,
    h.get? "prefix" rfl (rfl : asText _ = _), ok_bind,
    h.get? "source_root" rfl (rfl : asText _ = _), ok_bind]
  rfl

end ProjectPlan
end NamespaceMigration
