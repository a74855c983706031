import NamespaceMigration.Digest.Sha256
import NamespaceMigration.Json.Reader
import NamespaceMigration.Plan.Document

/-! Signed plans. A saved plan is the canonical text of its JSON form, which has a member with the
keyed digest of that text without the member. Only exactly this text is accepted. -/
namespace NamespaceMigration

/-- The key of the member that holds the signature. -/
def signatureKey : Text := "signature"

/-- The key for signatures, if nothing else is asked for. -/
def defaultKey : Bytes := Text.toUtf8 "psr4-migrate plan signature v1"

/-- Why the content of a plan file is not trusted. -/
inductive SealError where
  | unreadable (e : JsonError)
  | noSignature
  | tampered
  | noPlan (e : DecodeError)
  | otherDialect (found : Text)
deriving DecidableEq

namespace SealError

/-- What was wrong with the JSON itself. -/
def cause? : SealError → Option Text
  | unreadable e => some e.message
  | noPlan e => some e.message
  | _ => none

def message (e : SealError) : Text :=
  match e with
  | unreadable _ | noPlan _ => "malformed plan file: " ++ e.cause?.getD []
  | noSignature => "plan file has no signature"
  | tampered => "plan signature mismatch, the plan file was modified"
  | otherDialect found =>
    "plan was made for dialect '" ++ found ++ "', expected '" ++ dialect ++ "'"

end SealError

namespace JsonValue

def canonicalText (v : JsonValue) : Text := v.canonical.print

/-- The keyed digest of a value without its signature. -/
def signature (v : JsonValue) (key : Bytes) : Text :=
  Bytes.toHex (Hmac.sha256 key (Text.toUtf8 (v.canonical.withoutMember signatureKey).print))

/-- The text of a value with its signature, on a line of its own. -/
def sealed (v : JsonValue) (key : Bytes) : Text :=
  (v.canonical.withMember signatureKey (.string (v.signature key))).print ++ ['\n']

/-- The signature that a value has, if it is a text. -/
def writtenSignature? (v : JsonValue) : Option Text :=
  match v.member? signatureKey with
  | some (.string signature) => some signature
  | _ => none

end JsonValue

/-- Bytes without a line feed at their end. One that is there is dropped. -/
def dropNewline (bytes : Bytes) : Bytes :=
  if bytes.getLast? = some 10 then bytes.dropLast else bytes

namespace ProjectPlan

def signature (p : ProjectPlan) (key : Bytes) : Text := p.toJson.signature key

def sealed (p : ProjectPlan) (key : Bytes) : Bytes := Text.toUtf8 (p.toJson.sealed key)

/-- The plan in the content of a file. -/
def ofSealed (key content : Bytes) : Except SealError ProjectPlan := do
  let v ← (JsonReader.read content).mapError .unreadable
  let some written := v.writtenSignature? | .error .noSignature
  if written ≠ v.signature key ∨ Text.toUtf8 v.canonicalText ≠ dropNewline content then
    .error .tampered
  else
    let (found, p) ← (ofJson v).mapError .noPlan
    if found = dialect then .ok p.reindex else .error (.otherDialect found)

end ProjectPlan
end NamespaceMigration
