import NamespaceMigration.Json.Printer

/-! Reading JSON values as data of other types. Records are objects, whose unknown members mean
nothing, or lists of all their values in order. -/
namespace NamespaceMigration

/-- Why a value is not what it should be. -/
inductive DecodeError where
  | wrongType (found expected : Text)
  | wrongValue (found expected : Text)
  | wrongLength (length : Nat) (expected : Text)
  | unknownWord (found : Text) (known : List Text)
  | missing (key : Text)
deriving DecidableEq

namespace DecodeError

def quote (word : Text) : Text := '\x60' :: word ++ ['\x60']

def message : DecodeError → Text
  | wrongType found expected => "invalid type: " ++ found ++ ", expected " ++ expected
  | wrongValue found expected => "invalid value: " ++ found ++ ", expected " ++ expected
  | wrongLength length expected =>
    "invalid length " ++ Text.ofNat length ++ ", expected " ++ expected
  | unknownWord found known =>
    "unknown variant " ++ quote found ++ ", expected one of " ++ Text.join ", " (known.map quote)
  | missing key => "missing field " ++ quote key

end DecodeError

namespace JsonValue

/-- What a value is called in an error. -/
def describe : JsonValue → Text
  | .null => "null"
  | .bool b => "boolean " ++ DecodeError.quote (print (.bool b))
  | .number (.int n) => "integer " ++ DecodeError.quote (printNumber (.int n))
  | .number (.float x) => "floating point " ++ DecodeError.quote x.toText
  | .string t => "string " ++ printString t
  | .array _ => "sequence"
  | .object _ => "map"

def wrongType {α : Type} (v : JsonValue) (expected : Text) : Except DecodeError α :=
  .error (.wrongType v.describe expected)

def asText : JsonValue → Except DecodeError Text
  | .string t => .ok t
  | v => v.wrongType "a string"

def asBool : JsonValue → Except DecodeError Bool
  | .bool b => .ok b
  | v => v.wrongType "a boolean"

/-- A natural number of at most so many bits. -/
def asNat (bits : Nat) (expected : Text) : JsonValue → Except DecodeError Nat
  | .number (.int n) =>
    if 0 ≤ n ∧ n.toNat < Nat.pow 2 bits then .ok n.toNat
    else .error (.wrongValue (describe (.number (.int n))) expected)
  | v => v.wrongType expected

def asList {α : Type} (decode : JsonValue → Except DecodeError α) :
    JsonValue → Except DecodeError (List α)
  | .array items => items.mapM decode
  | v => v.wrongType "a sequence"

def asOption {α : Type} (decode : JsonValue → Except DecodeError α) :
    JsonValue → Except DecodeError (Option α)
  | .null => .ok none
  | v => (decode v).map some

def ofOption {α : Type} (encode : α → JsonValue) : Option α → JsonValue
  | some a => encode a
  | none => .null

def ofWord? {α : Type} (words : List (Text × α)) (word : Text) : Except DecodeError α :=
  match words.lookup word with
  | some a => .ok a
  | none => .error (.unknownWord word (words.map (·.1)))

/-- One of several words, alone or as the only key of an object, with nothing beside it. -/
def asWord {α : Type} (words : List (Text × α)) : JsonValue → Except DecodeError α
  | .string word => ofWord? words word
  | .object [(word, content)] => do
    let a ← ofWord? words word
    match content with
    | .null => .ok a
    | v => v.wrongType "unit"
  | .object _ => .error (.wrongValue "map" "map with a single key")
  | v => v.wrongType "string or map"

abbrev Members := List (Text × JsonValue)

def asMembers (name : Text) (keys : List Text) : JsonValue → Except DecodeError Members
  | .object members => .ok members
  | .array items =>
    if items.length = keys.length then .ok (keys.zip items)
    else if items.length < keys.length then
      .error (.wrongLength items.length
        ("struct " ++ name ++ " with " ++ Text.ofNat keys.length ++ " elements"))
    else .error (.wrongLength items.length "fewer elements in array")
  | v => v.wrongType ("struct " ++ name)

/-- The value of a member, if the record has it. -/
def Members.get? {α : Type} (members : Members) (key : Text)
    (decode : JsonValue → Except DecodeError α) : Except DecodeError (Option α) :=
  match members.lookup key with
  | some v => (decode v).map some
  | none => .ok none

/-- Makes sure that a member was there. -/
def required {α : Type} (key : Text) : Option α → Except DecodeError α
  | some a => .ok a
  | none => .error (.missing key)

end JsonValue
end NamespaceMigration
