import NamespaceMigration.Json.Binary64

/-! JSON values, and their canonical form: the members of every object sorted by their keys. -/
namespace NamespaceMigration

inductive JsonNumber where
  | int (n : Int)
  | float (x : Binary64)
deriving DecidableEq

inductive JsonValue where
  | null
  | bool (b : Bool)
  | number (n : JsonNumber)
  | string (t : Text)
  | array (items : List JsonValue)
  | object (members : List (Text × JsonValue))
deriving Inhabited

namespace JsonValue

def nat (n : Nat) : JsonValue := .number (.int n)

/-- Puts a member in its place among sorted ones. A member of the same key is replaced. -/
def insert (key : Text) (value : JsonValue) :
    List (Text × JsonValue) → List (Text × JsonValue)
  | [] => [(key, value)]
  | member :: members =>
    if key = member.1 then (key, value) :: members
    else if Text.le key member.1 then (key, value) :: member :: members
    else member :: insert key value members

mutual

/-- Sorts the members of every object. Of members with one key the last stays. -/
def canonical : JsonValue → JsonValue
  | .null => .null
  | .bool b => .bool b
  | .number n => .number n
  | .string t => .string t
  | .array items => .array (canonicalItems items)
  | .object members => .object (canonicalMembers members [])

def canonicalItems : List JsonValue → List JsonValue
  | [] => []
  | item :: items => canonical item :: canonicalItems items

/-- Puts canonical members among those that are sorted already. -/
def canonicalMembers : List (Text × JsonValue) → (sorted : List (Text × JsonValue)) →
    List (Text × JsonValue)
  | [], sorted => sorted
  | (key, value) :: members, sorted =>
    canonicalMembers members (insert key (canonical value) sorted)

end

/-- The member of an object with a key. -/
def member? (v : JsonValue) (key : Text) : Option JsonValue :=
  match v with
  | .object members => members.lookup key
  | _ => none

/-- An object without the members of a key; any other value is left alone. -/
def withoutMember (v : JsonValue) (key : Text) : JsonValue :=
  match v with
  | .object members => .object (members.filter fun member => member.1 ≠ key)
  | v => v

/-- An object with a member put in its place; any other value is left alone. -/
def withMember (v : JsonValue) (key : Text) (value : JsonValue) : JsonValue :=
  match v with
  | .object members => .object (insert key value members)
  | v => v

end JsonValue
end NamespaceMigration
