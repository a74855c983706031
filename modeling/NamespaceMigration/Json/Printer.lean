import NamespaceMigration.Json.Basic

/-! The compact text of JSON values: no blanks, and only those characters of a string escaped that
have to be. -/
namespace NamespaceMigration
namespace JsonValue

/-- A character inside a string. -/
def escapeChar (c : Char) : Text :=
  if c = '\x22' ∨ c = '\\' then ['\\', c]
  else if c = '\n' then "\\n"
  else if c = '\r' then "\\r"
  else if c = '\t' then "\\t"
  else if c.toNat = 8 then "\\b"
  else if c.toNat = 12 then "\\f"
  else if c.toNat < 0x20 then
    "\\u00" ++ [Nat.digitChar (c.toNat / 16), Nat.digitChar (c.toNat % 16)]
  else [c]

def printString (t : Text) : Text := '\x22' :: t.flatMap escapeChar ++ ['\x22']

def printNumber : JsonNumber → Text
  | .int (.ofNat n) => Text.ofNat n
  | .int (.negSucc n) => '-' :: Text.ofNat (n + 1)
  | .float x => x.toText

mutual

def print : JsonValue → Text
  | .null => "null"
  | .bool true => "true"
  | .bool false => "false"
  | .number n => printNumber n
  | .string t => printString t
  | .array items => '[' :: printItems items ++ [']']
  | .object members => '\x7b' :: printMembers members ++ ['\x7d']

def printItems : List JsonValue → Text
  | [] => []
  | [item] => print item
  | item :: items => print item ++ ',' :: printItems items

def printMembers : List (Text × JsonValue) → Text
  | [] => []
  | [(key, value)] => printString key ++ ':' :: print value
  | (key, value) :: members =>
    printString key ++ ':' :: print value ++ ',' :: printMembers members

end

end JsonValue
end NamespaceMigration
