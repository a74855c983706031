import NamespaceMigration.Text.Basic

/-! The UTF-8 encoding. Reading bytes gives the longest valid text at their start and the bytes
that are left; a file is text exactly if nothing is left. -/
namespace NamespaceMigration

abbrev Bytes := List UInt8

namespace Text

def toUtf8 (t : Text) : Bytes := t.flatMap String.utf8EncodeChar

/-- The closed range of bytes that may continue a character. -/
abbrev ByteRange := Nat × Nat

def continuationRange : ByteRange := (0x80, 0xBF)

/-- What may follow the first byte of a character. The narrower ranges exclude overlong forms,
surrogates and code points above `10FFFF`. -/
def secondRange (lead : Nat) : ByteRange :=
  if lead = 0xE0 then (0xA0, 0xBF)
  else if lead = 0xED then (0x80, 0x9F)
  else if lead = 0xF0 then (0x90, 0xBF)
  else if lead = 0xF4 then (0x80, 0x8F)
  else continuationRange

/-- Reads `left` more bytes of a character after `read` of them. The error is the number of bytes
that cannot be the start of a character; it is zero if the bytes end too early. -/
def continueChar (value read : Nat) (range : ByteRange) : (left : Nat) → Bytes → Except Nat Nat
  | 0, _ => .ok value
  | _ + 1, [] => .error 0
  | left + 1, b :: rest =>
    if range.1 ≤ b.toNat ∧ b.toNat ≤ range.2 then
      continueChar (value * 0x40 + (b.toNat - 0x80)) (read + 1) continuationRange left rest
    else .error read

/-- The character that starts with the byte `lead` and goes on in `rest`, with the number of bytes
it takes from `rest`. -/
def firstChar (lead : UInt8) (rest : Bytes) : Except Nat (Char × Nat) :=
  let n := lead.toNat
  let go (high extra : Nat) :=
    (continueChar (n - high) 1 (secondRange n) extra rest).map fun code => (Char.ofNat code, extra)
  if n < 0x80 then .ok (Char.ofNat n, 0)
  else if 0xC2 ≤ n ∧ n < 0xE0 then go 0xC0 1
  else if 0xE0 ≤ n ∧ n < 0xF0 then go 0xE0 2
  else if 0xF0 ≤ n ∧ n < 0xF5 then go 0xF0 3
  else .error 1

/-- Reads characters from the bytes, at most `fuel` of them. -/
def ofUtf8From : (fuel : Nat) → Bytes → Text × Bytes
  | 0, bytes => ([], bytes)
  | _ + 1, [] => ([], [])
  | fuel + 1, lead :: rest =>
    match firstChar lead rest with
    | .error _ => ([], lead :: rest)
    | .ok (c, extra) =>
      let (t, left) := ofUtf8From fuel (rest.drop extra)
      (c :: t, left)

/-- The longest text at the start of the bytes, and the bytes after it. -/
def ofUtf8 (bytes : Bytes) : Text × Bytes := ofUtf8From bytes.length bytes

/-- The text that the bytes encode, if they encode one. -/
def ofUtf8? (bytes : Bytes) : Option Text :=
  match ofUtf8 bytes with
  | (t, []) => some t
  | _ => none

/-- The number of bytes at the start that cannot be part of a character. It is zero if they only
end too early. -/
def invalidLength : Bytes → Nat
  | [] => 0
  | lead :: rest =>
    match firstChar lead rest with
    | .error length => length
    | .ok _ => 0

end Text
end NamespaceMigration
