import NamespaceMigration.Json.Basic
import NamespaceMigration.Text.Utf8

/-! The JSON reader. It reads bytes, stops at the first problem, and says where that is. Values may
nest 127 deep. -/
namespace NamespaceMigration

/-- What is wrong with a JSON text. -/
inductive JsonProblem where
  | endInList
  | endInObject
  | endInString
  | endInValue
  | expectedColon
  | expectedListEnd
  | expectedObjectEnd
  | expectedIdent
  | expectedValue
  | invalidEscape
  | invalidNumber
  | numberOutOfRange
  | invalidCodePoint
  | controlCharacter
  | keyNotString
  | loneSurrogate
  | trailingComma
  | trailingCharacters
  | endOfHexEscape
  | recursionLimit
deriving DecidableEq

namespace JsonProblem

def message : JsonProblem → Text
  | endInList => "EOF while parsing a list"
  | endInObject => "EOF while parsing an object"
  | endInString => "EOF while parsing a string"
  | endInValue => "EOF while parsing a value"
  | expectedColon => "expected \x60:\x60"
  | expectedListEnd => "expected \x60,\x60 or \x60]\x60"
  | expectedObjectEnd => "expected \x60,\x60 or \x60\x7d\x60"
  | expectedIdent => "expected ident"
  | expectedValue => "expected value"
  | invalidEscape => "invalid escape"
  | invalidNumber => "invalid number"
  | numberOutOfRange => "number out of range"
  | invalidCodePoint => "invalid unicode code point"
  | controlCharacter =>
    "control character (\\u0000-\\u001F) found while parsing a string"
  | keyNotString => "key must be a string"
  | loneSurrogate => "lone leading surrogate in hex escape"
  | trailingComma => "trailing comma"
  | trailingCharacters => "trailing characters"
  | endOfHexEscape => "unexpected end of hex escape"
  | recursionLimit => "recursion limit exceeded"

end JsonProblem

/-- A problem and its place: lines count from one, columns are the bytes read of the line. -/
structure JsonError where
  problem : JsonProblem
  line : Nat
  column : Nat
deriving DecidableEq

namespace JsonError

def message (e : JsonError) : Text :=
  e.problem.message ++ " at line " ++ Text.ofNat e.line ++ " column " ++ Text.ofNat e.column

end JsonError

namespace JsonReader

/-- A problem with the bytes that are left when it is found. -/
structure Stop where
  problem : JsonProblem
  left : Bytes

/-- A value that was read, and the bytes after it. -/
abbrev Read (α : Type) := Except Stop (α × Bytes)

/-- A problem with the byte that comes next, which counts as read. -/
def failAt {α : Type} (problem : JsonProblem) (bytes : Bytes) : Except Stop α :=
  .error ⟨problem, bytes.drop 1⟩

def fail {α : Type} (problem : JsonProblem) (bytes : Bytes) : Except Stop α :=
  .error ⟨problem, bytes⟩

def code (c : Char) : UInt8 := UInt8.ofNat c.toNat

def isSpace (b : UInt8) : Bool :=
  b == code ' ' || b == code '\n' || b == code '\t' || b == code '\r'

def skipSpace (bytes : Bytes) : Bytes := bytes.dropWhile isSpace

def isDigit (b : UInt8) : Bool := code '0' ≤ b && b ≤ code '9'

/-- The rest of a word whose first letter has been read. -/
def readWord (value : JsonValue) : (letters : List Char) → Bytes → Read JsonValue
  | [], bytes => .ok (value, bytes)
  | _ :: _, [] => fail .endInValue []
  | letter :: letters, b :: bytes =>
    if b = code letter then readWord value letters bytes else fail .expectedIdent bytes

/-- Takes digits into a number as long as it stays below the limit. What is left of them is not taken. -/
def takeDigits (limit : Nat) : (n : Nat) → (digits : Bytes) → Nat × Bytes
  | n, [] => (n, [])
  | n, b :: digits =>
    let next := n * 10 + (b.toNat - 48)
    if next < limit then takeDigits limit next digits else (n, b :: digits)

/-- Where the digits of a number end. -/
def digitsLimit : Nat := Nat.pow 2 64

/-- Where an exponent ends. -/
def powerLimit : Nat := Nat.pow 2 31

/-- An integer of all its digits but the last `dropped` ones, if it is all there and fits 64 bits; else a
float. Zero has a sign only as a float. -/
def integer? (negative : Bool) (n dropped : Nat) : Option JsonNumber :=
  if dropped = 0 ∧ if negative then 0 < n ∧ n ≤ Nat.pow 2 63 else n < digitsLimit then
    some (.int (if negative then -n else n))
  else (Binary64.ofDecimal? negative n dropped).map .float

def numberOr (number? : Option JsonNumber) (bytes : Bytes) : Read JsonValue :=
  match number? with
  | some number => .ok (.number number, bytes)
  | none => fail .numberOutOfRange bytes

/-- The exponent after its letter, and the number it scales. An exponent that ends too late is refused at
the digit where it does, unless what it scales is nothing or becomes nothing. -/
def readExponent (negative : Bool) (n : Nat) (exponent : Int) (bytes : Bytes) : Read JsonValue :=
  let minus := bytes.head? == some (code '-')
  let bytes := if minus || bytes.head? == some (code '+') then bytes.drop 1 else bytes
  match bytes with
  | [] => fail .endInValue []
  | b :: rest =>
    if !isDigit b then fail .invalidNumber rest
    else
      let rest := bytes.dropWhile isDigit
      match takeDigits powerLimit 0 (bytes.takeWhile isDigit) with
      | (power, []) =>
        let exponent := if minus then exponent - power else exponent + power
        numberOr ((Binary64.ofDecimal? negative n exponent).map .float) rest
      | (_, _ :: left) =>
        if n ≠ 0 ∧ !minus then fail .numberOutOfRange (left ++ rest)
        else .ok (.number (.float (.zero negative)), rest)

def isExponentMark (b? : Option UInt8) : Bool := b? == some (code 'e') || b? == some (code 'E')

/-- The part of a number after its whole digits, the last `dropped` of which are not in the number. -/
def readFraction (negative : Bool) (whole dropped : Nat) (bytes : Bytes) : Read JsonValue :=
  if bytes.head? == some (code '.') then
    let digits := (bytes.drop 1).takeWhile isDigit
    let rest := (bytes.drop 1).dropWhile isDigit
    let (n, left) := takeDigits digitsLimit whole digits
    let exponent : Int := dropped + left.length - digits.length
    if digits.isEmpty then
      if rest.isEmpty then failAt .endInValue [] else failAt .invalidNumber rest
    else if isExponentMark rest.head? then readExponent negative n exponent (rest.drop 1)
    else numberOr ((Binary64.ofDecimal? negative n exponent).map .float) rest
  else if isExponentMark bytes.head? then readExponent negative whole dropped (bytes.drop 1)
  else numberOr (integer? negative whole dropped) bytes

/-- A number after its sign. No digit follows a zero at its start. -/
def readNumber (negative : Bool) : Bytes → Read JsonValue
  | [] => fail .endInValue []
  | b :: rest =>
    if b = code '0' then
      if rest.head?.any isDigit then failAt .invalidNumber rest
      else readFraction negative 0 0 rest
    else if isDigit b then
      let (whole, left) := takeDigits digitsLimit 0 ((b :: rest).takeWhile isDigit)
      readFraction negative whole left.length ((b :: rest).dropWhile isDigit)
    else fail .invalidNumber rest

def hexValue? (b : UInt8) : Option Nat :=
  if isDigit b then some (b.toNat - 48)
  else if code 'a' ≤ b ∧ b ≤ code 'f' then some (b.toNat - 87)
  else if code 'A' ≤ b ∧ b ≤ code 'F' then some (b.toNat - 55)
  else none

/-- Four hexadecimal digits. -/
def readHex : Bytes → Read Nat
  | a :: b :: c :: d :: rest =>
    match hexValue? a, hexValue? b, hexValue? c, hexValue? d with
    | some a, some b, some c, some d => .ok (a * 4096 + b * 256 + c * 16 + d, rest)
    | _, _, _, _ => fail .invalidEscape rest
  | _ => fail .endInString []

def isHighSurrogate (n : Nat) : Bool := 0xD800 ≤ n && n < 0xDC00

def isLowSurrogate (n : Nat) : Bool := 0xDC00 ≤ n && n < 0xE000

/-- A byte that has to follow the first half of a pair. -/
def readPairByte (expected : Char) : Bytes → Except Stop Bytes
  | [] => fail .endInString []
  | b :: rest => if b = code expected then .ok rest else fail .endOfHexEscape rest

/-- The character of a hexadecimal escape. Characters outside the first plane are written as a
pair. -/
def readUnicode (bytes : Bytes) : Except Stop (Char × Bytes) := do
  let (high, bytes) ← readHex bytes
  if isLowSurrogate high then fail .loneSurrogate bytes
  else if !isHighSurrogate high then .ok (Char.ofNat high, bytes)
  else
    let bytes ← readPairByte '\\' bytes
    let bytes ← readPairByte 'u' bytes
    let (low, bytes) ← readHex bytes
    if !isLowSurrogate low then fail .loneSurrogate bytes
    else .ok (Char.ofNat (0x10000 + (high - 0xD800) * 0x400 + (low - 0xDC00)), bytes)

/-- The character of an escape after its backslash. -/
def readEscape : Bytes → Read Char
  | [] => fail .endInString []
  | b :: bytes =>
    if b = code 'u' then readUnicode bytes
    else if b = code '\x22' then .ok ('\x22', bytes)
    else if b = code '\\' then .ok ('\\', bytes)
    else if b = code '/' then .ok ('/', bytes)
    else if b = code 'b' then .ok (Char.ofNat 8, bytes)
    else if b = code 'f' then .ok (Char.ofNat 12, bytes)
    else if b = code 'n' then .ok ('\n', bytes)
    else if b = code 'r' then .ok ('\r', bytes)
    else if b = code 't' then .ok ('\t', bytes)
    else fail .invalidEscape bytes

/-- The bytes of a string after its opening quote, at most `fuel` of them. -/
def readStringBytes : (fuel : Nat) → Bytes → Except Stop (Bytes × Bytes)
  | 0, bytes => fail .endInString bytes
  | _ + 1, [] => fail .endInString []
  | fuel + 1, b :: bytes =>
    if b = code '\x22' then .ok ([], bytes)
    else if b = code '\\' then do
      let (c, bytes) ← readEscape bytes
      let (more, bytes) ← readStringBytes fuel bytes
      .ok (Text.toUtf8 [c] ++ more, bytes)
    else if b < 0x20 then fail .controlCharacter bytes
    else do
      let (more, bytes) ← readStringBytes fuel bytes
      .ok (b :: more, bytes)

/-- A string after its opening quote. -/
def readString (bytes : Bytes) : Except Stop (Text × Bytes) := do
  let (content, bytes) ← readStringBytes (bytes.length + 1) bytes
  match Text.ofUtf8? content with
  | some t => .ok (t, bytes)
  | none => fail .invalidCodePoint bytes

/-- How a value inside another one is read. -/
abbrev Inner := Bytes → Read JsonValue

/-- What comes after an item of a list: its end, or a comma and another item. -/
def afterItem (bytes : Bytes) : Read Bool :=
  match skipSpace bytes with
  | [] => failAt .endInList []
  | b :: rest =>
    if b = code ']' then .ok (false, rest)
    else if b = code ',' then
      match skipSpace rest with
      | [] => failAt .endInValue []
      | c :: rest => if c = code ']' then fail .trailingComma rest else .ok (true, c :: rest)
    else fail .expectedListEnd rest

/-- The items of a list from one on. -/
def readItems (inner : Inner) : (fuel : Nat) → Bytes → Except Stop (List JsonValue × Bytes)
  | 0, bytes => fail .endInList bytes
  | fuel + 1, bytes => do
    let (item, bytes) ← inner bytes
    let (goOn, bytes) ← afterItem bytes
    if goOn then
      let (items, bytes) ← readItems inner fuel bytes
      .ok (item :: items, bytes)
    else .ok ([item], bytes)

/-- A list after its opening bracket. -/
def readList (inner : Inner) (bytes : Bytes) : Read JsonValue :=
  match skipSpace bytes with
  | [] => failAt .endInList []
  | b :: rest =>
    if b = code ']' then .ok (.array [], rest)
    else (readItems inner (bytes.length + 1) (b :: rest)).map fun (items, rest) =>
      (.array items, rest)

/-- The colon after a key. -/
def readColon (bytes : Bytes) : Except Stop Bytes :=
  match skipSpace bytes with
  | [] => failAt .endInObject []
  | b :: rest => if b = code ':' then .ok rest else fail .expectedColon rest

/-- What comes after a member of an object: its end, or a comma and the quote of another key. -/
def afterMember (bytes : Bytes) : Read Bool :=
  match skipSpace bytes with
  | [] => failAt .endInObject []
  | b :: rest =>
    if b = code '\x7d' then .ok (false, rest)
    else if b = code ',' then
      match skipSpace rest with
      | [] => failAt .endInValue []
      | c :: rest =>
        if c = code '\x22' then .ok (true, rest)
        else if c = code '\x7d' then fail .trailingComma rest
        else fail .keyNotString rest
    else fail .expectedObjectEnd rest

/-- The members of an object from one on, whose opening quote has been read, put among those read
before. -/
def readMembers (inner : Inner) : (fuel : Nat) → List (Text × JsonValue) → Bytes →
    Except Stop (List (Text × JsonValue) × Bytes)
  | 0, _, bytes => fail .endInObject bytes
  | fuel + 1, found, bytes => do
    let (key, bytes) ← readString bytes
    let bytes ← readColon bytes
    let (value, bytes) ← inner bytes
    let found := JsonValue.insert key value found
    let (goOn, bytes) ← afterMember bytes
    if goOn then readMembers inner fuel found bytes else .ok (found, bytes)

/-- An object after its opening brace. Of members with one key the last stays. -/
def readObject (inner : Inner) (bytes : Bytes) : Read JsonValue :=
  match skipSpace bytes with
  | [] => failAt .endInObject []
  | b :: rest =>
    if b = code '\x7d' then .ok (.object [], rest)
    else if b = code '\x22' then
      (readMembers inner (bytes.length + 1) [] rest).map fun (members, rest) =>
        (.object members, rest)
    else fail .keyNotString rest

/-- A value, given how the values inside it are read. Without that it holds none. -/
def readShape (inner? : Option Inner) (bytes : Bytes) : Read JsonValue :=
  match skipSpace bytes with
  | [] => failAt .endInValue []
  | b :: rest =>
    if b = code 'n' then readWord .null ['u', 'l', 'l'] rest
    else if b = code 't' then readWord (.bool true) ['r', 'u', 'e'] rest
    else if b = code 'f' then readWord (.bool false) ['a', 'l', 's', 'e'] rest
    else if b = code '-' then readNumber true rest
    else if isDigit b then readNumber false (b :: rest)
    else if b = code '\x22' then (readString rest).map fun (t, rest) => (.string t, rest)
    else if b = code '[' ∨ b = code '\x7b' then
      match inner? with
      | none => fail .recursionLimit rest
      | some inner => if b = code '[' then readList inner rest else readObject inner rest
    else fail .expectedValue rest

/-- A value that nests at most `depth` deep. -/
def readValue : (depth : Nat) → Bytes → Read JsonValue
  | 0 => readShape none
  | depth + 1 => readShape (some (readValue depth))

def maxDepth : Nat := 127

/-- The place of a problem: all bytes before it have been read. -/
def locate (all : Bytes) (s : Stop) : JsonError :=
  let before := all.take (all.length - s.left.length)
  let lastLine := before.reverse.takeWhile (· ≠ code '\n')
  ⟨s.problem, before.count (code '\n') + 1, lastLine.length⟩

/-- The value that the bytes are, with nothing but blanks around it. -/
def read (bytes : Bytes) : Except JsonError JsonValue :=
  let value : Except Stop JsonValue := do
    let (value, rest) ← readValue maxDepth bytes
    match skipSpace rest with
    | [] => .ok value
    | _ :: rest => fail .trailingCharacters rest
  value.mapError (locate bytes)

end JsonReader
end NamespaceMigration
