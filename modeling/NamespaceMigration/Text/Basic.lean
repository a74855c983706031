/-! Texts as lists of characters, and the few operations on them that every part of the library
shares. Sizes are counted in UTF-8 bytes, since offsets into a source file are byte offsets. -/
namespace NamespaceMigration

/-- A text is the list of its characters. -/
abbrev Text := List Char

instance : Coe String Text := ⟨String.toList⟩

namespace Text

/-- The number of bytes of the UTF-8 encoding. -/
def byteSize : Text → Nat
  | [] => 0
  | c :: t => c.utf8Size + byteSize t

theorem byteSize_append (s t : Text) : byteSize (s ++ t) = byteSize s + byteSize t := by
  induction s with
  | nil => simp [byteSize]
  | cons c s ih => simp [byteSize, ih, Nat.add_assoc]

theorem length_le_byteSize (t : Text) : t.length ≤ byteSize t := by
  induction t with
  | nil => simp
  | cons c t ih =>
    have := c.utf8Size_pos
    simp only [byteSize, List.length_cons]
    omega

/-- Splits off the characters that lie in the first `n` bytes. A character that only begins there
goes to the second part. -/
def splitAtByte : Nat → Text → Text × Text
  | _, [] => ([], [])
  | n, c :: t =>
    if c.utf8Size ≤ n then
      let (before, after) := splitAtByte (n - c.utf8Size) t
      (c :: before, after)
    else ([], c :: t)

/-- The bytes from `start` up to `stop`. -/
def slice (t : Text) (start stop : Nat) : Text :=
  (splitAtByte (stop - start) (splitAtByte start t).2).1

/-- The rest of a text after `lead`, if the text starts with it. -/
def dropLead? : (lead t : Text) → Option Text
  | [], t => some t
  | _ :: _, [] => none
  | a :: lead, b :: t => if a = b then dropLead? lead t else none

theorem dropLead?_eq_some_iff {lead t rest : Text} :
    dropLead? lead t = some rest ↔ t = lead ++ rest := by
  induction lead generalizing t with
  | nil => simp [dropLead?]
  | cons a lead ih =>
    cases t with
    | nil => simp [dropLead?]
    | cons b t =>
      by_cases h : a = b
      · simp [dropLead?, h, ih]
      · simp [dropLead?, h, Ne.symm h]

def startsWith (t lead : Text) : Bool := lead.isPrefixOf t

def endsWith (t tail : Text) : Bool := tail.isSuffixOf t

/-- Letters `A` to `Z` become small; no other character changes. -/
def toLowerAscii (t : Text) : Text := t.map Char.toLower

/-- Equality up to the case of ASCII letters. -/
def eqIgnoreCase (s t : Text) : Bool := toLowerAscii s == toLowerAscii t

def trimStart (drop : Char → Bool) (t : Text) : Text := t.dropWhile drop

def trimEnd (drop : Char → Bool) (t : Text) : Text := (t.reverse.dropWhile drop).reverse

def trim (drop : Char → Bool) (t : Text) : Text := trimEnd drop (trimStart drop t)

/-- The parts before and after the first occurrence of `needle`. -/
def splitFirst? (needle : Text) : Text → Option (Text × Text)
  | [] => if needle.isEmpty then some ([], []) else none
  | c :: t =>
    match dropLead? needle (c :: t) with
    | some rest => some ([], rest)
    | none => (splitFirst? needle t).map fun (before, after) => (c :: before, after)

theorem splitFirst?_append {needle t before after : Text}
    (h : splitFirst? needle t = some (before, after)) : before ++ needle ++ after = t := by
  induction t generalizing before with
  | nil =>
    cases needle with
    | nil => simp_all [splitFirst?]
    | cons => simp [splitFirst?] at h
  | cons c t ih =>
    simp only [splitFirst?] at h
    split at h
    · rename_i rest hr
      obtain ⟨rfl, rfl⟩ : [] = before ∧ rest = after := by simpa using h
      simpa using (dropLead?_eq_some_iff.mp hr).symm
    · simp only [Option.map_eq_some_iff, Prod.mk.injEq, Prod.exists] at h
      obtain ⟨b, a, hs, rfl, rfl⟩ := h
      simpa using ih hs

/-- The parts before and after the first `c`. -/
def splitAtFirst? (c : Char) : Text → Option (Text × Text)
  | [] => none
  | d :: t =>
    if d = c then some ([], t)
    else (splitAtFirst? c t).map fun (before, after) => (d :: before, after)

/-- The parts before and after the last `c`. -/
def splitAtLast? (c : Char) : Text → Option (Text × Text)
  | [] => none
  | d :: t =>
    match splitAtLast? c t with
    | some (before, after) => some (d :: before, after)
    | none => if d = c then some ([], t) else none

theorem splitAtLast?_eq_none_iff {c : Char} {t : Text} : splitAtLast? c t = none ↔ c ∉ t := by
  induction t with
  | nil => simp [splitAtLast?]
  | cons d t ih =>
    cases h : splitAtLast? c t with
    | some parts => simp_all [splitAtLast?]
    | none =>
      by_cases hd : d = c
      · simp [splitAtLast?, h, hd]
      · simp_all [splitAtLast?, Ne.symm hd]

/-- The last separator cuts the text in two, and none comes after it. -/
theorem splitAtLast?_eq_some_iff {c : Char} {t before after : Text} :
    splitAtLast? c t = some (before, after) ↔ t = before ++ c :: after ∧ c ∉ after := by
  induction t generalizing before with
  | nil => simp [splitAtLast?]
  | cons d t ih =>
    cases h : splitAtLast? c t with
    | some parts =>
      obtain ⟨b, a⟩ := parts
      cases before with
      | nil =>
        have hc : c ∈ t := Decidable.byContradiction fun hc => by
          simp [splitAtLast?_eq_none_iff.mpr hc] at h
        simp only [splitAtLast?, h, Option.some.injEq, Prod.mk.injEq, List.nil_append,
          List.cons.injEq, reduceCtorEq, false_and, false_iff]
        rintro ⟨⟨_, rfl⟩, hn⟩
        exact hn hc
      | cons e before =>
        have := @ih before
        simp_all [splitAtLast?, and_assoc]
    | none =>
      have hc := splitAtLast?_eq_none_iff.mp h
      by_cases hd : d = c
      · subst hd
        cases before with
        | nil => simp +contextual [splitAtLast?, h, eq_comm, hc]
        | cons e before =>
          simp only [splitAtLast?, h, ↓reduceIte, Option.some.injEq, Prod.mk.injEq, reduceCtorEq,
            false_and, List.cons_append, List.cons.injEq, false_iff]
          rintro ⟨⟨_, rfl⟩, _⟩
          simp at hc
      · simp only [splitAtLast?, h, hd, if_false, reduceCtorEq, false_iff]
        rintro ⟨he, _⟩
        cases before with
        | nil => simp_all
        | cons e before => simp_all

def contains (t needle : Text) : Bool := (splitFirst? needle t).isSome

def ofNat (n : Nat) : Text := Nat.toDigits 10 n

def join (separator : Text) (parts : List Text) : Text := separator.intercalate parts

/-- A text is compared by its code points, which is the order of its UTF-8 bytes. -/
def le (s t : Text) : Bool :=
  match s, t with
  | [], _ => true
  | _ :: _, [] => false
  | a :: s, b :: t => if a = b then le s t else decide (a < b)

end Text

/-- A character with the property White_Space. -/
def isBlank (c : Char) : Bool :=
  let n := c.toNat
  (9 ≤ n && n ≤ 13) || n == 0x20 || n == 0x85 || n == 0xA0 || n == 0x1680 ||
    (0x2000 ≤ n && n ≤ 0x200A) || n == 0x2028 || n == 0x2029 || n == 0x202F || n == 0x205F ||
    n == 0x3000

namespace Text

def trimBlanks (t : Text) : Text := trim isBlank t

end Text

end NamespaceMigration
