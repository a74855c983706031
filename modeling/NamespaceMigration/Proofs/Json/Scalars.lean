import NamespaceMigration.Json.Printer
import NamespaceMigration.Json.Reader
import NamespaceMigration.Proofs.Bytes.Utf8
import NamespaceMigration.Proofs.Json.Storable

/-! Reading back printed strings and integers, whatever comes after them. -/
namespace NamespaceMigration

open JsonReader (code)

namespace Text

theorem toUtf8_ascii {c : Char} (h : c.toNat < 0x80) (t : Text) :
    toUtf8 (c :: t) = code c :: toUtf8 t := by
  have hval : c.val.toNat ≤ 127 := Nat.le_of_lt_succ h
  rw [toUtf8_cons, String.utf8EncodeChar, if_pos hval]
  rfl

theorem toUtf8_eq_map {t : Text} (h : ∀ c ∈ t, c.toNat < 0x80) : toUtf8 t = t.map code := by
  induction t with
  | nil => rfl
  | cons c t ih =>
    obtain ⟨hc, ht⟩ := List.forall_mem_cons.mp h
    rw [toUtf8_ascii hc, ih ht, List.map_cons]

end Text

namespace JsonReader

theorem toNat_code {c : Char} (h : c.toNat < 0x80) : (code c).toNat = c.toNat :=
  Text.toNat_ofNat_byte (Nat.lt_trans h (by decide))

/-- Bytes of a string that stand for themselves. -/
def IsOrdinary (b : UInt8) : Prop := b ≠ code '\x22' ∧ b ≠ code '\\' ∧ ¬b < 0x20

theorem readStringBytes_ordinary {bytes : Bytes} (h : ∀ b ∈ bytes, IsOrdinary b) (fuel : Nat)
    (rest : Bytes) : readStringBytes (fuel + bytes.length) (bytes ++ rest) =
      (readStringBytes fuel rest).map fun (more, left) => (bytes ++ more, left) := by
  induction bytes with
  | nil => cases hread : readStringBytes fuel rest <;> simp [hread, Except.map]
  | cons b bytes ih =>
    obtain ⟨⟨hquote, hslash, hcontrol⟩, hrest⟩ := List.forall_mem_cons.mp h
    rw [List.length_cons, ← Nat.add_assoc, List.cons_append, readStringBytes, if_neg hquote,
      if_neg hslash, if_neg hcontrol, ih hrest]
    cases readStringBytes fuel rest <;> rfl

/-- Characters that are written with a backslash and a letter, which comes first. -/
def shortEscapes : List (Char × Char) :=
  [('\x22', '\x22'), ('\\', '\\'), ('n', '\n'), ('r', '\r'), ('t', '\t'), ('b', Char.ofNat 8),
    ('f', Char.ofNat 12)]

theorem shortEscapes_spec : ∀ e ∈ shortEscapes, e.1.toNat < 0x80 ∧
    ∀ rest, readEscape (code e.1 :: rest) = .ok (e.2, rest) := by
  simp only [shortEscapes, List.forall_mem_cons]
  refine ⟨?_, ?_, ?_, ?_, ?_, ?_, ?_, List.forall_mem_nil _⟩ <;>
    exact ⟨by decide, fun rest => rfl⟩

theorem hexValue?_digitChar : ∀ n < 16, hexValue? (code (Nat.digitChar n)) = some n := by decide

theorem readEscape_control {c : Char} (h : c.toNat < 0x20) (rest : Bytes) :
    readEscape (code 'u' :: code '0' :: code '0' :: code (Nat.digitChar (c.toNat / 16)) ::
      code (Nat.digitChar (c.toNat % 16)) :: rest) = .ok (c, rest) := by
  have hzero : hexValue? (code '0') = some 0 := rfl
  have hhigh := hexValue?_digitChar (c.toNat / 16) (by omega)
  have hlow := hexValue?_digitChar (c.toNat % 16) (by omega)
  have hvalue : 0 * 4096 + 0 * 256 + c.toNat / 16 * 16 + c.toNat % 16 = c.toNat := by omega
  have hhex : readHex (code '0' :: code '0' :: code (Nat.digitChar (c.toNat / 16)) ::
      code (Nat.digitChar (c.toNat % 16)) :: rest) = .ok (c.toNat, rest) := by
    rw [readHex, hzero, hhigh, hlow]
    dsimp only
    rw [hvalue]
  have hnotLow : isLowSurrogate c.toNat = false := by
    rw [isLowSurrogate, Bool.and_eq_false_iff]
    exact Or.inl (decide_eq_false (by omega))
  have hnotHigh : isHighSurrogate c.toNat = false := by
    rw [isHighSurrogate, Bool.and_eq_false_iff]
    exact Or.inl (decide_eq_false (by omega))
  rw [readEscape, if_pos rfl, readUnicode, hhex]
  change (if isLowSurrogate c.toNat then _ else _) = _
  rw [hnotLow, hnotHigh, Char.ofNat_toNat]
  rfl

/-- A character is written in one of three ways. -/
theorem escapeChar_cases (c : Char) :
    (∃ e, (e, c) ∈ shortEscapes ∧ JsonValue.escapeChar c = ['\\', e]) ∨
      (c.toNat < 0x20 ∧ JsonValue.escapeChar c =
        ['\\', 'u', '0', '0', Nat.digitChar (c.toNat / 16), Nat.digitChar (c.toNat % 16)]) ∨
      (c ≠ '\x22' ∧ c ≠ '\\' ∧ 0x20 ≤ c.toNat ∧ JsonValue.escapeChar c = [c]) := by
  have hnumber {n : Nat} (h : c.toNat = n) : c = Char.ofNat n := by rw [← h, Char.ofNat_toNat]
  unfold JsonValue.escapeChar
  split_ifs with hself hn hr ht hb hf hcontrol
  · left
    rcases hself with rfl | rfl
    · exact ⟨'\x22', by decide, rfl⟩
    · exact ⟨'\\', by decide, rfl⟩
  · subst hn
    exact Or.inl ⟨'n', by decide, rfl⟩
  · subst hr
    exact Or.inl ⟨'r', by decide, rfl⟩
  · subst ht
    exact Or.inl ⟨'t', by decide, rfl⟩
  · rw [hnumber hb]
    exact Or.inl ⟨'b', by decide, rfl⟩
  · rw [hnumber hf]
    exact Or.inl ⟨'f', by decide, rfl⟩
  · exact Or.inr (Or.inl ⟨hcontrol, rfl⟩)
  · rw [not_or] at hself
    exact Or.inr (Or.inr ⟨hself.1, hself.2, Nat.le_of_not_lt hcontrol, rfl⟩)

theorem isOrdinary_of_le {b : UInt8} (h : 0x80 ≤ b.toNat) : IsOrdinary b := by
  refine ⟨?_, ?_, fun hlt => ?_⟩
  · rintro rfl
    exact absurd h (by decide)
  · rintro rfl
    exact absurd h (by decide)
  · have hlt' : b.toNat < 0x20 := UInt8.lt_iff_toNat_lt.mp hlt
    omega

theorem isOrdinary_code {c : Char} (hascii : c.toNat < 0x80) (hquote : c ≠ '\x22')
    (hslash : c ≠ '\\') (hcontrol : 0x20 ≤ c.toNat) : IsOrdinary (code c) := by
  have hcode := toNat_code hascii
  have hne {d : Char} (hd : d.toNat < 0x80) (h : c ≠ d) : code c ≠ code d := fun heq => by
    have hnat := congrArg UInt8.toNat heq
    rw [hcode, toNat_code hd] at hnat
    exact h (Char.toNat_inj.mp hnat)
  refine ⟨hne (by decide) hquote, hne (by decide) hslash, fun hlt => ?_⟩
  have hlt' : (code c).toNat < 0x20 := UInt8.lt_iff_toNat_lt.mp hlt
  omega

/-- The bytes of a character that is not special stand for themselves. -/
theorem isOrdinary_of_mem_encode {c : Char} (hquote : c ≠ '\x22') (hslash : c ≠ '\\')
    (hcontrol : 0x20 ≤ c.toNat) : ∀ b ∈ Text.toUtf8 [c], IsOrdinary b := by
  by_cases hascii : c.toNat < 0x80
  · rw [Text.toUtf8_ascii hascii]
    exact List.forall_mem_singleton.mpr (isOrdinary_code hascii hquote hslash hcontrol)
  · have hval : c.val.toNat = c.toNat := rfl
    have hbound := Text.toNat_isScalar c
    have hbyte {n : Nat} (hlow : 0x80 ≤ n) (hhigh : n < 0x100) : IsOrdinary (UInt8.ofNat n) :=
      isOrdinary_of_le (by rwa [Text.toNat_ofNat_byte hhigh])
    rw [Text.toUtf8_cons, Text.toUtf8_nil, List.append_nil, String.utf8EncodeChar, hval,
      if_neg (by omega)]
    split_ifs
    · simp only [List.forall_mem_cons]
      exact ⟨hbyte (by omega) (by omega), hbyte (by omega) (by omega), List.forall_mem_nil _⟩
    · simp only [List.forall_mem_cons]
      exact ⟨hbyte (by omega) (by omega), hbyte (by omega) (by omega),
        hbyte (by omega) (by omega), List.forall_mem_nil _⟩
    · simp only [List.forall_mem_cons]
      exact ⟨hbyte (by omega) (by omega), hbyte (by omega) (by omega),
        hbyte (by omega) (by omega), hbyte (by omega) (by omega), List.forall_mem_nil _⟩

theorem readStringBytes_escape {c : Char} (written : Bytes) {rest : Bytes}
    (h : readEscape (written ++ rest) = .ok (c, rest)) (fuel : Nat) :
    readStringBytes (fuel + 1) (code '\\' :: (written ++ rest)) =
      (readStringBytes fuel rest).map fun (more, left) => (Text.toUtf8 [c] ++ more, left) := by
  rw [readStringBytes, if_neg (by decide), if_pos rfl, h]
  cases hread : readStringBytes fuel rest with
  | error stop =>
    change (readStringBytes fuel rest >>= _) = _
    rw [hread]
    rfl
  | ok found =>
    change (readStringBytes fuel rest >>= _) = _
    rw [hread]
    rfl

/-- Reading a written character gives its bytes and goes on with what comes after it. -/
theorem readStringBytes_escapeChar (c : Char) {fuel : Nat} {rest : Bytes}
    (h : (Text.toUtf8 (JsonValue.escapeChar c) ++ rest).length < fuel) :
    ∃ fuel', rest.length < fuel' ∧
      readStringBytes fuel (Text.toUtf8 (JsonValue.escapeChar c) ++ rest) =
        (readStringBytes fuel' rest).map fun (more, left) => (Text.toUtf8 [c] ++ more, left) := by
  rw [List.length_append] at h
  rcases escapeChar_cases c with ⟨e, hmem, hwritten⟩ | ⟨hcontrol, hwritten⟩ |
    ⟨hquote, hslash, hcontrol, hwritten⟩
  · obtain ⟨hascii, hescape⟩ := shortEscapes_spec _ hmem
    have hbytes : Text.toUtf8 ['\\', e] = [code '\\', code e] := by
      rw [Text.toUtf8_ascii (by decide), Text.toUtf8_ascii hascii, Text.toUtf8_nil]
    rw [hwritten, hbytes] at h ⊢
    obtain ⟨fuel, rfl⟩ : ∃ n, fuel = n + 1 := ⟨fuel - 1, by omega⟩
    refine ⟨fuel, ?_, readStringBytes_escape [code e] (hescape rest) fuel⟩
    rw [List.length_cons, List.length_singleton] at h
    omega
  · have hdigit : ∀ n < 16, (Nat.digitChar n).toNat < 0x80 := by decide
    have hbytes : Text.toUtf8
        ['\\', 'u', '0', '0', Nat.digitChar (c.toNat / 16), Nat.digitChar (c.toNat % 16)] =
        [code '\\', code 'u', code '0', code '0', code (Nat.digitChar (c.toNat / 16)),
          code (Nat.digitChar (c.toNat % 16))] := by
      refine Text.toUtf8_eq_map ?_
      simp only [List.forall_mem_cons]
      exact ⟨by decide, by decide, by decide, by decide, hdigit _ (by omega), hdigit _ (by omega),
        List.forall_mem_nil _⟩
    rw [hwritten, hbytes] at h ⊢
    obtain ⟨fuel, rfl⟩ : ∃ n, fuel = n + 1 := ⟨fuel - 1, by omega⟩
    refine ⟨fuel, ?_, readStringBytes_escape [_, _, _, _, _]
      (readEscape_control hcontrol rest) fuel⟩
    simp only [List.length_cons, List.length_nil] at h
    omega
  · rw [hwritten] at h ⊢
    obtain ⟨fuel, rfl⟩ : ∃ n, fuel = n + (Text.toUtf8 [c]).length :=
      ⟨fuel - (Text.toUtf8 [c]).length, by omega⟩
    exact ⟨fuel, by omega, readStringBytes_ordinary
      (isOrdinary_of_mem_encode hquote hslash hcontrol) fuel rest⟩

theorem readStringBytes_print (t : Text) {fuel : Nat} {rest : Bytes}
    (h : (Text.toUtf8 (t.flatMap JsonValue.escapeChar) ++ code '\x22' :: rest).length < fuel) :
    readStringBytes fuel (Text.toUtf8 (t.flatMap JsonValue.escapeChar) ++ code '\x22' :: rest) =
      .ok (Text.toUtf8 t, rest) := by
  induction t generalizing fuel with
  | nil =>
    cases fuel with
    | zero => cases h
    | succ fuel => rfl
  | cons c t ih =>
    rw [List.flatMap_cons, Text.toUtf8_append, List.append_assoc] at h ⊢
    obtain ⟨fuel', hlt, hread⟩ := readStringBytes_escapeChar c h
    rw [hread, ih hlt, ← List.singleton_append (l := t), Text.toUtf8_append]
    rfl

theorem readString_print (t : Text) (rest : Bytes) :
    readString (Text.toUtf8 (t.flatMap JsonValue.escapeChar) ++ code '\x22' :: rest) =
      .ok (t, rest) := by
  rw [readString, readStringBytes_print t (Nat.lt_succ_self _), ok_bind]
  dsimp only
  rw [Text.ofUtf8?_eq_some_iff.mpr rfl]

/-- Bytes that do not go on with a number. -/
def EndsNumber (bytes : Bytes) : Prop := ∀ b, bytes.head? = some b →
  isDigit b = false ∧ b ≠ code '.' ∧ b ≠ code 'e' ∧ b ≠ code 'E'

theorem endsNumber_nil : EndsNumber [] := fun b h => by cases h

theorem endsNumber_code {c : Char} (h : c ∈ [',', ']', '\x7d', '\n']) (rest : Bytes) :
    EndsNumber (code c :: rest) := by
  intro b hb
  cases hb
  simp only [List.mem_cons, List.not_mem_nil, or_false] at h
  rcases h with rfl | rfl | rfl | rfl <;> exact ⟨rfl, by decide, by decide, by decide⟩

theorem ne_of_isDigit {b : UInt8} {c : Char} (h : isDigit b) (hc : isDigit (code c) = false) :
    b ≠ code c := by
  rintro rfl
  rw [hc] at h
  cases h

theorem isDigit_code {c : Char} (h : c.isDigit) : c.toNat < 0x80 ∧ isDigit (code c) := by
  have hall : ∀ n < 10, isDigit (UInt8.ofNat (48 + n)) := by decide
  rw [Char.isDigit, Bool.and_eq_true, decide_eq_true_iff, decide_eq_true_iff] at h
  have hlow : 48 ≤ c.toNat := UInt32.le_iff_toNat_le.mp h.1
  have hhigh : c.toNat ≤ 57 := UInt32.le_iff_toNat_le.mp h.2
  have hbyte := hall (c.toNat - 48) (by omega)
  rw [Nat.add_sub_cancel' hlow] at hbyte
  exact ⟨by omega, hbyte⟩

theorem le_ofDigitChars (digits : List Char) (n : Nat) : n ≤ Nat.ofDigitChars 10 digits n := by
  induction digits generalizing n with
  | nil => exact Nat.le_refl n
  | cons c digits ih =>
    rw [Nat.ofDigitChars_cons]
    exact Nat.le_trans (by omega) (ih _)

theorem takeDigits_map {digits : List Char} (h : ∀ c ∈ digits, c.isDigit) {limit n : Nat}
    (hlimit : Nat.ofDigitChars 10 digits n < limit) :
    takeDigits limit n (digits.map code) = (Nat.ofDigitChars 10 digits n, []) := by
  induction digits generalizing n with
  | nil => rfl
  | cons c digits ih =>
    obtain ⟨hc, hrest⟩ := List.forall_mem_cons.mp h
    have hdigit : (code c).toNat - 48 = c.toNat - '0'.toNat := by
      rw [toNat_code (isDigit_code hc).1]
      rfl
    rw [Nat.ofDigitChars_cons] at hlimit ⊢
    have hnext : 10 * n + (c.toNat - '0'.toNat) < limit :=
      Nat.lt_of_le_of_lt (le_ofDigitChars digits _) hlimit
    rw [List.map_cons, takeDigits, hdigit, Nat.mul_comm n 10, if_pos hnext]
    exact ih hrest hlimit

theorem head_toDigits {n : Nat} (h : 0 < n) :
    ∃ d digits, Nat.toDigits 10 n = d :: digits ∧ d ≠ '0' := by
  induction n using Nat.strongRecOn with
  | ind n ih =>
    by_cases hlt : n < 10
    · refine ⟨Nat.digitChar n, [], Nat.toDigits_of_lt_base hlt, fun heq => ?_⟩
      exact Nat.ne_of_gt h (Nat.digitChar_eq_zero.mp heq)
    · obtain ⟨d, digits, heq, hne⟩ := ih (n / 10) (by omega) (by omega)
      refine ⟨d, digits ++ [Nat.digitChar (n % 10)], ?_, hne⟩
      rw [Nat.toDigits_of_base_le (by decide) (Nat.le_of_not_lt hlt), heq]
      rfl

variable {rest : Bytes}

theorem readFraction_of_ends (negative : Bool) (whole dropped : Nat) (h : EndsNumber rest) :
    readFraction negative whole dropped rest =
      numberOr (integer? negative whole dropped) rest := by
  cases rest with
  | nil => rfl
  | cons b rest =>
    obtain ⟨-, hpoint, he, hE⟩ := h b rfl
    rw [readFraction, List.head?_cons, if_neg (by simpa using hpoint), isExponentMark,
      if_neg (by simpa using ⟨he, hE⟩)]

theorem isDigit_of_mem_ofNat {n : Nat} {c : Char} (h : c ∈ Text.ofNat n) : c.isDigit :=
  Nat.isDigit_of_mem_toDigits (by decide) (by decide) h

theorem toUtf8_ofNat (n : Nat) : Text.toUtf8 (Text.ofNat n) = (Nat.toDigits 10 n).map code :=
  Text.toUtf8_eq_map fun _ hc => (isDigit_code (isDigit_of_mem_ofNat hc)).1

theorem readNumber_ofNat (negative : Bool) {n : Nat} (hn : n < digitsLimit) (h : EndsNumber rest) :
    readNumber negative (Text.toUtf8 (Text.ofNat n) ++ rest) =
      numberOr (integer? negative n 0) rest := by
  have hdigits : ∀ c ∈ Nat.toDigits 10 n, c.isDigit := fun _ => isDigit_of_mem_ofNat
  have hrest (b : UInt8) (hb : rest.head? = some b) : isDigit b = false := (h b hb).1
  rcases Nat.eq_zero_or_pos n with rfl | hpos
  · rw [toUtf8_ofNat, Nat.toDigits_zero]
    have hany : rest.head?.any isDigit = false := by
      cases rest with
      | nil => rfl
      | cons b rest => exact hrest b rfl
    change (if rest.head?.any isDigit then _ else readFraction negative 0 0 rest) = _
    rw [hany]
    exact readFraction_of_ends negative 0 0 h
  · obtain ⟨d, digits, heq, hne⟩ := head_toDigits hpos
    have hall : ∀ b ∈ (Nat.toDigits 10 n).map code, isDigit b :=
      List.forall_mem_map.mpr fun c hc => (isDigit_code (hdigits c hc)).2
    have hnone : rest.takeWhile isDigit = [] ∧ rest.dropWhile isDigit = rest := by
      cases rest with
      | nil => exact ⟨rfl, rfl⟩
      | cons b rest =>
        have hb := Bool.eq_false_iff.mp (hrest b rfl)
        exact ⟨List.takeWhile_cons_of_neg hb, List.dropWhile_cons_of_neg hb⟩
    have htake : ((Nat.toDigits 10 n).map code ++ rest).takeWhile isDigit =
        (Nat.toDigits 10 n).map code := by
      rw [List.takeWhile_append_of_pos hall, hnone.1, List.append_nil]
    have hdrop : ((Nat.toDigits 10 n).map code ++ rest).dropWhile isDigit = rest := by
      rw [List.dropWhile_append_of_pos hall, hnone.2]
    have hfirst : code d ≠ code '0' := fun hcode => by
      have hnat := congrArg UInt8.toNat hcode
      have hd := (isDigit_code (hdigits d (by rw [heq]; exact List.mem_cons_self))).1
      rw [toNat_code hd, toNat_code (by decide)] at hnat
      exact hne (Char.toNat_inj.mp hnat)
    have hdigit : isDigit (code d) := hall _ (by rw [heq]; exact List.mem_cons_self)
    have htaken : takeDigits digitsLimit 0 ((Nat.toDigits 10 n).map code) = (n, []) := by
      rw [takeDigits_map hdigits (by rwa [Nat.ofDigitChars_ten_toDigits]),
        Nat.ofDigitChars_ten_toDigits]
    rw [toUtf8_ofNat]
    rw [heq, List.map_cons, List.cons_append] at htake hdrop ⊢
    rw [readNumber, if_neg hfirst, if_pos hdigit]
    rw [htake, hdrop, ← List.map_cons, ← heq, htaken]
    exact readFraction_of_ends negative n 0 h

theorem isSpace_of_isDigit {b : UInt8} (h : isDigit b) : isSpace b = false := by
  simp only [isSpace, Bool.or_eq_false_iff, beq_eq_false_iff_ne]
  exact ⟨⟨⟨ne_of_isDigit h rfl, ne_of_isDigit h rfl⟩, ne_of_isDigit h rfl⟩, ne_of_isDigit h rfl⟩

theorem readShape_digit (inner? : Option Inner) {b : UInt8} (h : isDigit b) :
    readShape inner? (b :: rest) = readNumber false (b :: rest) := by
  rw [readShape, skipSpace,
    List.dropWhile_cons_of_neg (Bool.eq_false_iff.mp (isSpace_of_isDigit h))]
  dsimp only
  rw [if_neg (ne_of_isDigit h rfl), if_neg (ne_of_isDigit h rfl), if_neg (ne_of_isDigit h rfl),
    if_neg (ne_of_isDigit h rfl), if_pos h]

/-- A printed integer is read back. -/
theorem readShape_int (inner? : Option Inner) {n : Int} (hfits : JsonValue.FitsWord n)
    (h : EndsNumber rest) :
    readShape inner? (Text.toUtf8 (JsonValue.printNumber (.int n)) ++ rest) =
      .ok (.number (.int n), rest) := by
  obtain ⟨hlow, hhigh⟩ := hfits
  cases n with
  | ofNat n =>
    have hlt : n < Nat.pow 2 64 := Int.ofNat_lt.mp hhigh
    obtain ⟨b, bytes, heq⟩ := List.exists_cons_of_ne_nil (l := Text.toUtf8 (Text.ofNat n))
      (by rw [toUtf8_ofNat, Ne, List.map_eq_nil_iff]; exact Nat.toDigits_ne_nil)
    have hb : isDigit b := by
      have hall : ∀ b ∈ Text.toUtf8 (Text.ofNat n), isDigit b := by
        rw [toUtf8_ofNat]
        exact List.forall_mem_map.mpr fun _ hc => (isDigit_code (isDigit_of_mem_ofNat hc)).2
      exact hall b (by rw [heq]; exact List.mem_cons_self)
    have hvalue : integer? false n 0 = some (.int n) := if_pos ⟨rfl, hlt⟩
    have hread := readNumber_ofNat false hlt h
    rw [hvalue, heq] at hread
    change readShape inner? (Text.toUtf8 (Text.ofNat n) ++ rest) = _
    rw [heq, List.cons_append, readShape_digit inner? hb]
    exact hread
  | negSucc n =>
    have hle : n + 1 ≤ Nat.pow 2 63 := by
      have hnat : -(0x8000000000000000 : Int) ≤ -((n + 1 : Nat) : Int) := hlow
      exact Int.ofNat_le.mp (Int.neg_le_neg_iff.mp hnat)
    have hvalue : integer? true (n + 1) 0 = some (.int (Int.negSucc n)) :=
      if_pos ⟨rfl, Nat.succ_pos n, hle⟩
    have hread := readNumber_ofNat true (Nat.lt_of_le_of_lt hle (by decide)) h
    rw [hvalue] at hread
    change readShape inner? (Text.toUtf8 ('-' :: Text.ofNat (n + 1)) ++ rest) = _
    rw [Text.toUtf8_ascii (by decide)]
    exact hread

end JsonReader
end NamespaceMigration
