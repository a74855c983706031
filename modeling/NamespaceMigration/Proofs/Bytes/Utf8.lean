import Mathlib.Data.List.Basic
import NamespaceMigration.Proofs.Fallible
import NamespaceMigration.Text.Utf8

/-! The UTF-8 encoding loses nothing. Reading the encoding of a text gives the text, and whatever is
read from some bytes encodes them again. -/
namespace NamespaceMigration

namespace Text

@[simp]
theorem toUtf8_nil : toUtf8 [] = [] := rfl

theorem toUtf8_cons (c : Char) (t : Text) : toUtf8 (c :: t) = String.utf8EncodeChar c ++ toUtf8 t :=
  List.flatMap_cons

theorem toUtf8_append (s t : Text) : toUtf8 (s ++ t) = toUtf8 s ++ toUtf8 t := List.flatMap_append

theorem length_toUtf8 (t : Text) : (toUtf8 t).length = byteSize t := by
  induction t with
  | nil => rfl
  | cons c t ih => rw [toUtf8_cons, List.length_append, String.length_utf8EncodeChar, ih, byteSize]

theorem toNat_ofNat_byte {n : Nat} (h : n < 256) : (UInt8.ofNat n).toNat = n := by
  rw [UInt8.toNat_ofNat', Nat.mod_eq_of_lt h]

theorem ofNat_eq_byte {n : Nat} {b : UInt8} (h : n = b.toNat) : UInt8.ofNat n = b := by
  rw [h, UInt8.ofNat_toNat]

section Continue

variable {value read left code : Nat} {range : ByteRange} {b : UInt8} {bytes rest : Bytes}

theorem continueChar_cons (h : range.1 ≤ b.toNat ∧ b.toNat ≤ range.2) :
    continueChar value read range (left + 1) (b :: rest) =
      continueChar (value * 0x40 + (b.toNat - 0x80)) (read + 1) continuationRange left rest := by
  rw [continueChar, if_pos h]

theorem continueChar_eq_ok (h : continueChar value read range (left + 1) bytes = .ok code) :
    ∃ b rest, bytes = b :: rest ∧ range.1 ≤ b.toNat ∧ b.toNat ≤ range.2 ∧
      continueChar (value * 0x40 + (b.toNat - 0x80)) (read + 1) continuationRange left rest =
        .ok code := by
  cases bytes with
  | nil => cases h
  | cons b rest =>
    rw [continueChar] at h
    split at h
    · rename_i hrange
      exact ⟨b, rest, rfl, hrange.1, hrange.2, h⟩
    · cases h

end Continue

theorem secondRange_spec {lead b : Nat} (hlow : (secondRange lead).1 ≤ b)
    (hhigh : b ≤ (secondRange lead).2) :
    0x80 ≤ b ∧ b ≤ 0xBF ∧ (lead = 0xE0 → 0xA0 ≤ b) ∧ (lead = 0xED → b ≤ 0x9F) ∧
      (lead = 0xF0 → 0x90 ≤ b) ∧ (lead = 0xF4 → b ≤ 0x8F) := by
  unfold secondRange continuationRange at hlow hhigh
  split_ifs at hlow hhigh <;> dsimp only at hlow hhigh <;> omega

theorem toNat_isScalar (c : Char) :
    c.toNat < 0xD800 ∨ (0xDFFF < c.toNat ∧ c.toNat < 0x110000) := c.valid

theorem toNat_ofNat_char {n : Nat} (h : n < 0xD800 ∨ (0xDFFF < n ∧ n < 0x110000)) :
    (Char.ofNat n).toNat = n := by
  have hvalid : n.isValidChar := h
  rw [Char.ofNat, dif_pos hvalid]
  rfl

/-- The first byte of a character tells how many more there are, and all of them the character. -/
theorem firstChar_encode (c : Char) : ∃ lead tail, String.utf8EncodeChar c = lead :: tail ∧
    ∀ rest, firstChar lead (tail ++ rest) = .ok (c, tail.length) := by
  have hc := toNat_isScalar c
  have hofNat : Char.ofNat c.toNat = c := Char.ofNat_toNat c
  have hval : c.val.toNat = c.toNat := rfl
  unfold String.utf8EncodeChar
  dsimp only
  rw [hval]
  split_ifs with hone htwo hthree
  · refine ⟨_, _, rfl, fun rest => ?_⟩
    have hlead := toNat_ofNat_byte (n := c.toNat) (by omega)
    rw [firstChar]
    dsimp only
    rw [hlead, if_pos (by omega), hofNat]
    rfl
  · refine ⟨_, _, rfl, fun rest => ?_⟩
    have hlead := toNat_ofNat_byte (n := c.toNat / 64 % 32 + 192) (by omega)
    have hb := toNat_ofNat_byte (n := c.toNat % 64 + 128) (by omega)
    have hvalue : (c.toNat / 64 % 32 + 192 - 192) * 64 + (c.toNat % 64 + 128 - 128) = c.toNat := by
      omega
    rw [firstChar]
    dsimp only
    rw [hlead, if_neg (by omega), if_pos (by omega), List.cons_append, continueChar_cons]
    · rw [continueChar, hb, hvalue, Except.map, hofNat]
      rfl
    · simp only [secondRange, continuationRange, hb]
      split_ifs <;> dsimp only <;> omega
  · refine ⟨_, _, rfl, fun rest => ?_⟩
    have hlead := toNat_ofNat_byte (n := c.toNat / 4096 % 16 + 224) (by omega)
    have hb := toNat_ofNat_byte (n := c.toNat / 64 % 64 + 128) (by omega)
    have hb' := toNat_ofNat_byte (n := c.toNat % 64 + 128) (by omega)
    have hvalue : ((c.toNat / 4096 % 16 + 224 - 224) * 64 + (c.toNat / 64 % 64 + 128 - 128)) * 64 +
        (c.toNat % 64 + 128 - 128) = c.toNat := by
      omega
    rw [firstChar]
    dsimp only
    rw [hlead, if_neg (by omega), if_neg (by omega), if_pos (by omega), List.cons_append,
      continueChar_cons, List.cons_append, continueChar_cons]
    · rw [continueChar, hb, hb', hvalue, Except.map, hofNat]
      rfl
    · simp only [continuationRange, hb']
      omega
    · simp only [secondRange, continuationRange, hb]
      split_ifs <;> dsimp only <;> omega
  · refine ⟨_, _, rfl, fun rest => ?_⟩
    have hlead := toNat_ofNat_byte (n := c.toNat / 262144 % 8 + 240) (by omega)
    have hb := toNat_ofNat_byte (n := c.toNat / 4096 % 64 + 128) (by omega)
    have hb' := toNat_ofNat_byte (n := c.toNat / 64 % 64 + 128) (by omega)
    have hb'' := toNat_ofNat_byte (n := c.toNat % 64 + 128) (by omega)
    have hvalue : (((c.toNat / 262144 % 8 + 240 - 240) * 64 + (c.toNat / 4096 % 64 + 128 - 128)) *
        64 + (c.toNat / 64 % 64 + 128 - 128)) * 64 + (c.toNat % 64 + 128 - 128) = c.toNat := by
      omega
    rw [firstChar]
    dsimp only
    rw [hlead, if_neg (by omega), if_neg (by omega), if_neg (by omega), if_pos (by omega),
      List.cons_append, continueChar_cons, List.cons_append, continueChar_cons, List.cons_append,
      continueChar_cons]
    · rw [continueChar, hb, hb', hb'', hvalue, Except.map, hofNat]
      rfl
    · simp only [continuationRange, hb'']
      omega
    · simp only [continuationRange, hb']
      omega
    · simp only [secondRange, continuationRange, hb]
      split_ifs <;> dsimp only <;> omega

theorem encode_ofNat {n : Nat} (h : n < 0xD800 ∨ (0xDFFF < n ∧ n < 0x110000)) :
    String.utf8EncodeChar (Char.ofNat n) =
      if n ≤ 0x7F then [UInt8.ofNat n]
      else if n ≤ 0x7FF then [UInt8.ofNat (n / 64 % 32 + 0xC0), UInt8.ofNat (n % 64 + 0x80)]
      else if n ≤ 0xFFFF then
        [UInt8.ofNat (n / 4096 % 16 + 0xE0), UInt8.ofNat (n / 64 % 64 + 0x80),
          UInt8.ofNat (n % 64 + 0x80)]
      else
        [UInt8.ofNat (n / 262144 % 8 + 0xF0), UInt8.ofNat (n / 4096 % 64 + 0x80),
          UInt8.ofNat (n / 64 % 64 + 0x80), UInt8.ofNat (n % 64 + 0x80)] := by
  have hval : (Char.ofNat n).val.toNat = n := toNat_ofNat_char h
  unfold String.utf8EncodeChar
  dsimp only
  rw [hval]

/-- A character that is read takes the bytes that encode it. -/
theorem encode_of_firstChar {lead : UInt8} {rest : Bytes} {c : Char} {extra : Nat}
    (h : firstChar lead rest = .ok (c, extra)) :
    String.utf8EncodeChar c ++ rest.drop extra = lead :: rest := by
  have hbyte := lead.toNat_lt
  rw [firstChar] at h
  dsimp only at h
  split_ifs at h with hone htwo hthree hfour
  · cases h
    rw [encode_ofNat (by omega), if_pos (by omega), UInt8.ofNat_toNat]
    rfl
  · obtain ⟨code, hcontinue, heq⟩ := map_eq_ok h
    cases heq
    obtain ⟨b, rest, rfl, hlow, hhigh, hend⟩ := continueChar_eq_ok hcontinue
    obtain ⟨hb, hb', -⟩ := secondRange_spec hlow hhigh
    rw [continueChar, Except.ok.injEq] at hend
    rw [encode_ofNat (by omega), if_neg (by omega), if_pos (by omega),
      ofNat_eq_byte (b := lead) (by omega), ofNat_eq_byte (b := b) (by omega)]
    rfl
  · obtain ⟨code, hcontinue, heq⟩ := map_eq_ok h
    cases heq
    obtain ⟨b, rest, rfl, hlow, hhigh, hmore⟩ := continueChar_eq_ok hcontinue
    obtain ⟨b', rest, rfl, hlow', hhigh', hend⟩ := continueChar_eq_ok hmore
    have hb := secondRange_spec hlow hhigh
    dsimp only [continuationRange] at hlow' hhigh'
    rw [continueChar, Except.ok.injEq] at hend
    rw [encode_ofNat (by omega), if_neg (by omega), if_neg (by omega), if_pos (by omega),
      ofNat_eq_byte (b := lead) (by omega), ofNat_eq_byte (b := b) (by omega),
      ofNat_eq_byte (b := b') (by omega)]
    rfl
  · obtain ⟨code, hcontinue, heq⟩ := map_eq_ok h
    cases heq
    obtain ⟨b, rest, rfl, hlow, hhigh, hmore⟩ := continueChar_eq_ok hcontinue
    obtain ⟨b', rest, rfl, hlow', hhigh', hmore'⟩ := continueChar_eq_ok hmore
    obtain ⟨b'', rest, rfl, hlow'', hhigh'', hend⟩ := continueChar_eq_ok hmore'
    have hb := secondRange_spec hlow hhigh
    dsimp only [continuationRange] at hlow' hhigh' hlow'' hhigh''
    rw [continueChar, Except.ok.injEq] at hend
    rw [encode_ofNat (by omega), if_neg (by omega), if_neg (by omega), if_neg (by omega),
      ofNat_eq_byte (b := lead) (by omega), ofNat_eq_byte (b := b) (by omega),
      ofNat_eq_byte (b := b') (by omega), ofNat_eq_byte (b := b'') (by omega)]
    rfl

/-- With enough fuel, reading goes on to the end of an encoded text. -/
theorem ofUtf8From_toUtf8 (t : Text) {fuel : Nat} (h : (toUtf8 t).length ≤ fuel) :
    ofUtf8From fuel (toUtf8 t) = (t, []) := by
  induction t generalizing fuel with
  | nil => cases fuel <;> rfl
  | cons c t ih =>
    obtain ⟨lead, tail, hencode, hfirst⟩ := firstChar_encode c
    rw [toUtf8_cons, hencode] at h ⊢
    cases fuel with
    | zero => cases h
    | succ fuel =>
      have hle : (toUtf8 t).length ≤ fuel := by
        rw [List.cons_append, List.length_cons, List.length_append] at h
        omega
      rw [List.cons_append, ofUtf8From, hfirst]
      dsimp only
      rw [List.drop_left, ih hle]

theorem ofUtf8_toUtf8 (t : Text) : ofUtf8 (toUtf8 t) = (t, []) := ofUtf8From_toUtf8 t (Nat.le_refl _)

theorem toUtf8_ofUtf8From (fuel : Nat) (bytes : Bytes) :
    toUtf8 (ofUtf8From fuel bytes).1 ++ (ofUtf8From fuel bytes).2 = bytes := by
  induction fuel generalizing bytes with
  | zero => rfl
  | succ fuel ih =>
    cases bytes with
    | nil => rfl
    | cons lead rest =>
      rw [ofUtf8From]
      cases hfirst : firstChar lead rest with
      | error _ => rfl
      | ok found =>
        obtain ⟨c, extra⟩ := found
        dsimp only
        rw [toUtf8_cons, List.append_assoc, ih, encode_of_firstChar hfirst]

theorem toUtf8_ofUtf8 (bytes : Bytes) : toUtf8 (ofUtf8 bytes).1 ++ (ofUtf8 bytes).2 = bytes :=
  toUtf8_ofUtf8From _ _

theorem ofUtf8?_eq_some_iff {bytes : Bytes} {t : Text} : ofUtf8? bytes = some t ↔ toUtf8 t = bytes := by
  constructor
  · intro h
    have hall := toUtf8_ofUtf8 bytes
    rw [ofUtf8?] at h
    split at h
    · rename_i hread
      cases h
      rwa [hread, List.append_nil] at hall
    · cases h
  · rintro rfl
    rw [ofUtf8?, ofUtf8_toUtf8]

/-- An encoded text at the start of some bytes is read as it is. -/
theorem prefix_ofUtf8From (t : Text) (rest : Bytes) {fuel : Nat} (h : (toUtf8 t).length ≤ fuel) :
    t <+: (ofUtf8From fuel (toUtf8 t ++ rest)).1 := by
  induction t generalizing fuel with
  | nil => exact List.nil_prefix
  | cons c t ih =>
    obtain ⟨lead, tail, hencode, hfirst⟩ := firstChar_encode c
    rw [toUtf8_cons, hencode] at h ⊢
    cases fuel with
    | zero => cases h
    | succ fuel =>
      have hle : (toUtf8 t).length ≤ fuel := by
        rw [List.cons_append, List.length_cons, List.length_append] at h
        omega
      rw [List.cons_append, List.cons_append, List.append_assoc, ofUtf8From, hfirst]
      dsimp only
      rw [List.drop_left, List.prefix_cons_inj]
      exact ih hle

/-- The longest text that some bytes begin with. -/
def IsValidPart (valid : Text) (bytes : Bytes) : Prop :=
  toUtf8 valid <+: bytes ∧ ∀ t, toUtf8 t <+: bytes → t <+: valid

theorem ofUtf8_isValidPart (bytes : Bytes) : IsValidPart (ofUtf8 bytes).1 bytes := by
  refine ⟨⟨_, toUtf8_ofUtf8 bytes⟩, ?_⟩
  rintro t ⟨rest, rfl⟩
  refine prefix_ofUtf8From t rest ?_
  rw [List.length_append]
  exact Nat.le_add_right _ _

theorem toUtf8_injective : Function.Injective toUtf8 := by
  intro s t h
  have hs : ofUtf8? (toUtf8 t) = some s := ofUtf8?_eq_some_iff.mpr h
  rw [ofUtf8?_eq_some_iff.mpr rfl] at hs
  exact (Option.some.inj hs).symm

end Text
end NamespaceMigration
