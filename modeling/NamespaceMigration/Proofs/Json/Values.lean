import NamespaceMigration.Proofs.Fallible
import NamespaceMigration.Proofs.Json.Storable
import NamespaceMigration.Json.Reader

/-! What the reader gives: canonical values, which can be stored again unless they hold floats. -/
namespace NamespaceMigration
namespace JsonReader

open JsonValue (Storable FloatFree FitsWord Ascending)

/-- Canonical, and without floats also storable. -/
def IsReading (depth : Nat) (v : JsonValue) : Prop :=
  v.canonical = v ∧ (v.FloatFree → v.Storable depth)

variable {bytes rest : Bytes} {v : JsonValue}

theorem readWord_eq_ok {value : JsonValue} {letters : List Char}
    (h : readWord value letters bytes = .ok (v, rest)) : v = value := by
  induction letters generalizing bytes with
  | nil =>
    cases h
    rfl
  | cons letter letters ih =>
    cases bytes with
    | nil => cases h
    | cons b bytes =>
      rw [readWord] at h
      split_ifs at h
      · exact ih h
      · cases h

/-- A number whose integer fits. -/
def IsNumber (v : JsonValue) : Prop := ∃ n, v = .number n ∧ ∀ k, n = .int k → FitsWord k

theorem integer?_fits {negative : Bool} {n dropped : Nat} {k : Int}
    (h : integer? negative n dropped = some (.int k)) : FitsWord k := by
  unfold integer? at h
  split_ifs at h with hnegative hfits hfits
  · cases h
    have hle : n ≤ 0x8000000000000000 := hfits.2.2
    exact ⟨by omega, by omega⟩
  · cases hfloat : Binary64.ofDecimal? negative n dropped <;> rw [hfloat] at h <;> cases h
  · cases h
    have hlt : n < 0x10000000000000000 := hfits.2
    exact ⟨by omega, by omega⟩
  · cases hfloat : Binary64.ofDecimal? negative n dropped <;> rw [hfloat] at h <;> cases h

theorem numberOr_eq_ok {number? : Option JsonNumber} (h : numberOr number? bytes = .ok (v, rest)) :
    ∃ n, number? = some n ∧ v = .number n := by
  cases number? with
  | none => cases h
  | some n =>
    cases h
    exact ⟨n, rfl, rfl⟩

theorem isNumber_of_float {x? : Option Binary64}
    (h : numberOr (x?.map .float) bytes = .ok (v, rest)) : IsNumber v := by
  obtain ⟨n, hn, rfl⟩ := numberOr_eq_ok h
  refine ⟨n, rfl, fun k hk => ?_⟩
  subst hk
  cases x? <;> cases hn

theorem isNumber_float (x : Binary64) : IsNumber (.number (.float x)) :=
  ⟨.float x, rfl, fun _ hk => nomatch hk⟩

theorem readExponent_isNumber {negative : Bool} {n : Nat} {exponent : Int}
    (h : readExponent negative n exponent bytes = .ok (v, rest)) : IsNumber v := by
  unfold readExponent at h
  dsimp only at h
  split at h
  · cases h
  · split at h
    · cases h
    · split at h
      · exact isNumber_of_float h
      · split at h
        · cases h
        · cases h
          exact isNumber_float (.zero negative)

theorem readFraction_isNumber {negative : Bool} {whole dropped : Nat}
    (h : readFraction negative whole dropped bytes = .ok (v, rest)) : IsNumber v := by
  unfold readFraction at h
  dsimp only at h
  split_ifs at h
  · cases h
  · cases h
  · exact readExponent_isNumber h
  · exact isNumber_of_float h
  · exact readExponent_isNumber h
  · obtain ⟨n, hn, rfl⟩ := numberOr_eq_ok h
    refine ⟨n, rfl, fun k hk => ?_⟩
    subst hk
    exact integer?_fits hn

theorem readNumber_isNumber {negative : Bool} (h : readNumber negative bytes = .ok (v, rest)) :
    IsNumber v := by
  cases bytes with
  | nil => cases h
  | cons b bytes =>
    rw [readNumber] at h
    split_ifs at h
    · cases h
    · exact readFraction_isNumber h
    · exact readFraction_isNumber h
    · cases h

section Containers

variable {P : JsonValue → Prop} {inner : Inner}

theorem readItems_forall (hinner : ∀ bytes v rest, inner bytes = .ok (v, rest) → P v) {fuel : Nat}
    {items : List JsonValue} (h : readItems inner fuel bytes = .ok (items, rest)) :
    ∀ v ∈ items, P v := by
  induction fuel generalizing bytes items rest with
  | zero => cases h
  | succ fuel ih =>
    obtain ⟨⟨item, bytes'⟩, hitem, h⟩ := bind_eq_ok h
    obtain ⟨⟨goOn, bytes''⟩, -, h⟩ := bind_eq_ok h
    have hfirst := hinner _ _ _ hitem
    dsimp only at h
    split_ifs at h
    · obtain ⟨⟨more, _⟩, hmore, h⟩ := bind_eq_ok h
      cases h
      exact List.forall_mem_cons.mpr ⟨hfirst, ih hmore⟩
    · cases h
      exact List.forall_mem_singleton.mpr hfirst

theorem readMembers_forall (hinner : ∀ bytes v rest, inner bytes = .ok (v, rest) → P v)
    {fuel : Nat} {found members : List (Text × JsonValue)}
    (h : readMembers inner fuel found bytes = .ok (members, rest)) (hascending : Ascending found)
    (hfound : ∀ m ∈ found, P m.2) : Ascending members ∧ ∀ m ∈ members, P m.2 := by
  induction fuel generalizing bytes found with
  | zero => cases h
  | succ fuel ih =>
    obtain ⟨⟨key, bytes'⟩, -, h⟩ := bind_eq_ok h
    obtain ⟨bytes', -, h⟩ := bind_eq_ok h
    obtain ⟨⟨value, bytes'⟩, hvalue, h⟩ := bind_eq_ok h
    obtain ⟨⟨goOn, bytes'⟩, -, h⟩ := bind_eq_ok h
    have hascending' : Ascending (JsonValue.insert key value found) :=
      JsonValue.ascending_insert hascending
    have hfound' : ∀ m ∈ JsonValue.insert key value found, P m.2 := fun m hm => by
      rcases JsonValue.mem_insert hm with rfl | hm
      · exact hinner _ _ _ hvalue
      · exact hfound m hm
    dsimp only at h
    split_ifs at h
    · exact ih h hascending' hfound'
    · cases h
      exact ⟨hascending', hfound'⟩

end Containers

theorem isReading_scalar {depth : Nat} (hcanonical : v.canonical = v) (hstorable : v.Storable depth) :
    IsReading depth v :=
  ⟨hcanonical, fun _ => hstorable⟩

theorem isReading_number {depth : Nat} (h : IsNumber v) : IsReading depth v := by
  obtain ⟨n, rfl, hfits⟩ := h
  refine ⟨rfl, fun hfree => ?_⟩
  cases hfree with
  | int k => exact .int (hfits k rfl)

theorem isReading_array {depth : Nat} {items : List JsonValue} (h : ∀ v ∈ items, IsReading depth v) :
    IsReading (depth + 1) (.array items) := by
  constructor
  · rw [JsonValue.canonical, JsonValue.canonicalItems_eq_map]
    exact congrArg _ ((List.map_congr_left fun v hv => (h v hv).1).trans (List.map_id' items))
  · intro hfree
    cases hfree with
    | array hfree => exact .array fun v hv => (h v hv).2 (hfree v hv)

theorem isReading_object {depth : Nat} {members : List (Text × JsonValue)}
    (hascending : Ascending members) (h : ∀ m ∈ members, IsReading depth m.2) : IsReading (depth + 1) (.object members) := by
  constructor
  · rw [JsonValue.canonical, JsonValue.canonicalMembers_of_ascending]
    · rfl
    · exact hascending
    · exact fun m hm => (h m hm).1
  · intro hfree
    cases hfree with
    | object hfree => exact .object fun m hm => (h m hm).2 (hfree m hm)

theorem readShape_eq_ok {inner? : Option Inner} (h : readShape inner? bytes = .ok (v, rest)) :
    (∀ depth, IsReading depth v) ∨
      ∃ inner bytes', inner? = some inner ∧
        (readList inner bytes' = .ok (v, rest) ∨ readObject inner bytes' = .ok (v, rest)) := by
  unfold readShape at h
  split at h
  · cases h
  · split_ifs at h
    · exact Or.inl fun depth => readWord_eq_ok h ▸ isReading_scalar rfl .null
    · exact Or.inl fun depth => readWord_eq_ok h ▸ isReading_scalar rfl (.bool true)
    · exact Or.inl fun depth => readWord_eq_ok h ▸ isReading_scalar rfl (.bool false)
    · exact Or.inl fun depth => isReading_number (readNumber_isNumber h)
    · exact Or.inl fun depth => isReading_number (readNumber_isNumber h)
    · obtain ⟨⟨t, _⟩, -, h⟩ := map_eq_ok h
      cases h
      exact Or.inl fun depth => isReading_scalar rfl (.string t)
    · cases inner? with
      | none => cases h
      | some inner => exact Or.inr ⟨inner, _, rfl, Or.inl h⟩
    · cases inner? with
      | none => cases h
      | some inner => exact Or.inr ⟨inner, _, rfl, Or.inr h⟩
    · cases h

theorem readList_isReading {inner : Inner} {depth : Nat}
    (hinner : ∀ bytes v rest, inner bytes = .ok (v, rest) → IsReading depth v)
    (h : readList inner bytes = .ok (v, rest)) : IsReading (depth + 1) v := by
  unfold readList at h
  split at h
  · cases h
  · split_ifs at h
    · cases h
      exact isReading_array (List.forall_mem_nil _)
    · obtain ⟨⟨items, _⟩, hitems, h⟩ := map_eq_ok h
      cases h
      exact isReading_array (readItems_forall hinner hitems)

theorem readObject_isReading {inner : Inner} {depth : Nat}
    (hinner : ∀ bytes v rest, inner bytes = .ok (v, rest) → IsReading depth v)
    (h : readObject inner bytes = .ok (v, rest)) : IsReading (depth + 1) v := by
  unfold readObject at h
  split at h
  · cases h
  · split_ifs at h
    · cases h
      exact isReading_object List.Pairwise.nil (List.forall_mem_nil _)
    · obtain ⟨⟨members, _⟩, hmembers, h⟩ := map_eq_ok h
      cases h
      obtain ⟨hascending, hall⟩ :=
        readMembers_forall hinner hmembers List.Pairwise.nil (List.forall_mem_nil _)
      exact isReading_object hascending hall
    · cases h

theorem readValue_isReading {depth : Nat} (h : readValue depth bytes = .ok (v, rest)) :
    IsReading depth v := by
  induction depth generalizing bytes v rest with
  | zero =>
    rcases readShape_eq_ok h with hscalar | ⟨_, _, hnone, -⟩
    · exact hscalar 0
    · cases hnone
  | succ depth ih =>
    rcases readShape_eq_ok h with hscalar | ⟨inner, bytes', hinner, h⟩
    · exact hscalar (depth + 1)
    · cases hinner
      have hvalues : ∀ bytes v rest, readValue depth bytes = .ok (v, rest) → IsReading depth v :=
        fun _ _ _ => ih
      rcases h with h | h
      · exact readList_isReading hvalues h
      · exact readObject_isReading hvalues h

theorem read_isReading (h : read bytes = .ok v) : IsReading maxDepth v := by
  obtain ⟨⟨value, left⟩, hvalue, h⟩ := bind_eq_ok (mapError_eq_ok h)
  dsimp only at h
  split at h
  · cases h
    exact readValue_isReading hvalue
  · cases h

end JsonReader
end NamespaceMigration
