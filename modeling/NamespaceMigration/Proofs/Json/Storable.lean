import Mathlib.Data.List.Nodup
import NamespaceMigration.Proofs.Json.Canonical

/-! Values that a document can hold without loss: no floats, integers of 64 bits, and no deeper than a
reader goes. Putting them into canonical form keeps them so, and a second time changes nothing. -/
namespace NamespaceMigration
namespace JsonValue

/-- No number inside is a float. -/
inductive FloatFree : JsonValue → Prop
  | null : FloatFree .null
  | bool (b : Bool) : FloatFree (.bool b)
  | int (n : Int) : FloatFree (.number (.int n))
  | string (t : Text) : FloatFree (.string t)
  | array {items : List JsonValue} : (∀ v ∈ items, FloatFree v) → FloatFree (.array items)
  | object {members : List (Text × JsonValue)} :
      (∀ member ∈ members, FloatFree member.2) → FloatFree (.object members)

/-- Whether an integer is one of 64 bits, with a sign or without. -/
def FitsWord (n : Int) : Prop := -0x8000000000000000 ≤ n ∧ n < 0x10000000000000000

/-- All numbers are integers that fit, and lists and objects nest at most `depth` deep. -/
inductive Storable : (depth : Nat) → JsonValue → Prop
  | null {depth : Nat} : Storable depth .null
  | bool {depth : Nat} (b : Bool) : Storable depth (.bool b)
  | int {depth : Nat} {n : Int} : FitsWord n → Storable depth (.number (.int n))
  | string {depth : Nat} (t : Text) : Storable depth (.string t)
  | array {depth : Nat} {items : List JsonValue} :
      (∀ v ∈ items, Storable depth v) → Storable (depth + 1) (.array items)
  | object {depth : Nat} {members : List (Text × JsonValue)} :
      (∀ member ∈ members, Storable depth member.2) → Storable (depth + 1) (.object members)

variable {depth : Nat} {v : JsonValue}

theorem Storable.nat {n : Nat} (h : n < 0x10000000000000000) : Storable depth (.nat n) :=
  .int ⟨by omega, by omega⟩

theorem Storable.mono {deeper : Nat} (h : v.Storable depth) (hle : depth ≤ deeper) :
    v.Storable deeper := by
  induction h generalizing deeper with
  | null => exact .null
  | bool b => exact .bool b
  | int hfits => exact .int hfits
  | string t => exact .string t
  | @array depth items _ ih =>
    obtain ⟨deeper, rfl⟩ : ∃ n, deeper = n + 1 := ⟨deeper - 1, by omega⟩
    exact .array fun v hv => ih v hv (Nat.le_of_succ_le_succ hle)
  | @object depth members _ ih =>
    obtain ⟨deeper, rfl⟩ : ∃ n, deeper = n + 1 := ⟨deeper - 1, by omega⟩
    exact .object fun member hmember => ih member hmember (Nat.le_of_succ_le_succ hle)

theorem Storable.floatFree (h : v.Storable depth) : v.FloatFree := by
  induction h with
  | null => exact .null
  | bool b => exact .bool b
  | int _ => exact .int _
  | string t => exact .string t
  | array _ ih => exact .array ih
  | object _ ih => exact .object ih

theorem Storable.canonical (h : v.Storable depth) : v.canonical.Storable depth := by
  induction h with
  | null => exact .null
  | bool b => exact .bool b
  | int hfits => exact .int hfits
  | string t => exact .string t
  | array _ ih =>
    rw [JsonValue.canonical, canonicalItems_eq_map]
    exact .array (List.forall_mem_map.mpr ih)
  | object _ ih =>
    rw [JsonValue.canonical]
    refine .object fun member hmember => ?_
    rcases mem_canonicalMembers hmember with hmember | ⟨m, hm, rfl⟩
    · cases hmember
    · exact ih m hm

theorem Storable.canonical_canonical (h : v.Storable depth) : v.canonical.canonical = v.canonical := by
  induction h with
  | null | bool | int | string => rfl
  | array _ ih =>
    rw [JsonValue.canonical, JsonValue.canonical, canonicalItems_eq_map, canonicalItems_eq_map,
      List.map_map]
    exact congrArg _ (List.map_congr_left ih)
  | object _ ih =>
    rw [JsonValue.canonical, JsonValue.canonical, canonicalMembers_of_ascending]
    · rfl
    · exact ascending_canonicalMembers List.Pairwise.nil
    · intro member hmember
      rcases mem_canonicalMembers hmember with hmember | ⟨m, hm, rfl⟩
      · cases hmember
      · exact ih m hm

section Object

variable {members : List (Text × JsonValue)}

theorem ascending_of_canonical (h : (JsonValue.object members).canonical = .object members) :
    Ascending members := by
  rw [JsonValue.canonical, JsonValue.object.injEq] at h
  rw [← h]
  exact ascending_canonicalMembers List.Pairwise.nil

theorem Ascending.nodup_keys (h : Ascending members) : (members.map (·.1)).Nodup := by
  rw [List.Nodup, List.pairwise_map]
  refine List.Pairwise.imp (fun {a b} hlt heq => ?_) h
  rw [heq] at hlt
  exact List.lt_irrefl b.1 hlt

theorem canonical_of_mem (h : (JsonValue.object members).canonical = .object members)
    {member : Text × JsonValue} (hmember : member ∈ members) : member.2.canonical = member.2 := by
  have hascending := ascending_of_canonical h
  rw [JsonValue.canonical, JsonValue.object.injEq] at h
  rw [← h] at hmember
  rcases mem_canonicalMembers hmember with hmember' | ⟨m, hm, rfl⟩
  · cases hmember'
  · rw [h] at hmember
    have heq := List.inj_on_of_nodup_map hascending.nodup_keys hm hmember rfl
    exact (congrArg (fun m => m.2.canonical) heq).symm

end Object

theorem canonical_of_mem_array {items : List JsonValue}
    (h : (JsonValue.array items).canonical = .array items) {item : JsonValue} (hitem : item ∈ items) :
    item.canonical = item := by
  rw [JsonValue.canonical, JsonValue.array.injEq, canonicalItems_eq_map] at h
  have hid : items.map JsonValue.canonical = items.map id := by rw [h, List.map_id]
  exact List.map_inj_left.mp hid item hitem

section Lists

variable {key : Text} {value : JsonValue} {members : List (Text × JsonValue)}

theorem filter_insert : (insert key value members).filter (fun m => m.1 ≠ key) =
    members.filter fun m => m.1 ≠ key := by
  induction members with
  | nil => simp [insert]
  | cons first members ih =>
    rw [insert]
    split_ifs with heq
    · rw [List.filter_cons_of_neg (by simp), List.filter_cons_of_neg (by simp [heq])]
    · rw [List.filter_cons_of_neg (by simp)]
    · rw [List.filter_cons, List.filter_cons, ih]

/-- A member that was taken out goes back to where it was. -/
theorem insert_filter (h : Ascending members) (hlookup : members.lookup key = some value) :
    insert key value (members.filter fun m => m.1 ≠ key) = members := by
  induction members with
  | nil => cases hlookup
  | cons first members ih =>
    obtain ⟨k, v⟩ := first
    obtain ⟨hfirst, hrest⟩ := List.pairwise_cons.mp h
    by_cases hk : key = k
    · subst hk
      rw [List.lookup_cons_self, Option.some.injEq] at hlookup
      subst hlookup
      have hkept : members.filter (fun m => m.1 ≠ key) = members :=
        List.filter_eq_self.mpr fun m hm => decide_eq_true fun heq =>
          List.lt_irrefl key (heq ▸ hfirst m hm)
      rw [List.filter_cons_of_neg (by simp), hkept]
      cases members with
      | nil => rfl
      | cons second members =>
        have hlt := hfirst second List.mem_cons_self
        have hne : key ≠ second.1 := fun heq => List.lt_irrefl key (by rwa [← heq] at hlt)
        rw [insert, if_neg hne, if_pos (Text.le_iff.mpr (List.lt_asymm hlt))]
    · rw [lookup_cons_of_ne hk] at hlookup
      have hlt : k < key := by
        obtain ⟨before, after, hmembers, -⟩ := List.lookup_eq_some_iff.mp hlookup
        exact hfirst (key, value) (by rw [hmembers]; simp)
      have hle : ¬Text.le key k = true := by
        rw [Text.le_iff]
        exact not_not_intro hlt
      rw [List.filter_cons_of_pos (by simpa using Ne.symm hk), insert, if_neg hk, if_neg hle,
        ih hrest hlookup]

end Lists

section Values

variable {v value : JsonValue} {key : Text} {depth : Nat}

theorem withoutMember_withMember (v : JsonValue) (key : Text) (value : JsonValue) :
    (v.withMember key value).withoutMember key = v.withoutMember key := by
  cases v with
  | object members => exact congrArg _ filter_insert
  | _ => rfl

theorem withMember_withoutMember (h : v.canonical = v) (hmember : v.member? key = some value) :
    (v.withoutMember key).withMember key value = v := by
  cases v with
  | object members => exact congrArg _ (insert_filter (ascending_of_canonical h) hmember)
  | _ => cases hmember

theorem canonical_eq_object {members : List (Text × JsonValue)} (h : Ascending members)
    (hvalues : ∀ m ∈ members, m.2.canonical = m.2) :
    (JsonValue.object members).canonical = .object members := by
  rw [canonical, canonicalMembers_of_ascending (by exact h) hvalues]
  rfl

theorem canonical_withoutMember (h : v.canonical = v) :
    (v.withoutMember key).canonical = v.withoutMember key := by
  cases v with
  | object members =>
    exact canonical_eq_object ((ascending_of_canonical h).filter _) fun m hm =>
      canonical_of_mem h (List.mem_of_mem_filter hm)
  | _ => exact h

theorem canonical_withMember (h : v.canonical = v) (hvalue : value.canonical = value) :
    (v.withMember key value).canonical = v.withMember key value := by
  cases v with
  | object members =>
    refine canonical_eq_object (ascending_insert (ascending_of_canonical h)) fun m hm => ?_
    rcases mem_insert hm with rfl | hm
    · exact hvalue
    · exact canonical_of_mem h hm
  | _ => exact h

theorem Storable.withoutMember (h : v.Storable depth) (key : Text) :
    (v.withoutMember key).Storable depth := by
  cases h with
  | object hmembers => exact .object fun m hm => hmembers m (List.mem_of_mem_filter hm)
  | null => exact .null
  | bool b => exact .bool b
  | int hfits => exact .int hfits
  | string t => exact .string t
  | array hitems => exact .array hitems

theorem Storable.withMember (h : v.Storable (depth + 1)) (hvalue : value.Storable depth) :
    (v.withMember key value).Storable (depth + 1) := by
  cases h with
  | object hmembers =>
    refine .object fun m hm => ?_
    rcases mem_insert hm with rfl | hm
    · exact hvalue
    · exact hmembers m hm
  | null => exact .null
  | bool b => exact .bool b
  | int hfits => exact .int hfits
  | string t => exact .string t
  | array hitems => exact .array hitems

end Values
end JsonValue
end NamespaceMigration
