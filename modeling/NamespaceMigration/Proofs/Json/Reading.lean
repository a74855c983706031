import NamespaceMigration.Proofs.Json.Scalars

/-! The reader reads back the print of every canonical value that can be stored. -/
namespace NamespaceMigration
namespace JsonReader

open JsonValue (Storable Ascending)

theorem skipSpace_cons {b : UInt8} (h : isSpace b = false) (bytes : Bytes) :
    skipSpace (b :: bytes) = b :: bytes :=
  List.dropWhile_cons_of_neg (Bool.eq_false_iff.mp h)

/-- Whether bytes start with what can be the start of a value, and so not with the end of a list. -/
def StartsValue (bytes : Bytes) : Prop :=
  ∃ b more, bytes = b :: more ∧ isSpace b = false ∧ b ≠ code ']'

theorem startsValue_ascii {c : Char} (hascii : c.toNat < 0x80) (hblank : isSpace (code c) = false)
    (hend : code c ≠ code ']') (t : Text) (rest : Bytes) :
    StartsValue (Text.toUtf8 (c :: t) ++ rest) := by
  rw [Text.toUtf8_ascii hascii]
  exact ⟨code c, _, rfl, hblank, hend⟩

theorem startsValue_print {depth : Nat} {v : JsonValue} (h : v.Storable depth) (rest : Bytes) :
    StartsValue (Text.toUtf8 v.print ++ rest) := by
  cases h with
  | null => exact startsValue_ascii (by decide) rfl (by decide) _ rest
  | bool b => cases b <;> exact startsValue_ascii (by decide) rfl (by decide) _ rest
  | @int _ n _ =>
    cases n with
    | ofNat n =>
      obtain ⟨d, digits, heq⟩ := List.exists_cons_of_ne_nil (l := Text.ofNat n) Nat.toDigits_ne_nil
      obtain ⟨hascii, hdigit⟩ :=
        isDigit_code (isDigit_of_mem_ofNat (n := n) (heq ▸ List.mem_cons_self))
      change StartsValue (Text.toUtf8 (Text.ofNat n) ++ rest)
      rw [heq]
      exact startsValue_ascii hascii (isSpace_of_isDigit hdigit) (ne_of_isDigit hdigit rfl) _ rest
    | negSucc n => exact startsValue_ascii (by decide) rfl (by decide) _ rest
  | string t => exact startsValue_ascii (by decide) rfl (by decide) _ rest
  | array _ => exact startsValue_ascii (by decide) rfl (by decide) _ rest
  | object _ => exact startsValue_ascii (by decide) rfl (by decide) _ rest

/-- The print of the value is read back, whatever comes after it. -/
def ReadsBack (inner : Inner) (v : JsonValue) : Prop := ∀ rest, EndsNumber rest →
  inner (Text.toUtf8 v.print ++ rest) = .ok (v, rest)

theorem afterItem_comma {bytes : Bytes} (h : StartsValue bytes) :
    afterItem (code ',' :: bytes) = .ok (true, bytes) := by
  obtain ⟨b, more, rfl, hblank, hend⟩ := h
  rw [afterItem, skipSpace_cons (by decide)]
  dsimp only
  rw [if_neg (by decide), if_pos rfl, skipSpace_cons hblank]
  exact if_neg hend

theorem printItems_cons_cons (item next : JsonValue) (items : List JsonValue) :
    JsonValue.printItems (item :: next :: items) =
      item.print ++ ',' :: JsonValue.printItems (next :: items) := by
  rw [JsonValue.printItems]
  intro h
  cases h

theorem length_le_printItems {items : List JsonValue} (h : ∀ v ∈ items, v.print ≠ []) :
    items.length ≤ (Text.toUtf8 (JsonValue.printItems items)).length := by
  rw [Text.length_toUtf8]
  refine Nat.le_trans ?_ (Text.length_le_byteSize _)
  induction items with
  | nil => exact Nat.zero_le _
  | cons item items ih =>
    obtain ⟨hitem, hitems⟩ := List.forall_mem_cons.mp h
    have hpos := List.length_pos_iff.mpr hitem
    cases items with
    | nil =>
      rw [JsonValue.printItems]
      exact hpos
    | cons next items =>
      have hrest := ih hitems
      rw [printItems_cons_cons]
      simp only [List.length_append, List.length_cons] at hrest ⊢
      omega

theorem readItems_print {inner : Inner} {item : JsonValue} {items : List JsonValue}
    (hitem : ReadsBack inner item) (hitems : ∀ v ∈ items, ReadsBack inner v)
    (hstart : ∀ v ∈ items, ∀ rest, StartsValue (Text.toUtf8 v.print ++ rest)) {fuel : Nat}
    (hfuel : items.length ≤ fuel) (rest : Bytes) :
    readItems inner (fuel + 1)
        (Text.toUtf8 (JsonValue.printItems (item :: items)) ++ code ']' :: rest) =
      .ok (item :: items, rest) := by
  induction items generalizing item fuel with
  | nil =>
    rw [readItems, JsonValue.printItems, hitem _ (endsNumber_code (by decide) rest), ok_bind]
    rfl
  | cons next items ih =>
    obtain ⟨hnext, hitems⟩ := List.forall_mem_cons.mp hitems
    obtain ⟨hstartNext, hstart⟩ := List.forall_mem_cons.mp hstart
    have hmore : StartsValue
        (Text.toUtf8 (JsonValue.printItems (next :: items)) ++ code ']' :: rest) := by
      cases items with
      | nil => exact hstartNext _
      | cons =>
        rw [printItems_cons_cons, Text.toUtf8_append, List.append_assoc]
        exact hstartNext _
    cases fuel with
    | zero => cases hfuel
    | succ fuel =>
      rw [readItems, printItems_cons_cons, Text.toUtf8_append, Text.toUtf8_ascii (by decide),
        List.append_assoc, List.cons_append, hitem _ (endsNumber_code (by decide) _), ok_bind]
      dsimp only
      rw [afterItem_comma hmore, ok_bind]
      dsimp only
      rw [if_pos rfl, ih hnext hitems hstart (Nat.le_of_succ_le_succ hfuel), ok_bind]

theorem readList_print {inner : Inner} {items : List JsonValue}
    (hread : ∀ v ∈ items, ReadsBack inner v)
    (hstart : ∀ v ∈ items, ∀ rest, StartsValue (Text.toUtf8 v.print ++ rest)) (rest : Bytes) :
    readList inner (Text.toUtf8 (JsonValue.printItems items) ++ code ']' :: rest) =
      .ok (.array items, rest) := by
  cases items with
  | nil =>
    rw [JsonValue.printItems]
    rfl
  | cons item items =>
    obtain ⟨hitem, hitems⟩ := List.forall_mem_cons.mp hread
    obtain ⟨hstartItem, hstartItems⟩ := List.forall_mem_cons.mp hstart
    have hfuel : items.length ≤
        (Text.toUtf8 (JsonValue.printItems (item :: items)) ++ code ']' :: rest).length := by
      have hprint : ∀ v ∈ item :: items, v.print ≠ [] := fun v hv heq => by
        obtain ⟨b, more, hbytes, -, -⟩ := hstart v hv []
        rw [heq] at hbytes
        cases hbytes
      have := length_le_printItems hprint
      rw [List.length_cons] at this
      rw [List.length_append]
      omega
    have hall := readItems_print hitem hitems hstartItems hfuel rest
    obtain ⟨b, more, hbytes, hblank, hend⟩ : StartsValue
        (Text.toUtf8 (JsonValue.printItems (item :: items)) ++ code ']' :: rest) := by
      cases items with
      | nil => exact hstartItem _
      | cons =>
        rw [printItems_cons_cons, Text.toUtf8_append, List.append_assoc]
        exact hstartItem _
    rw [hbytes] at hall ⊢
    rw [readList, skipSpace_cons hblank]
    dsimp only
    rw [if_neg hend, hall]
    rfl

theorem afterMember_end (rest : Bytes) : afterMember (code '\x7d' :: rest) = .ok (false, rest) := rfl

theorem afterMember_comma (bytes : Bytes) :
    afterMember (code ',' :: code '\x22' :: bytes) = .ok (true, bytes) := rfl

theorem readColon_colon (bytes : Bytes) : readColon (code ':' :: bytes) = .ok bytes := rfl

/-- The print of a member. -/
def printMember (member : Text × JsonValue) : Text :=
  JsonValue.printString member.1 ++ ':' :: member.2.print

theorem printMembers_singleton (member : Text × JsonValue) :
    JsonValue.printMembers [member] = printMember member := by
  rw [JsonValue.printMembers, printMember]

theorem printMembers_cons_cons (member next : Text × JsonValue) (members : List (Text × JsonValue)) :
    JsonValue.printMembers (member :: next :: members) =
      printMember member ++ ',' :: JsonValue.printMembers (next :: members) := by
  rw [JsonValue.printMembers, printMember]
  intro h
  cases h

theorem toUtf8_printMember (member : Text × JsonValue) (rest : Bytes) :
    Text.toUtf8 (printMember member) ++ rest =
      code '\x22' :: (Text.toUtf8 (member.1.flatMap JsonValue.escapeChar) ++
        code '\x22' :: code ':' :: (Text.toUtf8 member.2.print ++ rest)) := by
  rw [printMember, JsonValue.printString, List.cons_append, List.cons_append,
    Text.toUtf8_ascii (by decide), Text.toUtf8_append, Text.toUtf8_append,
    Text.toUtf8_ascii (by decide), Text.toUtf8_ascii (by decide)]
  simp [Text.toUtf8_nil]

theorem printMembers_quote (member : Text × JsonValue) (members : List (Text × JsonValue))
    (rest : Bytes) : ∃ more,
      Text.toUtf8 (JsonValue.printMembers (member :: members)) ++ rest = code '\x22' :: more := by
  cases members with
  | nil =>
    rw [printMembers_singleton, toUtf8_printMember]
    exact ⟨_, rfl⟩
  | cons =>
    rw [printMembers_cons_cons, Text.toUtf8_append, List.append_assoc, toUtf8_printMember]
    exact ⟨_, rfl⟩

theorem length_le_printMembers (members : List (Text × JsonValue)) :
    members.length ≤ (Text.toUtf8 (JsonValue.printMembers members)).length := by
  rw [Text.length_toUtf8]
  refine Nat.le_trans ?_ (Text.length_le_byteSize _)
  induction members with
  | nil => exact Nat.zero_le _
  | cons member members ih =>
    have hpos : 0 < (printMember member).length := Nat.succ_pos _
    cases members with
    | nil =>
      rw [printMembers_singleton]
      exact hpos
    | cons next members =>
      rw [printMembers_cons_cons]
      simp only [List.length_append, List.length_cons] at ih ⊢
      omega

theorem readMembers_print_one {inner : Inner} {member : Text × JsonValue}
    (hread : ReadsBack inner member.2) (fuel : Nat) (found : List (Text × JsonValue)) {rest : Bytes}
    (hrest : EndsNumber rest) {bytes : Bytes}
    (hbytes : Text.toUtf8 (printMember member) ++ rest = code '\x22' :: bytes) :
    readMembers inner (fuel + 1) found bytes = (do
      let (goOn, rest) ← afterMember rest
      if goOn then readMembers inner fuel (JsonValue.insert member.1 member.2 found) rest
      else .ok (JsonValue.insert member.1 member.2 found, rest)) := by
  rw [toUtf8_printMember] at hbytes
  obtain rfl := (List.cons.inj hbytes).2
  rw [readMembers, readString_print, ok_bind]
  dsimp only
  rw [readColon_colon, ok_bind, hread _ hrest, ok_bind]

theorem insert_last {member : Text × JsonValue} {members found : List (Text × JsonValue)}
    (h : Ascending (found ++ member :: members)) :
    JsonValue.insert member.1 member.2 found = found ++ [member] :=
  JsonValue.insert_of_lt fun m hm =>
    (List.pairwise_append.mp h).2.2 m hm member List.mem_cons_self

theorem readMembers_print {inner : Inner} {member : Text × JsonValue}
    {members found : List (Text × JsonValue)} (hmember : ReadsBack inner member.2)
    (hmembers : ∀ m ∈ members, ReadsBack inner m.2)
    (hascending : Ascending (found ++ member :: members)) {fuel : Nat}
    (hfuel : members.length ≤ fuel) {rest bytes : Bytes}
    (hbytes : Text.toUtf8 (JsonValue.printMembers (member :: members)) ++ code '\x7d' :: rest =
      code '\x22' :: bytes) :
    readMembers inner (fuel + 1) found bytes = .ok (found ++ member :: members, rest) := by
  induction members generalizing member found fuel bytes with
  | nil =>
    rw [printMembers_singleton] at hbytes
    rw [readMembers_print_one hmember fuel found (endsNumber_code (by decide) rest) hbytes,
      afterMember_end, ok_bind, insert_last hascending]
    rfl
  | cons next members ih =>
    obtain ⟨hnext, hmembers⟩ := List.forall_mem_cons.mp hmembers
    rw [printMembers_cons_cons, Text.toUtf8_append, Text.toUtf8_ascii (by decide),
      List.append_assoc, List.cons_append] at hbytes
    rw [readMembers_print_one hmember fuel found (endsNumber_code (by decide) _) hbytes,
      insert_last hascending]
    obtain ⟨more, hmore⟩ := printMembers_quote next members (code '\x7d' :: rest)
    rw [hmore, afterMember_comma, ok_bind]
    dsimp only
    rw [if_pos rfl]
    cases fuel with
    | zero => cases hfuel
    | succ fuel =>
      rw [ih hnext hmembers (by simpa using hascending) (Nat.le_of_succ_le_succ hfuel) hmore,
        List.append_assoc]
      rfl

theorem readObject_print {inner : Inner} {members : List (Text × JsonValue)}
    (hread : ∀ m ∈ members, ReadsBack inner m.2) (hascending : Ascending members) (rest : Bytes) :
    readObject inner (Text.toUtf8 (JsonValue.printMembers members) ++ code '\x7d' :: rest) =
      .ok (.object members, rest) := by
  cases members with
  | nil =>
    rw [JsonValue.printMembers]
    rfl
  | cons member members =>
    obtain ⟨hmember, hmembers⟩ := List.forall_mem_cons.mp hread
    obtain ⟨more, hmore⟩ := printMembers_quote member members (code '\x7d' :: rest)
    have hfuel : members.length ≤
        (Text.toUtf8 (JsonValue.printMembers (member :: members)) ++ code '\x7d' :: rest).length := by
      have := length_le_printMembers (member :: members)
      rw [List.length_cons] at this
      rw [List.length_append]
      omega
    have hall : readMembers inner (_ + 1) [] more = .ok (member :: members, rest) :=
      readMembers_print hmember hmembers hascending hfuel hmore
    rw [hmore] at hall ⊢
    change (readMembers inner _ [] more).map _ = _
    rw [hall]
    rfl

theorem readsBack_of_readShape {v : JsonValue} (h : ∀ inner?, ReadsBack (readShape inner?) v)
    (depth : Nat) : ReadsBack (readValue depth) v := by
  cases depth with
  | zero => exact h none
  | succ depth => exact h (some (readValue depth))

theorem toUtf8_enclosed {first last : Char} (hfirst : first.toNat < 0x80) (hlast : last.toNat < 0x80)
    (t : Text) (rest : Bytes) : Text.toUtf8 (first :: t ++ [last]) ++ rest =
      code first :: (Text.toUtf8 t ++ code last :: rest) := by
  rw [List.cons_append, Text.toUtf8_ascii hfirst, Text.toUtf8_append, Text.toUtf8_ascii hlast,
    Text.toUtf8_nil, List.cons_append, List.append_assoc]
  rfl

/-- The print of a canonical value is read back, at any depth that it fits. -/
theorem readsBack_print {depth : Nat} {v : JsonValue} (h : v.Storable depth)
    (hcanonical : v.canonical = v) : ReadsBack (readValue depth) v := by
  induction h with
  | @null depth => exact readsBack_of_readShape (fun inner? rest _ => rfl) depth
  | @bool depth b =>
    exact readsBack_of_readShape (fun inner? rest _ => by cases b <;> rfl) depth
  | @int depth n hfits => exact readsBack_of_readShape (fun inner? _ => readShape_int inner? hfits) depth
  | @string depth t =>
    refine readsBack_of_readShape (fun inner? rest _ => ?_) depth
    rw [JsonValue.print, JsonValue.printString, toUtf8_enclosed (by decide) (by decide)]
    change (readString (_ ++ code '\x22' :: rest)).map _ = _
    rw [readString_print]
    rfl
  | @array depth items hitems ih =>
    intro rest _
    rw [JsonValue.print, toUtf8_enclosed (by decide) (by decide)]
    exact readList_print (fun v hv => ih v hv (JsonValue.canonical_of_mem_array hcanonical hv))
      (fun v hv => startsValue_print (hitems v hv)) rest
  | @object depth members hmembers ih =>
    intro rest _
    rw [JsonValue.print, toUtf8_enclosed (by decide) (by decide)]
    exact readObject_print (fun m hm => ih m hm (JsonValue.canonical_of_mem hcanonical hm))
      (JsonValue.ascending_of_canonical hcanonical) rest

variable {v : JsonValue}

theorem read_canonicalText (h : v.Storable maxDepth) {blanks : Bytes}
    (hblanks : skipSpace blanks = []) (hends : EndsNumber blanks) :
    read (Text.toUtf8 v.canonical.print ++ blanks) = .ok v.canonical := by
  have hvalue := readsBack_print h.canonical h.canonical_canonical blanks hends
  rw [read, hvalue, ok_bind]
  dsimp only
  rw [hblanks]
  rfl

theorem print_injective {w : JsonValue} (hv : v.Storable maxDepth) (hw : w.Storable maxDepth)
    (h : v.canonical.print = w.canonical.print) : v.canonical = w.canonical := by
  have hreadV := read_canonicalText hv rfl endsNumber_nil
  have hreadW := read_canonicalText hw rfl endsNumber_nil
  rw [h, hreadW] at hreadV
  exact (Except.ok.inj hreadV).symm

end JsonReader
end NamespaceMigration
