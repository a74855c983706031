import Mathlib.Data.List.TakeWhile
import NamespaceMigration.Proofs.Rewriting.Comments
import NamespaceMigration.Proofs.Rewriting.Replacing

/-! Names of comments in full. A text whose names are written in full is read as before: its names end
where they ended, and its types end there or earlier. So every name that is found then is in full. -/
namespace NamespaceMigration

open Lexer (isNameChar isNameStart nameLength IsName)

/-- A character of names and of the signs between their segments. -/
def IsNameSign (c : Char) : Prop := isNameChar c ∨ c = '\\'

instance (c : Char) : Decidable (IsNameSign c) := inferInstanceAs (Decidable (_ ∨ _))

theorem IsNameSign.ne {c d : Char} (h : IsNameSign c) (hd : ¬IsNameSign d) : c ≠ d := by
  rintro rfl
  exact hd h

theorem Lexer.IsName.sign {t : Text} (h : IsName t) : ∀ d ∈ t, IsNameSign d := by
  have hall := take_nameLength_all t
  rwa [h.2, List.take_length] at hall

/-- Other names come in the place of names, and names in full stay. -/
structure WritesInFull (rename : Text → Text) : Prop where
  full : ∀ t, rename ('\\' :: t) = '\\' :: t
  name : ∀ t, IsName t → ∃ u, rename t = '\\' :: u ∧ IsName u
  word : ∀ c t, isNameStart c → (∀ d ∈ t, IsNameSign d) → ∃ u, rename (c :: t) = '\\' :: u ∧ ∀ d ∈ u, IsNameSign d

theorem startsWith_colons_iff {t : Text} :
    Text.startsWith t "::" ↔ t.head? = some ':' ∧ t.tail.head? = some ':' := by
  cases t with
  | nil => simp [Text.startsWith]
  | cons c t =>
    cases t with
    | nil => simp [Text.startsWith]
    | cons d t => simp [Text.startsWith, @eq_comm _ ':']

/-- Two texts that are the same but for names, which the second one has in full. -/
inductive Retold : Text → Text → Prop
  | nil : Retold [] []
  | cons (c : Char) {t u : Text} : Retold t u → Retold (c :: t) (c :: u)
  | name {c : Char} {x y t u : Text} : isNameStart c → (∀ d ∈ x, IsNameSign d) →
      (∀ d ∈ y, IsNameSign d) → Retold t u → Retold (c :: (x ++ t)) ('\\' :: (y ++ u))

namespace Retold

variable {t u t' u' : Text}

theorem refl (t : Text) : Retold t t := by
  induction t with
  | nil => exact .nil
  | cons c t ih => exact .cons c ih

theorem append (h : Retold t u) (h' : Retold t' u') : Retold (t ++ t') (u ++ u') := by
  induction h with
  | nil => exact h'
  | cons c _ ih => exact .cons c ih
  | name hc hx hy _ ih =>
    rw [List.cons_append, List.cons_append, List.append_assoc, List.append_assoc]
    exact .name hc hx hy ih

theorem before (x : Text) (h : Retold t u) : Retold (x ++ t) (x ++ u) := (refl x).append h

theorem head (h : Retold t u) : u.head? = t.head? ∨ t.head?.any isNameStart ∧ u.head? = some '\\' := by
  cases h with
  | nil => exact Or.inl rfl
  | cons c _ => exact Or.inl rfl
  | name hc _ _ _ => exact Or.inr ⟨hc, rfl⟩

theorem head_of_not_sign {c : Char} (h : Retold t u) (hc : ¬IsNameSign c) :
    t.head? = some c ↔ u.head? = some c := by
  rcases h.head with heq | ⟨hstart, hsign⟩
  · rw [heq]
  · refine iff_of_false (fun ht => ?_) fun hu => ?_
    · rw [ht] at hstart
      exact hc (Or.inl (Lexer.isNameChar_of_isNameStart hstart))
    · rw [hsign] at hu
      exact hc (Or.inr (Option.some.inj hu).symm)

theorem mem_of_not_sign {c : Char} (h : Retold t u) (hc : ¬IsNameSign c) : c ∈ u → c ∈ t := by
  induction h with
  | nil => exact id
  | cons d _ ih =>
    rw [List.mem_cons, List.mem_cons]
    exact Or.imp_right ih
  | name _ _ hy _ ih =>
    rw [List.mem_cons, List.mem_append, List.mem_cons, List.mem_append]
    rintro (rfl | hmem | hmem)
    · exact absurd (Or.inr rfl) hc
    · exact absurd (hy c hmem) hc
    · exact Or.inr (Or.inr (ih hmem))

theorem nameLength (h : Retold t u) (ht : nameLength t = 0) : Lexer.nameLength u = 0 := by
  cases h with
  | nil => rfl
  | @cons c t u h =>
    rw [Lexer.nameLength_cons_eq_zero_iff] at ht ⊢
    refine ⟨ht.1, fun hsign => ht.2 ⟨hsign.1, ?_⟩⟩
    rcases h.head with heq | ⟨hstart, -⟩
    · rw [← heq]
      exact hsign.2
    · exact hstart
  | name hc _ _ _ =>
    rw [Lexer.nameLength_cons_eq_zero_iff, Lexer.isNameChar_of_isNameStart hc] at ht
    cases ht.1

theorem startsWith_colons (h : Retold t u) : Text.startsWith u "::" = Text.startsWith t "::" := by
  have hcolon : ¬IsNameSign ':' := by decide
  rw [Bool.eq_iff_iff, startsWith_colons_iff, startsWith_colons_iff]
  cases h with
  | nil => exact Iff.rfl
  | cons c h =>
    rw [List.head?_cons, List.head?_cons, List.tail_cons, List.tail_cons, h.head_of_not_sign hcolon]
  | name hc _ _ _ =>
    refine iff_of_false (fun hu => ?_) fun ht => ?_
    · exact absurd (Option.some.inj hu.1) (by decide)
    · rw [Option.some.inj ht.1] at hc
      cases hc

/-- A last character that no name has stays. -/
theorem concat {c : Char} (hc : ¬IsNameSign c) (h : Retold (t ++ [c]) u) :
    ∃ v, u = v ++ [c] ∧ Retold t v := by
  generalize hw : t ++ [c] = w at h
  induction h generalizing t with
  | nil => exact absurd hw (List.append_ne_nil_of_right_ne_nil _ (List.cons_ne_nil _ _))
  | @cons d w u h ih =>
    cases t with
    | nil =>
      obtain ⟨rfl, rfl⟩ := List.cons.inj hw
      cases h
      exact ⟨[], rfl, .nil⟩
    | cons e t =>
      rw [List.cons_append] at hw
      obtain ⟨rfl, htail⟩ := List.cons.inj hw
      obtain ⟨v, rfl, hv⟩ := ih htail
      exact ⟨e :: v, rfl, .cons e hv⟩
  | @name d x y w u hd hx hy h ih =>
    -- The last character is none of the name.
    obtain ⟨w', rfl⟩ : ∃ w', w = w' ++ [c] := by
      rw [← List.cons_append] at hw
      rcases List.append_eq_append_iff.mp hw with ⟨a, hsplit, hlast⟩ | ⟨a, -, hlast⟩
      · cases a with
        | nil => exact ⟨[], hlast.symm⟩
        | cons e a =>
          rw [List.cons_append] at hlast
          obtain ⟨rfl, -⟩ := List.cons.inj hlast
          have hmem : c ∈ d :: x := by
            rw [hsplit]
            exact List.mem_append_right _ List.mem_cons_self
          rcases List.mem_cons.mp hmem with rfl | hmem
          · exact absurd (Or.inl (Lexer.isNameChar_of_isNameStart hd)) hc
          · exact absurd (hx c hmem) hc
      · exact ⟨a, hlast⟩
    obtain ⟨v, rfl, hv⟩ := ih rfl
    have ht : t = d :: (x ++ w') := by
      rw [← List.append_assoc, ← List.cons_append] at hw
      exact (List.append_inj' hw rfl).1
    rw [ht]
    exact ⟨'\\' :: (y ++ v), by rw [List.cons_append, List.append_assoc], .name hd hx hy hv⟩

end Retold

namespace DocComment

variable {templates : List Text} {before? before'? : Option Char} {offset : Nat}

theorem namesFrom_left_zero (t : Text) :
    namesFrom templates (.name 0) before? offset t = namesFrom templates .outside before? offset t := by
  cases t with
  | nil => rfl
  | cons c t =>
    rw [namesFrom, namesFrom]
    all_goals
      intro _ h
      cases h

theorem namesFrom_skip (x t : Text) : namesFrom templates (.name x.length) before? offset (x ++ t) =
    namesFrom templates .outside (x.getLast?.or before?) (offset + Text.byteSize x) t := by
  induction x generalizing before? offset with
  | nil => exact namesFrom_left_zero t
  | cons c x ih =>
    rw [List.length_cons, List.cons_append, namesFrom, ih, Text.byteSize, ← Nat.add_assoc,
      List.getLast?_cons, Option.some_or]
    congr 1
    cases x.getLast? <;> rfl

/-- A name as it is written: with or without a backslash in front of it. -/
def IsWritten (n : Text) : Prop := IsName n ∨ ∃ u, n = '\\' :: u ∧ IsName u

theorem IsWritten.shape {n : Text} (h : IsWritten n) : ∃ c t, n = c :: t ∧ c ≠ '\x27' ∧ c ≠ '\x22' ∧
    (isNameStart c ∨ c = '\\' ∧ t.head?.any isNameStart) ∧ nameLength n = n.length := by
  have hquote {c : Char} (hc : isNameStart c) : c ≠ '\x27' ∧ c ≠ '\x22' := by
    constructor <;> rintro rfl <;> cases hc
  rcases h with h | ⟨u, rfl, hu⟩
  · obtain ⟨c, t, rfl⟩ := List.exists_cons_of_ne_nil h.ne_nil
    exact ⟨c, t, rfl, (hquote h.1).1, (hquote h.1).2, Or.inl h.1, h.2⟩
  · exact ⟨'\\', u, rfl, by decide, by decide, Or.inr ⟨rfl, hu.1⟩,
      Lexer.nameLength_cons_eq_length_iff.mpr ⟨Or.inr ⟨rfl, hu.1⟩, hu.2⟩⟩

/-- The name that a text starts with. -/
theorem exists_written {c : Char} {t : Text} (h : isNameStart c ∨ c = '\\' ∧ t.head?.any isNameStart) :
    ∃ n rest, c :: t = n ++ rest ∧ IsWritten n ∧ nameLength rest = 0 := by
  have hlength : nameLength ((c :: t).take (nameLength (c :: t)) ++ (c :: t).drop (nameLength (c :: t))) =
      ((c :: t).take (nameLength (c :: t))).length := by
    rw [List.take_append_drop, List.length_take, Nat.min_eq_left (Lexer.nameLength_le _)]
  obtain ⟨hname, hrest⟩ := Lexer.nameLength_append_eq_length_iff.mp hlength
  refine ⟨_, _, (List.take_append_drop _ _).symm, ?_, hrest⟩
  obtain ⟨m, hm⟩ : ∃ m, nameLength (c :: t) = m + 1 := by
    refine Nat.exists_eq_add_one.mpr (Nat.pos_of_ne_zero fun hzero => ?_)
    rw [Lexer.nameLength_cons_eq_zero_iff] at hzero
    rcases h with hc | hc
    · rw [Lexer.isNameChar_of_isNameStart hc] at hzero
      cases hzero.1
    · exact hzero.2 hc
  rw [hm, List.take_succ_cons] at hname ⊢
  rcases h with hc | ⟨rfl, -⟩
  · exact Or.inl ⟨hc, hname⟩
  · obtain ⟨hhead, hlength⟩ := Lexer.nameLength_cons_eq_length_iff.mp hname
    exact Or.inr ⟨_, rfl, (hhead.resolve_left (by simp [Lexer.not_isNameChar_backslash])).2, hlength⟩

/-- A name is found, if it is that of a class, and the search goes on behind it. -/
theorem namesFrom_written {n rest : Text} (hn : IsWritten n) (hrest : nameLength rest = 0) :
    namesFrom templates .outside before? offset (n ++ rest) =
      (if isClassName templates before? n rest then [⟨⟨offset, offset + Text.byteSize n⟩, n⟩] else []) ++
        namesFrom templates .outside n.getLast? (offset + Text.byteSize n) rest := by
  obtain ⟨c, t, rfl, hq, hqq, hstart, hlength⟩ := hn.shape
  have hwhole : nameLength (c :: (t ++ rest)) = t.length + 1 :=
    Lexer.nameLength_append_eq_length_iff.mpr ⟨hlength, hrest⟩
  have hstart' : isNameStart c ∨ c = '\\' ∧ (t ++ rest).head?.any isNameStart := by
    refine hstart.imp_right fun hsign => ⟨hsign.1, ?_⟩
    cases t with
    | nil => cases hsign.2
    | cons d t => exact hsign.2
  rw [List.cons_append, namesFrom]
  · dsimp only
    rw [if_neg (not_or.mpr ⟨hq, hqq⟩), if_pos hstart', hwhole, Nat.add_sub_cancel, namesFrom_skip,
      List.take_succ_cons, List.take_left, List.drop_succ_cons, List.drop_left, Text.byteSize,
      ← Nat.add_assoc, List.getLast?_cons]
    have hlast : t.getLast?.or (some c) = some (t.getLast?.getD c) := by cases t.getLast? <;> rfl
    rw [hlast]
    split <;> rfl
  all_goals
    intro _ h
    cases h

theorem namesFrom_other {c : Char} {t : Text} (hq : c ≠ '\x27' ∧ c ≠ '\x22')
    (hstart : ¬(isNameStart c ∨ c = '\\' ∧ t.head?.any isNameStart)) :
    namesFrom templates .outside before? offset (c :: t) =
      namesFrom templates .outside (some c) (offset + c.utf8Size) t := by
  rw [namesFrom]
  · dsimp only
    rw [if_neg (not_or.mpr hq), if_neg hstart]
  all_goals
    intro _ h
    cases h

theorem namesFrom_quote {c : Char} {t : Text} (hq : c = '\x27' ∨ c = '\x22') :
    namesFrom templates .outside before? offset (c :: t) =
      namesFrom templates (.quoted c) (some c) (offset + c.utf8Size) t := by
  rw [namesFrom]
  · dsimp only
    rw [if_pos hq]
  all_goals
    intro _ h
    cases h

theorem isClassName_retold {n rest rest' : Text} (h : Retold rest rest') (hrest : nameLength rest = 0) :
    isClassName templates before? n rest' = isClassName templates before? n rest := by
  have hhead : rest'.head? = rest.head? := by
    refine h.head.resolve_right fun hname => ?_
    cases rest with
    | nil => cases hname.1
    | cons c t =>
      rw [Lexer.nameLength_cons_eq_zero_iff, Lexer.isNameChar_of_isNameStart hname.1] at hrest
      cases hrest.1
  rw [isClassName, isClassName, hhead, h.startsWith_colons]

theorem IsWritten.inFull {rename : Text → Text} (hr : WritesInFull rename) {n : Text} (hn : IsWritten n) :
    IsWritten (rename n) ∧ isWrittenInFull (rename n) := by
  rcases hn with h | ⟨u, rfl, hu⟩
  · obtain ⟨u, hnew, hu⟩ := hr.name n h
    rw [hnew]
    exact ⟨Or.inr ⟨u, rfl, hu⟩, rfl⟩
  · rw [hr.full]
    exact ⟨Or.inr ⟨u, rfl, hu⟩, rfl⟩

theorem IsWritten.retold {rename : Text → Text} (hr : WritesInFull rename) {n t u : Text}
    (hn : IsWritten n) (h : Retold t u) : Retold (n ++ t) (rename n ++ u) := by
  rcases hn with hname | ⟨v, rfl, -⟩
  · obtain ⟨v, hnew, hv⟩ := hr.name n hname
    obtain ⟨c, x, rfl⟩ := List.exists_cons_of_ne_nil hname.ne_nil
    rw [hnew]
    exact .name hname.1 (fun d hd => hname.sign d (List.mem_cons_of_mem c hd)) hv.sign h
  · rw [hr.full]
    exact h.before _

/-- Once the names that are found in a text are in full, only names in full are found in it. -/
theorem namesFrom_filled {rename : Text → Text} (hr : WritesInFull rename) (templates : List Text)
    {state : NameState} (hstate : state = .outside ∨ ∃ quote, state = .quoted quote)
    (before? before'? : Option Char) (offset : Nat) (t : Text)
    (hbefore : before? = before'? ∨ nameLength t = 0) :
    ∃ u, Filled rename offset (namesFrom templates state before? offset t) t u ∧ Retold t u ∧
      ∀ offset', ∀ r ∈ namesFrom templates state before'? offset' u, isWrittenInFull r.name := by
  induction hn : t.length using Nat.strong_induction_on
    generalizing t state before? before'? offset with
  | _ k ih =>
  subst hn
  cases t with
  | nil =>
    refine ⟨[], ?_, .nil, fun offset' => ?_⟩
    · rcases hstate with rfl | ⟨quote, rfl⟩ <;> exact .nil _
    · rcases hstate with rfl | ⟨quote, rfl⟩ <;> exact List.forall_mem_nil _
  | cons c t =>
    have hpass (next : NameState) (hnext : next = .outside ∨ ∃ quote, next = .quoted quote) :
        ∃ u, Filled rename offset (namesFrom templates next (some c) (offset + c.utf8Size) t) (c :: t)
          (c :: u) ∧ Retold t u ∧
          ∀ offset', ∀ r ∈ namesFrom templates next (some c) offset' u, isWrittenInFull r.name := by
      obtain ⟨u, hfilled, hretold, hfull⟩ := ih t.length (Nat.lt_succ_self _) hnext (some c) (some c)
        (offset + c.utf8Size) t (Or.inl rfl) rfl
      exact ⟨u, Filled.before [c] hfilled, hretold, hfull⟩
    rcases hstate with rfl | ⟨quote, rfl⟩
    · by_cases hq : c = '\x27' ∨ c = '\x22'
      · rw [namesFrom_quote hq]
        obtain ⟨u, hfilled, hretold, hfull⟩ := hpass (.quoted c) (Or.inr ⟨c, rfl⟩)
        refine ⟨c :: u, hfilled, .cons c hretold, fun offset' => ?_⟩
        rw [namesFrom_quote hq]
        exact hfull _
      · by_cases hstart : isNameStart c ∨ c = '\\' ∧ t.head?.any isNameStart
        · obtain ⟨n, rest, hsplit, hname, hrest⟩ := exists_written hstart
          obtain ⟨d, m, rfl, -⟩ := hname.shape
          have hsame : before? = before'? := by
            refine hbefore.resolve_right fun hzero => ?_
            rw [Lexer.nameLength_cons_eq_zero_iff] at hzero
            rcases hstart with hc | hc
            · rw [Lexer.isNameChar_of_isNameStart hc] at hzero
              cases hzero.1
            · exact hzero.2 hc
          have hshort : rest.length < (c :: t).length := by
            rw [hsplit, List.length_append, List.length_cons]
            omega
          rw [hsplit, namesFrom_written hname hrest]
          split
          · obtain ⟨u, hfilled, hretold, hfull⟩ := ih rest.length hshort (Or.inl rfl)
              (d :: m).getLast? (rename (d :: m)).getLast? (offset + Text.byteSize (d :: m)) rest
              (Or.inr hrest) rfl
            obtain ⟨hnew, hnewfull⟩ := hname.inFull hr
            refine ⟨rename (d :: m) ++ u, Filled.cons [] (d :: m) hfilled, hname.retold hr hretold,
              fun offset' => ?_⟩
            rw [namesFrom_written hnew (hretold.nameLength hrest)]
            refine List.forall_mem_append.mpr ⟨fun r hr => ?_, hfull _⟩
            split at hr
            · rw [List.mem_singleton.mp hr]
              exact hnewfull
            · cases hr
          · rename_i hclass
            obtain ⟨u, hfilled, hretold, hfull⟩ := ih rest.length hshort (Or.inl rfl)
              (d :: m).getLast? (d :: m).getLast? (offset + Text.byteSize (d :: m)) rest (Or.inl rfl) rfl
            refine ⟨(d :: m) ++ u, Filled.before _ hfilled, hretold.before _, fun offset' => ?_⟩
            rw [namesFrom_written hname (hretold.nameLength hrest), isClassName_retold hretold hrest,
              ← hsame, if_neg hclass]
            exact hfull _
        · rw [namesFrom_other (not_or.mp hq) hstart]
          obtain ⟨u, hfilled, hretold, hfull⟩ := hpass .outside (Or.inl rfl)
          refine ⟨c :: u, hfilled, .cons c hretold, fun offset' => ?_⟩
          rw [namesFrom_other (not_or.mp hq)]
          · exact hfull _
          · refine not_or.mpr ⟨fun hc => hstart (Or.inl hc), fun hsign => hstart (Or.inr ⟨hsign.1, ?_⟩)⟩
            rcases hretold.head with heq | ⟨hhead, -⟩
            · rw [← heq]
              exact hsign.2
            · exact hhead
    · rw [namesFrom]
      obtain ⟨u, hfilled, hretold, hfull⟩ := hpass (if c = quote then .outside else .quoted quote) (by
        split
        · exact Or.inl rfl
        · exact Or.inr ⟨quote, rfl⟩)
      refine ⟨c :: u, hfilled, .cons c hretold, fun offset' => ?_⟩
      rw [namesFrom]
      exact hfull _

/-- A bar or an ampersand comes next, after blanks. -/
def joins (t : Text) : Bool := (t.dropWhile isBlank).head?.any fun c => c == '|' || c == '&'

/-- The depth of brackets and the quote after a character of a type. -/
def typeStep (depth : Int) (quote? : Option Char) (c : Char) : Int × Option Char :=
  match quote? with
  | some quote => (depth, if c = quote then none else quote?)
  | none =>
    if c = '\x27' ∨ c = '\x22' then (depth, some c)
    else if ['<', '(', '\x7b', '['].contains c then (depth + 1, none)
    else if ['>', ')', '\x7d', ']'].contains c then (depth - 1, none)
    else (depth, none)

/-- A blank at which a type ends. -/
def TypeStops (depth : Int) (quote? : Option Char) (before : Text) (c : Char) (t : Text) : Prop :=
  quote? = none ∧ (c = ' ' ∨ c = '\t') ∧ depth ≤ 0 ∧ joins before = false ∧ joins (c :: t) = false

instance (depth : Int) (quote? : Option Char) (before : Text) (c : Char) (t : Text) :
    Decidable (TypeStops depth quote? before c t) := inferInstanceAs (Decidable (_ ∧ _))

theorem typeLength_cons (depth : Int) (quote? : Option Char) (before : Text) (c : Char) (t : Text) :
    typeLength depth quote? before (c :: t) =
      if TypeStops depth quote? before c t then 0
      else 1 + typeLength (typeStep depth quote? c).1 (typeStep depth quote? c).2 (c :: before) t := by
  cases quote? with
  | some quote =>
    have hgoes : ¬TypeStops depth (some quote) before c t := fun h => Option.some_ne_none _ h.1
    rw [if_neg hgoes]
    rfl
  | none =>
    rw [typeLength, typeStep]
    dsimp only
    by_cases hquote : c = '\x27' ∨ c = '\x22'
    · rw [if_pos hquote, if_pos hquote, if_neg]
      rintro ⟨-, hblank, -⟩
      rcases hquote with rfl | rfl <;> rcases hblank with h | h <;> cases h
    · rw [if_neg hquote, if_neg hquote]
      by_cases hopen : ['<', '(', '\x7b', '['].contains c
      · rw [if_pos hopen, if_pos hopen, if_neg]
        rintro ⟨-, rfl | rfl, -⟩ <;> cases hopen
      · rw [if_neg hopen, if_neg hopen]
        by_cases hclose : ['>', ')', '\x7d', ']'].contains c
        · rw [if_pos hclose, if_pos hclose, if_neg]
          rintro ⟨-, rfl | rfl, -⟩ <;> cases hclose
        · rw [if_neg hclose, if_neg hclose]
          refine if_congr ?_ rfl rfl
          simp [TypeStops, joins]

theorem typeStep_quote {depth : Int} {quote? : Option Char} (h : ∀ quote ∈ quote?, ¬IsNameSign quote)
    (c : Char) : ∀ quote ∈ (typeStep depth quote? c).2, ¬IsNameSign quote := by
  have hnone : ∀ quote ∈ (none : Option Char), ¬IsNameSign quote := fun _ h => absurd h (by simp)
  unfold typeStep
  split
  · split
    · exact hnone
    · exact h
  · split_ifs with hquote
    · rintro quote ⟨⟩
      rcases hquote with rfl | rfl <;> decide
    · exact hnone
    · exact hnone
    · exact hnone

/-- A type goes on over a name. -/
theorem typeLength_name {depth : Int} {quote? : Option Char} (hquote : ∀ quote ∈ quote?, ¬IsNameSign quote)
    {x : Text} (hx : ∀ c ∈ x, IsNameSign c) (before t : Text) :
    typeLength depth quote? before (x ++ t) = x.length + typeLength depth quote? (x.reverse ++ before) t := by
  induction x generalizing before with
  | nil => exact (Nat.zero_add _).symm
  | cons c x ih =>
    obtain ⟨hc, hx⟩ := List.forall_mem_cons.mp hx
    have hstep : typeStep depth quote? c = (depth, quote?) := by
      cases quote? with
      | some quote => rw [typeStep, if_neg (hc.ne (hquote quote rfl))]
      | none =>
        rw [typeStep, if_neg, if_neg, if_neg]
        all_goals
          intro h
          revert hc
        · simp only [List.contains_eq_mem, List.mem_cons, List.not_mem_nil, or_false, decide_eq_true_eq] at h
          rcases h with rfl | rfl | rfl | rfl <;> decide
        · simp only [List.contains_eq_mem, List.mem_cons, List.not_mem_nil, or_false, decide_eq_true_eq] at h
          rcases h with rfl | rfl | rfl | rfl <;> decide
        · rcases h with rfl | rfl <;> decide
    rw [List.cons_append, typeLength_cons, if_neg, hstep, ih hx, List.length_cons, List.reverse_cons,
      List.append_assoc, List.singleton_append]
    · omega
    · rintro ⟨-, rfl | rfl, -⟩ <;> revert hc <;> decide

/-- The type of a text whose names are in full now ends where it ended, or at a blank before that. -/
theorem typeLength_retold {t u : Text} (h : Retold t u) {depth : Int} {quote? : Option Char}
    (before before' : Text) {rest : Text} (hquote : ∀ quote ∈ quote?, ¬IsNameSign quote)
    (hbefore : joins before' → joins before)
    (hlength : typeLength depth quote? before (t ++ rest) = t.length) :
    ∃ v w, u = v ++ w ∧ typeLength depth quote? before' (u ++ rest) = v.length ∧
      ∀ c ∈ w.head?, c = ' ' ∨ c = '\t' := by
  induction h generalizing depth quote? before before' with
  | nil =>
    refine ⟨[], [], rfl, ?_, fun _ h => absurd h (by simp)⟩
    rw [List.nil_append] at hlength ⊢
    cases rest with
    | nil => rfl
    | cons c rest =>
      rw [typeLength_cons] at hlength ⊢
      split at hlength
      · rename_i hstops
        refine if_pos ⟨hstops.1, hstops.2.1, hstops.2.2.1, ?_, hstops.2.2.2.2⟩
        rw [Bool.eq_false_iff]
        intro hjoins
        have hstill := hbefore hjoins
        rw [hstops.2.2.2.1] at hstill
        cases hstill
      · exact absurd hlength (by rw [List.length_nil]; omega)
  | @cons c t u h ih =>
    rw [List.cons_append, typeLength_cons] at hlength
    split at hlength
    · cases hlength
    · rw [List.length_cons, Nat.add_comm 1, Nat.add_right_cancel_iff] at hlength
      by_cases hstops : TypeStops depth quote? before' c (u ++ rest)
      · refine ⟨[], c :: u, rfl, ?_, fun d hd => ?_⟩
        · rw [List.cons_append, typeLength_cons, if_pos hstops]
          rfl
        · cases hd
          exact hstops.2.1
      · obtain ⟨v, w, rfl, hnow, hw⟩ := ih (c :: before) (c :: before') (typeStep_quote hquote c)
          (fun hjoins => by
            by_cases hblank : isBlank c
            · rw [joins, List.dropWhile_cons_of_pos hblank] at hjoins ⊢
              exact hbefore hjoins
            · rw [joins, List.dropWhile_cons_of_neg hblank] at hjoins ⊢
              exact hjoins) hlength
        refine ⟨c :: v, w, rfl, ?_, hw⟩
        rw [List.cons_append, typeLength_cons, if_neg hstops, hnow, List.length_cons, Nat.add_comm]
  | @name c x y t u hc hx hy h ih =>
    have hname : ∀ d ∈ c :: x, IsNameSign d :=
      List.forall_mem_cons.mpr ⟨Or.inl (Lexer.isNameChar_of_isNameStart hc), hx⟩
    have hfull : ∀ d ∈ '\\' :: y, IsNameSign d := List.forall_mem_cons.mpr ⟨Or.inr rfl, hy⟩
    have hnone : joins (('\\' :: y).reverse ++ before') = false := by
      obtain ⟨d, e, hd, hsplit⟩ : ∃ d e, d ∈ '\\' :: y ∧
          (('\\' :: y).reverse ++ before').dropWhile isBlank = d :: e := by
        rw [List.dropWhile_append]
        cases hdrop : ('\\' :: y).reverse.dropWhile isBlank with
        | nil =>
          rw [List.dropWhile_eq_nil_iff] at hdrop
          exact absurd (hdrop '\\' (by simp)) (by decide)
        | cons d e =>
          refine ⟨d, e ++ before', ?_, rfl⟩
          have hmem := (List.dropWhile_suffix isBlank).subset (hdrop ▸ List.mem_cons_self)
          exact List.mem_reverse.mp hmem
      rw [joins, hsplit]
      have hsign := hfull d hd
      by_contra hjoins
      simp only [List.head?_cons, Option.any_some, Bool.or_eq_false_iff, not_and_or, Bool.not_eq_false,
        beq_iff_eq] at hjoins
      rcases hjoins with rfl | rfl <;> revert hsign <;> decide
    rw [← List.cons_append, List.append_assoc, typeLength_name hquote hname, List.length_append,
      Nat.add_left_cancel_iff] at hlength
    obtain ⟨v, w, rfl, hnow, hw⟩ := ih _ (('\\' :: y).reverse ++ before') hquote
      (fun hjoins => by rw [hnone] at hjoins; cases hjoins) hlength
    refine ⟨'\\' :: y ++ v, w, by rw [List.append_assoc]; rfl, ?_, hw⟩
    rw [← List.cons_append, List.append_assoc, typeLength_name hquote hfull, hnow, List.length_append]

/-- What is found before a blank is found in the whole text. -/
theorem namesFrom_before_blank {templates : List Text} {state : NameState}
    (hstate : state = .outside ∨ ∃ quote, state = .quoted quote) {before? : Option Char} {offset : Nat}
    {t u : Text} (hu : ∀ c ∈ u.head?, c = ' ' ∨ c = '\t') :
    ∀ r ∈ namesFrom templates state before? offset t, r ∈ namesFrom templates state before? offset (t ++ u) := by
  have hstop : nameLength u = 0 ∧ u.head?.any isNameStart = false := by
    cases u with
    | nil => exact ⟨rfl, rfl⟩
    | cons c u =>
      rw [Lexer.nameLength_cons_eq_zero_iff]
      rcases hu c rfl with rfl | rfl <;> exact ⟨⟨rfl, by simp⟩, rfl⟩
  have hhead (v : Text) : (v ++ u).head?.any isNameStart = v.head?.any isNameStart := by
    cases v with
    | nil => exact hstop.2
    | cons c v => rfl
  induction hn : t.length using Nat.strong_induction_on
    generalizing t state before? offset with
  | _ k ih =>
  subst hn
  cases t with
  | nil => rcases hstate with rfl | ⟨quote, rfl⟩ <;> exact List.forall_mem_nil _
  | cons c t =>
    have hpass {next : NameState} (hnext : next = .outside ∨ ∃ quote, next = .quoted quote) :
        ∀ r ∈ namesFrom templates next (some c) (offset + c.utf8Size) t,
          r ∈ namesFrom templates next (some c) (offset + c.utf8Size) (t ++ u) :=
      ih t.length (Nat.lt_succ_self _) hnext rfl
    rcases hstate with rfl | ⟨quote, rfl⟩
    · by_cases hq : c = '\x27' ∨ c = '\x22'
      · rw [List.cons_append, namesFrom_quote hq, namesFrom_quote hq]
        exact hpass (Or.inr ⟨c, rfl⟩)
      · by_cases hstart : isNameStart c ∨ c = '\\' ∧ t.head?.any isNameStart
        · obtain ⟨n, rest, hsplit, hname, hrest⟩ := exists_written hstart
          obtain ⟨d, m, rfl, -⟩ := hname.shape
          have hrest' : nameLength (rest ++ u) = 0 := by
            cases rest with
            | nil => exact hstop.1
            | cons e rest =>
              rw [List.cons_append, Lexer.nameLength_cons_eq_zero_iff, hhead]
              exact Lexer.nameLength_cons_eq_zero_iff.mp hrest
          have hclass : isClassName templates before? (d :: m) (rest ++ u) =
              isClassName templates before? (d :: m) rest := by
            cases rest with
            | nil =>
              cases u with
              | nil => rfl
              | cons e u => rcases hu e rfl with rfl | rfl <;> rfl
            | cons e rest =>
              have hcolons : Text.startsWith (e :: rest ++ u) "::" = Text.startsWith (e :: rest) "::" := by
                rw [Bool.eq_iff_iff, startsWith_colons_iff, startsWith_colons_iff]
                cases rest with
                | nil =>
                  refine and_congr_right fun _ => iff_of_false (fun hcolon => ?_) (by simp)
                  rcases hu ':' hcolon with h | h <;> cases h
                | cons f rest => rfl
              rw [isClassName, isClassName, hcolons]
              rfl
          have hshort : rest.length < (c :: t).length := by
            rw [hsplit, List.length_append, List.length_cons]
            omega
          rw [hsplit, List.append_assoc, namesFrom_written hname hrest, namesFrom_written hname hrest',
            hclass]
          refine List.forall_mem_append.mpr ⟨fun r hr => List.mem_append_left _ hr, fun r hr => ?_⟩
          exact List.mem_append_right _ (ih rest.length hshort (Or.inl rfl) rfl r hr)
        · have hstart' : ¬(isNameStart c ∨ c = '\\' ∧ (t ++ u).head?.any isNameStart) := by rwa [hhead]
          rw [List.cons_append, namesFrom_other (not_or.mp hq) hstart,
            namesFrom_other (not_or.mp hq) hstart']
          exact hpass (Or.inl rfl)
    · rw [List.cons_append, namesFrom, namesFrom]
      refine hpass ?_
      split
      · exact Or.inl rfl
      · exact Or.inr ⟨quote, rfl⟩

end DocComment
end NamespaceMigration
