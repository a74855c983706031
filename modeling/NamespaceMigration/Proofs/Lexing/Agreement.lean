import NamespaceMigration.Proofs.Lexing.Names

/-! How far the scanners look ahead. Two texts agree if they run alike up to a place where one has a
name and the other has one in full, or where both have a comment or a sign that nothing goes on with, or
perhaps a gap. What is scanned before two texts that agree is scanned alike. -/
namespace NamespaceMigration
namespace Lexer

/-- A sign that ends a statement. No token that starts before it goes beyond it unless it is a
string, a heredoc or a comment. -/
def isStop (c : Char) : Bool := c == ';' || c == '\x7d'

/-- A sign that words are apart by. -/
def isGap (c : Char) : Bool := isSpace c || c == ','

/-- The texts run alike until a name, a comment or the end of a statement. If `gaps` are counted, they may
also run alike until a gap before something else. -/
inductive Agree (gaps : Prop) : Text → Text → Prop
  | nil : Agree gaps [] []
  | cons (c : Char) {r r' : Text} : Agree gaps r r' → Agree gaps (c :: r) (c :: r')
  | name {c d : Char} {r r' : Text} : isNameStart c → isNameStart d →
      Agree gaps (c :: r) ('\\' :: d :: r')
  | full {c d : Char} {r r' : Text} : isNameStart c → isNameStart d →
      Agree gaps ('\\' :: c :: r) ('\\' :: d :: r')
  | comment {r r' : Text} : Agree gaps ('/' :: '*' :: r) ('/' :: '*' :: r')
  | stop {c : Char} {r r' : Text} : isStop c → Agree gaps (c :: r) (c :: r')
  | gap {c : Char} {r r' : Text} : gaps → isGap c → r.head?.any isSpace = false →
      r'.head?.any isSpace = false → Agree gaps (c :: r) (c :: r')

variable {gaps : Prop}

theorem isStop_iff {c : Char} : isStop c ↔ c = ';' ∨ c = '\x7d' := by simp [isStop]

theorem isGap_iff {c : Char} :
    isGap c ↔ c = ' ' ∨ c = '\t' ∨ c = '\r' ∨ c = '\n' ∨ c = ',' := by simp [isGap, isSpace, or_assoc]

namespace Agree

theorem append (w : Text) {r r' : Text} (h : Agree gaps r r') : Agree gaps (w ++ r) (w ++ r') := by
  induction w with
  | nil => exact h
  | cons c w ih => exact .cons c ih

theorem eq_nil {r' : Text} (h : Agree gaps [] r') : r' = [] := by
  cases h
  rfl

theorem eq_backslash {r' : Text} (h : Agree gaps ['\\'] r') : r' = ['\\'] := by
  cases h with
  | cons _ h => rw [h.eq_nil]
  | name hc => simp [isNameStart] at hc
  | stop hc => simp [isStop] at hc
  | gap _ hc => simp [isGap, isSpace] at hc

theorem of_cons {c : Char} {r r' : Text} (h : Agree gaps (c :: r) r') (h1 : isNameStart c = false)
    (h2 : c ≠ '\\') (h3 : c ≠ '/') (h4 : isStop c = false) (h5 : gaps → isGap c = false) :
    ∃ u, r' = c :: u ∧ Agree gaps r u := by
  cases h with
  | cons _ h => exact ⟨_, rfl, h⟩
  | name hc => simp [h1] at hc
  | full => simp at h2
  | comment => simp at h3
  | stop hc => simp [h4] at hc
  | gap hgaps hc => simp [h5 hgaps] at hc

theorem head_eq_false {r r' : Text} (h : Agree gaps r r') {p : Char → Bool} (hp : p '\\' = false)
    (hr : r.head?.any p = false) : r'.head?.any p = false := by
  cases h with
  | nil => rfl
  | cons => simpa using hr
  | name => simpa using hp
  | full => simpa using hp
  | comment => simpa using hr
  | stop => simpa using hr
  | gap => simpa using hr

theorem nameLength_eq_zero {r r' : Text} (h : Agree gaps r r') (hr : nameLength r = 0) :
    nameLength r' = 0 := by
  cases h with
  | nil => rfl
  | @cons c r r' h =>
    rw [nameLength_cons_eq_zero_iff] at hr ⊢
    refine ⟨hr.1, ?_⟩
    rintro ⟨rfl, hr'⟩
    have hhead : r.head?.any isNameStart = false := by simpa using hr.2
    have := h.head_eq_false (p := isNameStart) (by decide) hhead
    simp [this] at hr'
  | @name c d r r' hc =>
    have := nameLength_pos hc r
    omega
  | full hc =>
    rw [nameLength_cons_eq_zero_iff] at hr
    exact absurd ⟨rfl, hc⟩ hr.2
  | comment => rfl
  | stop hc => rcases isStop_iff.mp hc with rfl | rfl <;> rfl
  | gap _ hc => rcases isGap_iff.mp hc with rfl | rfl | rfl | rfl | rfl <;> rfl

/-- Whether a text goes on with some fixed symbols is the same for both. -/
theorem prefix_iff {r r' : Text} (h : Agree gaps r r') {p : Text}
    (hp : ∀ c ∈ p, isNameStart c = false ∧ c ≠ '\\') (hlen : p.length ≤ 2 ∨ '/' ∉ p)
    (hstop : p.length ≤ 1 ∨ ∀ c ∈ p, isStop c = false)
    (hgap : p.IsChain fun c d => isGap c → isSpace d) : p <+: r ↔ p <+: r' := by
  induction p generalizing r r' with
  | nil => simp
  | cons a p ih =>
    have ha := hp a (by simp)
    cases h with
    | nil => rfl
    | cons c h =>
      have hlen' : p.length ≤ 2 ∨ '/' ∉ p := by
        rcases hlen with hlen | hlen
        · rw [List.length_cons] at hlen
          exact Or.inl (by omega)
        · exact Or.inr fun hp => hlen (List.mem_cons_of_mem a hp)
      have hstop' : p.length ≤ 1 ∨ ∀ c ∈ p, isStop c = false := by
        rcases hstop with hstop | hstop
        · rw [List.length_cons] at hstop
          exact Or.inl (by omega)
        · exact Or.inr fun c hc => hstop c (List.mem_cons_of_mem a hc)
      have := ih h (fun c hc => hp c (List.mem_cons_of_mem a hc)) hlen' hstop' hgap.of_cons
      simp [List.cons_prefix_cons, this]
    | @name c d r r' hc =>
      have : a ≠ c := by
        rintro rfl
        simp [ha.1] at hc
      simp [List.cons_prefix_cons, this, ha.2]
    | full => simp [List.cons_prefix_cons, ha.2]
    | comment =>
      rcases hlen with hlen | hlen
      · match p with
        | [] => simp [List.cons_prefix_cons]
        | [b] => simp [List.cons_prefix_cons]
        | _ :: _ :: _ => simp at hlen
      · have : a ≠ '/' := fun ha => hlen (ha ▸ List.mem_cons_self)
        simp [List.cons_prefix_cons, this]
    | @stop c r r' hc =>
      rcases hstop with hstop | hstop
      · obtain rfl : p = [] := List.eq_nil_of_length_eq_zero (by
          rw [List.length_cons] at hstop
          omega)
        simp [List.cons_prefix_cons]
      · have : a ≠ c := by
          rintro rfl
          simp [hstop a] at hc
        simp [List.cons_prefix_cons, this]
    | @gap c r r' _ hc hr hr' =>
      cases p with
      | nil => simp [List.cons_prefix_cons]
      | cons b p =>
        have hnone {u : Text} (hu : u.head?.any isSpace = false) : ¬a :: b :: p <+: c :: u := by
          rintro ⟨v, hv⟩
          obtain ⟨rfl, rfl⟩ := List.cons.inj hv
          have hspace := (List.isChain_cons_cons.mp hgap).1 hc
          simp [hspace] at hu
        exact iff_of_false (hnone hr) (hnone hr')

/-- Runs of characters that are in no name and no comment and end no statement are the same in both
texts. -/
theorem exists_run {r r' : Text} (h : Agree False r r') {p : Char → Bool}
    (hp : ∀ c, p c → isNameStart c = false ∧ c ≠ '\\' ∧ c ≠ '/' ∧ isStop c = false) :
    ∃ u v v', r = u ++ v ∧ r' = u ++ v' ∧ Agree False v v' ∧ u.all p ∧ v.head?.any p = false ∧
      v'.head?.any p = false := by
  induction r generalizing r' with
  | nil =>
    obtain rfl := h.eq_nil
    exact ⟨[], [], [], rfl, rfl, .nil, rfl, rfl, rfl⟩
  | cons c r ih =>
    by_cases hc : p c
    · obtain ⟨h1, h2, h3, h4⟩ := hp c hc
      obtain ⟨u', rfl, hu⟩ := h.of_cons h1 h2 h3 h4 False.elim
      obtain ⟨u, v, v', rfl, rfl, hv, hall, hv1, hv2⟩ := ih hu
      exact ⟨c :: u, v, v', rfl, rfl, hv, by simp [hc, hall], hv1, hv2⟩
    · have hpb : p '\\' = false := by
        by_contra hb
        exact (hp '\\' (by simpa using hb)).2.1 rfl
      exact ⟨[], c :: r, r', rfl, rfl, h, rfl, by simpa using hc,
        h.head_eq_false hpb (by simpa using hc)⟩

end Agree

/-- A scanner that stops inside `w` stops there whatever comes after, if it looks alike. -/
def Local (f : Text → Nat) : Prop :=
  ∀ (w : Text) {gaps : Prop} {r r' : Text}, Agree gaps r r' → f (w ++ r) ≤ w.length → f (w ++ r') = f (w ++ r)

theorem runLength_eq_zero_iff {p : Char → Bool} {t : Text} :
    runLength p t = 0 ↔ t.head?.any p = false := by
  cases t with
  | nil => simp [runLength]
  | cons c t => by_cases h : p c <;> simp [runLength, h]

theorem runLength_append {p : Char → Bool} {u v : Text} (hu : u.all p) (hv : v.head?.any p = false) :
    runLength p (u ++ v) = u.length := by
  have h0 : (v.takeWhile p).length = 0 := runLength_eq_zero_iff.mpr hv
  rw [runLength, List.takeWhile_append_of_pos (by simpa using hu), List.length_append, h0,
    Nat.add_zero]

theorem local_runLength {p : Char → Bool} (hp : p '\\' = false) : Local (runLength p) := by
  intro w gaps r r' h hw
  induction w with
  | nil =>
    have h0 : runLength p r = 0 := by simpa using hw
    rw [List.nil_append, List.nil_append, h0, runLength_eq_zero_iff]
    exact h.head_eq_false hp (runLength_eq_zero_iff.mp h0)
  | cons c w ih =>
    rw [List.cons_append, List.length_cons] at hw
    rw [List.cons_append, List.cons_append]
    cases hc : p c with
    | true =>
      rw [runLength_cons_of_pos hc] at hw ⊢
      rw [runLength_cons_of_pos hc, ih (by omega)]
    | false => rw [runLength_cons_of_neg hc, runLength_cons_of_neg hc]

theorem local_nameLength : Local nameLength := by
  intro w gaps r r' h hw
  induction w with
  | nil =>
    have h0 : nameLength r = 0 := by simpa using hw
    rw [List.nil_append, List.nil_append, h0, h.nameLength_eq_zero h0]
  | cons c w ih =>
    have hhead : c = '\\' → (w ++ r').head?.any isNameStart = (w ++ r).head?.any isNameStart := by
      rintro rfl
      cases w with
      | cons d w => rfl
      | nil =>
        cases hr : r.head?.any isNameStart with
        | false => simpa [hr] using h.head_eq_false (p := isNameStart) (by decide) hr
        | true =>
          -- The name would go on with the segment that follows.
          obtain ⟨d, u, rfl⟩ : ∃ d u, r = d :: u :=
            List.exists_cons_of_ne_nil (by rintro rfl; simp at hr)
          have hlong : nameLength ('\\' :: d :: u) = 1 + nameLength (d :: u) := by
            rw [nameLength, if_neg (by decide), if_pos ⟨rfl, hr⟩]
          have := nameLength_pos (c := d) (by simpa using hr) u
          simp only [List.cons_append, List.nil_append, List.length_cons, List.length_nil] at hw
          omega
    rw [List.cons_append, nameLength, List.length_cons] at hw
    rw [List.cons_append, List.cons_append, nameLength, nameLength]
    by_cases h1 : isNameChar c
    · rw [if_pos h1] at hw
      rw [if_pos h1, if_pos h1, ih (by omega)]
    · rw [if_neg h1] at hw
      rw [if_neg h1, if_neg h1]
      by_cases h2 : c = '\\' ∧ (w ++ r).head?.any isNameStart
      · rw [if_pos h2] at hw
        rw [if_pos h2, if_pos ⟨h2.1, hhead h2.1 ▸ h2.2⟩, ih (by omega)]
      · have h3 : ¬(c = '\\' ∧ (w ++ r').head?.any isNameStart) :=
          fun h3 => h2 ⟨h3.1, hhead h3.1 ▸ h3.2⟩
        rw [if_neg h2, if_neg h3]

end Lexer
end NamespaceMigration
