import NamespaceMigration.Proofs.References.Scanning

/-! The scan does not care how references are spelled. When some of them are written in full, the
scan finds the same ones: it goes by the tokens around a name, and by the name only where that is no
reference. -/
namespace NamespaceMigration

/-- The index in the file of the token at a position. -/
def Window.index? (w : Window) (p : Nat) : Option Nat := w[p]?.map (·.1)

/-- A window in which the names at the changed positions, all of them references, are written in
full. -/
structure Window.Respelled (w w' : Window) (changed : Nat → Prop) : Prop where
  index : ∀ p, w'.index? p = w.index? p
  same : ∀ p, ¬changed p → w'.kind? p = w.kind? p ∧ w'.text p = w.text p
  name : ∀ p, changed p → ∃ kind, w.kind? p = some kind ∧ kind.isName ∧
    w'.kind? p = some .nameFullyQualified
  free : ∀ p, changed p → w.Free p

namespace Window.Respelled

variable {w w' : Window} {changed : Nat → Prop} (h : w.Respelled w' changed)
include h

theorem kind?_cases (p : Nat) : w'.kind? p = w.kind? p ∨
    ∃ kind, w.kind? p = some kind ∧ kind.isName ∧ w'.kind? p = some .nameFullyQualified := by
  by_cases hp : changed p
  · exact Or.inr (h.name p hp)
  · exact Or.inl (h.same p hp).1

theorem back?_cases (p n : Nat) : w'.back? p n = w.back? p n ∨
    ∃ kind, w.back? p n = some kind ∧ kind.isName ∧ w'.back? p n = some .nameFullyQualified := by
  rw [back?, back?]
  split
  · exact Or.inl rfl
  · exact h.kind?_cases _

theorem kind?_beq {kind : TokenKind} (hkind : kind.isName = false) (p : Nat) :
    (w'.kind? p == some kind) = (w.kind? p == some kind) := by
  rcases h.kind?_cases p with heq | ⟨k, hk, hname, hk'⟩
  · rw [heq]
  · rw [hk, hk', Bool.eq_iff_iff, beq_iff_eq, beq_iff_eq, Option.some.injEq, Option.some.injEq]
    constructor <;> rintro rfl
    · cases hkind
    · rw [hname] at hkind
      cases hkind

theorem back?_beq {kind : TokenKind} (hkind : kind.isName = false) (p n : Nat) :
    (w'.back? p n == some kind) = (w.back? p n == some kind) := by
  rw [back?, back?]
  split
  · rfl
  · exact h.kind?_beq hkind _

theorem isAt_eq {kind : TokenKind} (hkind : kind.isName = false) (p : Nat) :
    w'.isAt p kind = w.isAt p kind := h.kind?_beq hkind p

theorem kind?_any {f : TokenKind → Bool} {b : Bool} (hf : ∀ kind, kind.isName → f kind = b) (p : Nat) :
    (w'.kind? p).any f = (w.kind? p).any f := by
  rcases h.kind?_cases p with heq | ⟨k, hk, hname, hk'⟩
  · rw [heq]
  · rw [hk, hk', Option.any_some, Option.any_some, hf k hname, hf _ rfl]

theorem back?_any {f : TokenKind → Bool} {b : Bool} (hf : ∀ kind, kind.isName → f kind = b)
    (p n : Nat) : (w'.back? p n).any f = (w.back? p n).any f := by
  rw [back?, back?]
  split
  · rfl
  · exact h.kind?_any hf _

theorem isName_eq (p : Nat) : w'.isName p = w.isName p := h.kind?_any (fun _ => id) p

theorem text_eq {kind : TokenKind} (hkind : kind.isName = false) {p : Nat}
    (hp : w.kind? p = some kind) : w'.text p = w.text p := by
  by_cases hchanged : changed p
  · obtain ⟨k, hk, hname, -⟩ := h.name p hchanged
    rw [hk, Option.some.injEq] at hp
    subst hp
    rw [hname] at hkind
    cases hkind
  · exact (h.same p hchanged).2

theorem isVisibility_eq (p : Nat) : w'.isVisibility p = w.isVisibility p := by
  rw [isVisibility, isVisibility]
  rcases h.kind?_cases p with heq | ⟨k, hk, hname, hk'⟩
  · rw [heq]
    split
    · rfl
    · rename_i hkind
      rw [h.text_eq rfl hkind]
    · rfl
  · rw [hk, hk']
    cases k <;> first | rfl | cases hname

theorem isTypeBoundary_eq (inParameters : Bool) (p : Nat) :
    w'.isTypeBoundary inParameters p = w.isTypeBoundary inParameters p := by
  rw [isTypeBoundary, isTypeBoundary, h.isVisibility_eq]
  rcases h.kind?_cases p with heq | ⟨k, hk, hname, hk'⟩
  · rw [heq]
  · rw [hk, hk']
    cases k <;> first | rfl | cases hname

theorem typeReaches_eq (inParameters : Bool) (p : Nat) :
    w'.typeReaches inParameters p = w.typeReaches inParameters p := by
  rw [typeReaches, typeReaches, h.back?_beq rfl, h.back?_beq (rfl : TokenKind.ampersand.isName = false),
    h.isTypeBoundary_eq]
  rcases h.back?_cases p 1 with heq | ⟨k, hk, hname, hk'⟩
  · rw [heq]
  · rw [hk, hk']
    cases k <;> first | rfl | cases hname

theorem typeStart_eq (inParameters : Bool) (p : Nat) :
    w'.typeStart inParameters p = w.typeStart inParameters p := by
  induction p with
  | zero => rfl
  | succ p ih => rw [typeStart, typeStart, h.typeReaches_eq, ih]

theorem endsType_eq (p n : Nat) : endsType (w'.back? p n) = endsType (w.back? p n) :=
  h.back?_any (fun kind hname => by rw [hname, Bool.true_or]) p n

omit h in
theorem typeLength?_congr {ks ks' : List TokenKind} (hkinds : ∀ i : Nat, ks'[i]? = ks[i]? ∨
    ∃ kind, ks[i]? = some kind ∧ kind.isName ∧ ks'[i]? = some .nameFullyQualified) (depth : Nat) :
    typeLength? depth ks' = typeLength? depth ks := by
  induction ks generalizing ks' depth with
  | nil =>
    cases ks' with
    | nil => rfl
    | cons => rcases hkinds 0 with heq | ⟨k, hk, -⟩ <;> contradiction
  | cons kind ks ih =>
    cases ks' with
    | nil => rcases hkinds 0 with heq | ⟨k, -, -, hk⟩ <;> contradiction
    | cons kind' ks' =>
      have hrest := @ih ks' fun i => hkinds (i + 1)
      rcases hkinds 0 with heq | ⟨k, hk, hname, hk'⟩
      · cases heq
        simp only [typeLength?, hrest]
      · cases hk
        cases hk'
        cases kind <;> first | (cases hname; done) | simp [typeLength?, hrest, TokenKind.isName]

theorem kinds_cases (start i : Nat) :
    ((w'.toList.drop start).map (·.2.kind))[i]? = ((w.toList.drop start).map (·.2.kind))[i]? ∨
      ∃ kind, ((w.toList.drop start).map (·.2.kind))[i]? = some kind ∧ kind.isName ∧
        ((w'.toList.drop start).map (·.2.kind))[i]? = some .nameFullyQualified := by
  have hkind (v : Window) : ((v.toList.drop start).map (·.2.kind))[i]? = v.kind? (start + i) := by
    rw [List.getElem?_map, List.getElem?_drop, Array.getElem?_toList]
    rfl
  rw [hkind, hkind]
  exact h.kind?_cases _

theorem inTypeRun_eq (stack : List BracketRole) (p : Nat) :
    w'.inTypeRun stack p = w.inTypeRun stack p := by
  rw [inTypeRun, inTypeRun]
  dsimp only
  rw [h.typeStart_eq, h.isTypeBoundary_eq, typeLength?_congr (h.kinds_cases _)]
  generalize w.typeStart (stack.find? (· ≠ .group) == some .parameters) p = start
  simp only [h.endsType_eq, h.back?_beq (rfl : TokenKind.ampersand.isName = false)]

omit h in
theorem back?_sub {p n : Nat} (hp : 1 ≤ p) : w.back? (p - 1) n = w.back? p (n + 1) := by
  rw [back?, back?]
  have hlt : p - 1 < n ↔ p < n + 1 := by omega
  have hsub : p - 1 - n = p - (n + 1) := by omega
  rw [if_congr hlt rfl rfl, hsub]

/-- No reference is the name of a function, so no parameters follow one. -/
theorem opensParameters_of_changed {p : Nat} (hp : 1 ≤ p) (hchanged : changed (p - 1)) :
    w'.opensParameters p = false ∧ w.opensParameters p = false := by
  have hback (v : Window) : v.back? p 1 = v.kind? (p - 1) := if_neg (by omega)
  obtain ⟨kind, hkind, hname, hkind'⟩ := h.name _ hchanged
  have hfree := h.free _ hchanged
  constructor
  · rw [opensParameters, hback, hkind']
  · have hfunction : w.back? p 2 ≠ some .kwFunction := by
      intro hfunction
      rw [← back?_sub hp] at hfunction
      cases hfree.before _ hfunction
    have hreference : ¬(w.back? p 2 = some .ampersand ∧ w.back? p 3 = some .kwFunction) := by
      rw [← back?_sub hp, ← back?_sub hp]
      exact hfree.byReference
    rw [opensParameters, hback, hkind]
    cases kind <;> first | rfl | (cases hname; done) | simpa [hfunction] using hreference

theorem opensParameters_eq (p : Nat) : w'.opensParameters p = w.opensParameters p := by
  by_cases hp : 1 ≤ p ∧ changed (p - 1)
  · obtain ⟨hfalse', hfalse⟩ := h.opensParameters_of_changed hp.1 hp.2
    rw [hfalse', hfalse]
  · have heq : w'.back? p 1 = w.back? p 1 := by
      rw [back?, back?]
      split
      · rfl
      · exact (h.same _ fun hchanged => hp ⟨by omega, hchanged⟩).1
    rw [opensParameters, opensParameters, heq, h.back?_beq rfl,
      h.back?_beq (rfl : TokenKind.ampersand.isName = false),
      h.back?_beq (rfl : TokenKind.kwFunction.isName = false),
      h.back?_beq (rfl : TokenKind.kwFn.isName = false)]

theorem parenRole_eq (s : ScanState) (p : Nat) : w'.parenRole s p = w.parenRole s p := by
  rw [parenRole, parenRole, h.opensParameters_eq, h.back?_beq rfl]

end Window.Respelled

namespace Window

variable {w w' : Window} {changed : Nat → Prop} (h : w.Respelled w' changed)
include h

theorem next_respelled (s : ScanState) (inImport : Bool) (p : Nat) (kind : TokenKind) :
    s.next w' inImport p kind = s.next w inImport p kind := by
  simp only [ScanState.next, h.parenRole_eq, h.isName_eq, h.isAt_eq (rfl : TokenKind.colon.isName = false)]

theorem isTypeName_respelled (s : ScanState) (p : Nat) : w'.isTypeName s p = w.isTypeName s p := by
  have hprecedes : ∀ kind : TokenKind, kind.isName → precedesType kind = false := by
    intro kind hname
    cases kind <;> first | rfl | cases hname
  rw [isTypeName, isTypeName, h.back?_any hprecedes, h.back?_beq rfl, h.isAt_eq rfl, h.inTypeRun_eq]

theorem enumHead_respelled {p : Nat} (hident : w.kind? p = some .ident) :
    (Text.eqIgnoreCase (w.text p) "enum" && w'.kind? (p + 1) == some .ident) =
      (Text.eqIgnoreCase (w.text p) "enum" && w.kind? (p + 1) == some .ident) := by
  by_cases hnext : changed (p + 1)
  · obtain ⟨kind, hkind, -, hkind'⟩ := h.name _ hnext
    have hfree := (h.free _ hnext).enumerated
    rw [hkind, hkind']
    by_cases hsame : kind = .ident
    · subst hsame
      have henum : Text.eqIgnoreCase (w.text p) "enum" = false := hfree hkind hident
      rw [henum, Bool.false_and, Bool.false_and]
    · have hne : (some kind == some TokenKind.ident) = false := by simpa using hsame
      rw [hne]
      rfl
  · rw [(h.same _ hnext).1]

/-- A word for an enumeration that a name follows is no reference. -/
theorem enumName_respelled {p : Nat} (hident : w.kind? p = some .ident) :
    (w'.back? p 1 == some .ident && Text.eqIgnoreCase (w'.text (p - 1)) "enum") =
      (w.back? p 1 == some .ident && Text.eqIgnoreCase (w.text (p - 1)) "enum") := by
  by_cases hp : p < 1
  · have hback (v : Window) : v.back? p 1 = none := if_pos hp
    rw [hback, hback]
    rfl
  · have hback (v : Window) : v.back? p 1 = v.kind? (p - 1) := if_neg hp
    rw [hback, hback]
    by_cases hprevious : changed (p - 1)
    · obtain ⟨kind, hkind, -, hkind'⟩ := h.name _ hprevious
      rw [hkind, hkind']
      by_cases hsame : kind = .ident
      · subst hsame
        have henum : Text.eqIgnoreCase (w.text (p - 1)) "enum" = false := by
          rw [Bool.eq_false_iff]
          intro henum
          refine (h.free _ hprevious).enumeration hkind henum ?_
          rwa [Nat.sub_add_cancel (by omega)]
        rw [henum, Bool.and_false]
        rfl
      · have hne : (some kind == some TokenKind.ident) = false := by simpa using hsame
        rw [hne]
        rfl
    · rw [(h.same _ hprevious).1, (h.same _ hprevious).2]

theorem isPlainWord_respelled {p : Nat} (hp : ¬changed p) (hident : w.kind? p = some .ident)
    (s : ScanState) : w'.isPlainWord s p = w.isPlainWord s p := by
  have hlabel : ([none, some .leftParen, some .comma, some .semicolon, some .leftBrace, some .rightBrace,
      some .error] : List (Option TokenKind)).contains (w'.back? p 1) =
      ([none, some .leftParen, some .comma, some .semicolon, some .leftBrace, some .rightBrace,
        some .error] : List (Option TokenKind)).contains (w.back? p 1) := by
    rcases h.back?_cases p 1 with heq | ⟨k, hk, hname, hk'⟩
    · rw [heq]
    · rw [hk, hk']
      cases k <;> first | rfl | cases hname
  rw [isPlainWord, isPlainWord]
  dsimp only
  rw [enumName_respelled h hident, (h.same p hp).2, enumHead_respelled h hident, hlabel,
    h.kind?_beq rfl, h.kind?_beq (rfl : TokenKind.colon.isName = false),
    h.kind?_beq (rfl : TokenKind.semicolon.isName = false),
    h.back?_beq rfl, h.back?_beq (rfl : TokenKind.kwAs.isName = false)]

/-- A name that changes is found, and the others are found if they were before. -/
theorem classify?_respelled {s : ScanState} {p : Nat} (hp : changed p → (w.classify? s p).isSome) :
    w'.classify? s p = w.classify? s p := by
  have hprecedes : ∀ kind : TokenKind, kind.isName → precedesNoReference kind = false := by
    intro kind hname
    cases kind <;> first | rfl | cases hname
  have hcommon : w'.classify? s p =
      if (w.back? p 1).any precedesNoReference then none
      else if w.back? p 1 == some .ampersand && w.back? p 2 == some .kwFunction then none
      else if w'.isAt p .ident && w'.isPlainWord s p then none
      else if s.stack.head? == some .traitRules then
        if w.kind? (p + 1) == some .kwAs || w.kind? (p + 1) == some .kwInsteadof ||
          w.back? p 1 == some .kwAs || (0 < p && w.isVisibility (p - 1))
        then none
        else some .type
      else if w.isTypeName s p then some .type
      else if w'.isAt p .ident && (0 < p && w.isVisibility (p - 1)) then none
      else if w.kind? (p + 1) == some .leftParen then some .function
      else some .constant := by
    rw [classify?]
    simp only [h.back?_any hprecedes, h.back?_beq (rfl : TokenKind.ampersand.isName = false),
      h.back?_beq (rfl : TokenKind.kwFunction.isName = false),
      h.back?_beq (rfl : TokenKind.kwAs.isName = false),
      h.kind?_beq (rfl : TokenKind.kwAs.isName = false),
      h.kind?_beq (rfl : TokenKind.kwInsteadof.isName = false),
      h.kind?_beq (rfl : TokenKind.leftParen.isName = false), h.isVisibility_eq, isTypeName_respelled h]
  rw [hcommon]
  by_cases hchanged : changed p
  · obtain ⟨kind, hsome⟩ := Option.isSome_iff_exists.mp (hp hchanged)
    obtain ⟨_, -, -, hkind'⟩ := h.name p hchanged
    have hident' : w'.isAt p .ident = false := by
      rw [isAt, hkind']
      rfl
    rw [hsome, hident', Bool.false_and, Bool.false_and]
    revert hsome
    rw [classify?]
    split
    · exact id
    split
    · exact id
    split
    · rintro ⟨⟩
    rw [if_neg Bool.false_ne_true]
    split
    · exact id
    split
    · exact id
    split
    · rintro ⟨⟩
    exact id
  · have hident : w'.isAt p .ident = w.isAt p .ident := by rw [isAt, isAt, (h.same p hchanged).1]
    have hplain : (w.isAt p .ident && w'.isPlainWord s p) = (w.isAt p .ident && w.isPlainWord s p) := by
      by_cases hkind : w.kind? p = some .ident
      · rw [isPlainWord_respelled h hchanged hkind]
      · have hnot : w.isAt p .ident = false := by simpa [isAt] using hkind
        rw [hnot, Bool.false_and, Bool.false_and]
    rw [hident, hplain, classify?]

theorem getElem?_respelled {p index : Nat} {token : Token} (hitem : w[p]? = some (index, token)) :
    ∃ token', w'[p]? = some (index, token') ∧ token'.kind.isName = token.kind.isName ∧
      (token.kind.isName = false → token'.kind = token.kind) := by
  have hindex := h.index p
  rw [index?, index?, hitem] at hindex
  obtain ⟨⟨index', token'⟩, hitem', hsame⟩ := Option.map_eq_some_iff.mp hindex
  cases hsame
  have hkind : w.kind? p = some token.kind := by rw [kind?, hitem]; rfl
  have hkind' : w'.kind? p = some token'.kind := by rw [kind?, hitem']; rfl
  refine ⟨token', hitem', ?_⟩
  rcases h.kind?_cases p with heq | ⟨k, hk, hname, hk'⟩
  · rw [hkind, hkind', Option.some.injEq] at heq
    exact ⟨congrArg _ heq, fun _ => heq⟩
  · rw [hkind, Option.some.injEq] at hk
    rw [hkind', Option.some.injEq] at hk'
    subst hk
    rw [hk', hname]
    refine ⟨rfl, ?_⟩
    rintro ⟨⟩

end Window

namespace SourceFile

variable {w w' : Window} {changed : Nat → Prop}

/-- If all that changes are references, the scan finds the same references as before. -/
theorem referencesAt_respelled (h : w.Respelled w' changed) {textAt : Nat → Text}
    (htext : ∀ (p index : Nat) (token : Token), w'[p]? = some (index, token) →
      textAt index = token.text)
    (hindex : ∀ p q index, w.index? p = some index → w.index? q = some index → p = q)
    {inImport : Nat → Bool} {s : ScanState} {ps : List Nat} (hps : ps.Nodup)
    (hfound : ∀ p ∈ ps, changed p → ∃ r ∈ referencesAt w inImport s ps, w.index? p = some r.token) :
    referencesAt w' inImport s ps =
      (referencesAt w inImport s ps).map fun r => ⟨r.token, r.kind, textAt r.token⟩ := by
  induction ps generalizing s with
  | nil => rfl
  | cons p ps ih =>
    rw [List.nodup_cons] at hps
    cases hitem : w[p]? with
    | none =>
      have hitem' : w'[p]? = none := by
        have := h.index p
        rwa [Window.index?, Window.index?, hitem, Option.map_none, Option.map_eq_none_iff] at this
      rw [referencesAt, referencesAt, hitem, hitem']
      rfl
    | some item =>
      obtain ⟨index, token⟩ := item
      obtain ⟨token', hitem', hname, hkind⟩ := Window.getElem?_respelled h hitem
      have hp : w.index? p = some index := by rw [Window.index?, hitem]; rfl
      -- The reference at a later position is none at this one.
      have hlater : ∀ q ∈ ps, ∀ r : Reference, w.index? q = some r.token → r.token ≠ index := by
        rintro q hq r hr rfl
        exact hps.1 (hindex q p _ hr hp ▸ hq)
      by_cases htokenName : token.kind.isName
      · have hstep (v : Window) (t : Token) (hv : v[p]? = some (index, t)) (ht : t.kind.isName) :
            referencesAt v inImport s (p :: ps) =
              ((if inImport index then none else v.classify? s p).map
                fun kind => ⟨index, kind, t.text⟩).toList ++ referencesAt v inImport s ps := by
          rw [referencesAt, hv]
          refine (if_pos ht).trans ?_
          cases if inImport index then none else v.classify? s p <;> rfl
        rw [hstep w token hitem htokenName] at hfound ⊢
        rw [hstep w' token' hitem' (hname.trans htokenName)]
        have hclassify : changed p → (w.classify? s p).isSome := by
          intro hchanged
          obtain ⟨r, hr, hindexr⟩ := hfound p List.mem_cons_self hchanged
          rw [hp, Option.some.injEq] at hindexr
          cases hc : w.classify? s p with
          | some kind => rfl
          | none =>
            rw [hc, ite_self] at hr
            obtain ⟨q, hq, t, hqt⟩ := referencesAt_token r hr
            refine absurd hindexr.symm (hlater q hq r ?_)
            rw [Window.index?, hqt]
            rfl
        rw [Window.classify?_respelled h hclassify]
        have hrest : referencesAt w' inImport s ps = (referencesAt w inImport s ps).map
            fun r => ⟨r.token, r.kind, textAt r.token⟩ := by
          refine ih hps.2 fun q hq hchanged => ?_
          obtain ⟨r, hr, hindexr⟩ := hfound q (List.mem_cons_of_mem _ hq) hchanged
          rcases List.mem_append.mp hr with hr | hr
          · obtain ⟨kind, -, rfl⟩ := Option.map_eq_some_iff.mp (Option.mem_toList.mp hr)
            exact absurd rfl (hlater q hq _ hindexr)
          · exact ⟨r, hr, hindexr⟩
        rw [hrest, List.map_append, ← htext p index token' hitem']
        cases if inImport index then none else w.classify? s p <;> rfl
      · have hsame := hkind (by simpa using htokenName)
        have hstep (v : Window) (t : Token) (hv : v[p]? = some (index, t)) (ht : t.kind = token.kind) :
            referencesAt v inImport s (p :: ps) =
              referencesAt v inImport (s.next v (inImport index) p token.kind) ps := by
          rw [referencesAt, hv]
          dsimp only
          rw [ht, if_neg htokenName]
        rw [hstep w token hitem rfl] at hfound ⊢
        rw [hstep w' token' hitem' hsame, Window.next_respelled h]
        exact ih hps.2 fun q hq => hfound q (List.mem_cons_of_mem _ hq)

end SourceFile
end NamespaceMigration
