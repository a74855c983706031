import Mathlib.Data.List.Basic
import NamespaceMigration.Plan.Conflict

/-! Settling the conflicts of a project is a greedy filter: in reading order, a decision stays
exactly if it shares no new symbol with a decision that came before it and stayed. -/
namespace NamespaceMigration
namespace Decision

/-- Some new symbol belongs to both decisions. -/
def Rivals (d e : Decision) : Prop := ∃ i ∈ d.identities, i ∈ e.identities

theorem Rivals.symm {d e : Decision} (h : d.Rivals e) : e.Rivals d := by
  obtain ⟨i, hd, he⟩ := h
  exact ⟨i, he, hd⟩

end Decision

/-- All decisions of the files in reading order, each with the path of its file. -/
def readingOrder (files : List FilePlan) : List Owner :=
  files.flatMap fun file => file.decisions.map (⟨·, file.path⟩)

/-- First come, first served: `winner? n` is the number of the accepted decision that the decision
with number `n` has to give way to. -/
structure FirstCome (entries : List Owner) (winner? : Nat → Option Nat) : Prop where
  /-- A decision gives way exactly to earlier decisions that do not give way themselves. -/
  evicted_iff {n : Nat} {o : Owner} : entries[n]? = some o →
    ((winner? n).isSome ↔ ∃ m < n, winner? m = none ∧
      ∃ e, entries[m]? = some e ∧ o.decision.Rivals e.decision)
  /-- The winner is accepted and owns the first of the decision's symbols that is taken. -/
  winner {n m : Nat} {o : Owner} : entries[n]? = some o → winner? n = some m →
    m < n ∧ winner? m = none ∧ ∃ e, entries[m]? = some e ∧
      ∃ free i rest, o.decision.identities = free ++ i :: rest ∧ i ∈ e.decision.identities ∧
        ∀ j ∈ free, ∀ m' < n, winner? m' = none → ∀ e', entries[m']? = some e' →
          j ∉ e'.decision.identities

/-- A conflict tells which decision gives way, to which one, and in which file that one is. -/
structure PlanError.Reports (e : PlanError) (loser : Decision) (owner : Owner) : Prop where
  kind : e.kind = .conflict
  message : e.message = "Map error, conflict between " ++ loser.summary ++ " and " ++
    owner.decision.summary ++ " on file " ++ owner.path
  span? : e.span? = some loser.span

/-- The error is the conflict of a decision that gives way to the one with that number. -/
def IsReported (entries : List Owner) (lost : Decision × Nat) (e : PlanError) : Prop :=
  ∃ owner, entries[lost.2]? = some owner ∧ e.Reports lost.1 owner

/-- The decisions of a file that give way, each with the number of its winner. The first decision has the
number `start`. -/
def FilePlan.losers (file : FilePlan) (winner? : Nat → Option Nat) (start : Nat) : List (Decision × Nat) :=
  (file.decisions.zipIdx start).filterMap fun (d, n) => (winner? n).map (d, ·)

/-- A file after the contest: what stays of its decisions, which are numbered from `start` on, and
one conflict for each that gives way, behind the errors that it had. -/
structure FilePlan.Contested (entries : List Owner) (winner? : Nat → Option Nat) (start : Nat)
    (file outcome : FilePlan) : Prop where
  path : outcome.path = file.path
  hash : outcome.hash = file.hash
  includesFile : outcome.includesFile = file.includesFile
  decisions : outcome.decisions =
    ((file.decisions.zipIdx start).filter fun (_, n) => (winner? n).isNone).map (·.1)
  errors : ∃ conflicts, outcome.errors = file.errors ++ conflicts ∧
    List.Forall₂ (IsReported entries) (file.losers winner? start) conflicts

/-- The files after the contest, one for each file. The first decision has the number `start`. -/
inductive Contested (entries : List Owner) (winner? : Nat → Option Nat) :
    (start : Nat) → (files outcomes : List FilePlan) → Prop
  | nil {start : Nat} : Contested entries winner? start [] []
  | cons {start : Nat} {file outcome : FilePlan} {files outcomes : List FilePlan} :
    file.Contested entries winner? start outcome →
    Contested entries winner? (start + file.decisions.length) files outcomes →
    Contested entries winner? start (file :: files) (outcome :: outcomes)

section
variable (entries : List Owner)

/-- The first of the accepted decisions that own a symbol of a decision, by the order of the
symbols. -/
def firstRival? (accepted : List (Owner × Nat)) (d : Decision) : Option (Owner × Nat) :=
  d.identities.findSome? fun i => accepted.find? fun e => e.1.decision.identities.contains i

/-- The accepted ones of the first `n` decisions with their numbers. -/
def acceptedBefore : (n : Nat) → List (Owner × Nat)
  | 0 => []
  | n + 1 =>
    let earlier := acceptedBefore n
    match entries[n]? with
    | some o =>
      if (firstRival? earlier o.decision).isNone then earlier ++ [(o, n)] else earlier
    | none => earlier

/-- The number of the accepted decision that a decision gives way to. -/
def winnerOf? (n : Nat) : Option Nat :=
  entries[n]?.bind fun o => (firstRival? (acceptedBefore entries n) o.decision).map (·.2)

theorem winnerOf?_eq {n : Nat} {o : Owner} (h : entries[n]? = some o) :
    winnerOf? entries n = (firstRival? (acceptedBefore entries n) o.decision).map (·.2) := by
  simp [winnerOf?, h]

theorem acceptedBefore_succ_of_kept {n : Nat} {o : Owner} (h : entries[n]? = some o)
    (hk : firstRival? (acceptedBefore entries n) o.decision = none) :
    acceptedBefore entries (n + 1) = acceptedBefore entries n ++ [(o, n)] := by
  simp [acceptedBefore, h, hk]

theorem acceptedBefore_succ_of_evicted {n : Nat} {o : Owner} {w : Owner × Nat}
    (h : entries[n]? = some o) (hw : firstRival? (acceptedBefore entries n) o.decision = some w) :
    acceptedBefore entries (n + 1) = acceptedBefore entries n := by
  simp [acceptedBefore, h, hw]

theorem mem_acceptedBefore {n m : Nat} {o : Owner} :
    (o, m) ∈ acceptedBefore entries n ↔
      m < n ∧ entries[m]? = some o ∧ winnerOf? entries m = none := by
  induction n with
  | zero => simp [acceptedBefore]
  | succ n ih =>
    have hstep : m < n + 1 ↔ m < n ∨ m = n := Nat.lt_succ_iff_lt_or_eq
    cases h : entries[n]? with
    | none =>
      have hne : entries[m]? = some o → m ≠ n := by rintro ho rfl; simp [h] at ho
      have : acceptedBefore entries (n + 1) = acceptedBefore entries n := by
        simp [acceptedBefore, h]
      rw [this, ih, hstep]
      exact ⟨fun ⟨hm, hrest⟩ => ⟨Or.inl hm, hrest⟩,
        fun ⟨hm, ho, hw⟩ => ⟨hm.resolve_right (hne ho), ho, hw⟩⟩
    | some e =>
      cases hr : firstRival? (acceptedBefore entries n) e.decision with
      | none =>
        have hw : winnerOf? entries n = none := by simp [winnerOf?_eq entries h, hr]
        rw [acceptedBefore_succ_of_kept entries h hr, List.mem_append, ih, hstep,
          List.mem_singleton, Prod.mk.injEq]
        constructor
        · rintro (⟨hm, hrest⟩ | ⟨rfl, rfl⟩)
          · exact ⟨Or.inl hm, hrest⟩
          · exact ⟨Or.inr rfl, h, hw⟩
        · rintro ⟨hm | rfl, ho, hw'⟩
          · exact Or.inl ⟨hm, ho, hw'⟩
          · exact Or.inr ⟨by simpa [h] using ho.symm, rfl⟩
      | some w =>
        have hw : winnerOf? entries n ≠ none := by simp [winnerOf?_eq entries h, hr]
        rw [acceptedBefore_succ_of_evicted entries h hr, ih, hstep]
        exact ⟨fun ⟨hm, hrest⟩ => ⟨Or.inl hm, hrest⟩,
          fun ⟨hm, ho, hw'⟩ => ⟨hm.resolve_right fun e => hw (e ▸ hw'), ho, hw'⟩⟩

end

theorem firstRival?_eq_none_iff {accepted : List (Owner × Nat)} {d : Decision} :
    firstRival? accepted d = none ↔ ∀ e ∈ accepted, ¬d.Rivals e.1.decision := by
  simp only [firstRival?, List.findSome?_eq_none_iff, List.find?_eq_none, List.contains_iff_mem,
    Decision.Rivals]
  constructor
  · rintro h e he ⟨i, hi, hie⟩
    exact h i hi e he hie
  · intro h i hi e he hie
    exact h e he ⟨i, hi, hie⟩

theorem firstRival?_eq_some {accepted : List (Owner × Nat)} {d : Decision} {w : Owner × Nat}
    (h : firstRival? accepted d = some w) :
    w ∈ accepted ∧ ∃ free i rest, d.identities = free ++ i :: rest ∧
      i ∈ w.1.decision.identities ∧ ∀ j ∈ free, ∀ e ∈ accepted, j ∉ e.1.decision.identities := by
  obtain ⟨free, i, rest, hd, hi, hfree⟩ := List.findSome?_eq_some_iff.mp h
  have hmem := List.mem_of_find?_eq_some hi
  have hown := List.find?_some hi
  refine ⟨hmem, free, i, rest, hd, by simpa using hown, fun j hj e he => ?_⟩
  have := List.find?_eq_none.mp (hfree j hj) e he
  simpa using this

theorem firstCome_winnerOf? (entries : List Owner) : FirstCome entries (winnerOf? entries) where
  evicted_iff {n o} h := by
    rw [winnerOf?_eq entries h, Option.isSome_map, Option.isSome_iff_ne_none, Ne,
      firstRival?_eq_none_iff]
    push Not
    constructor
    · rintro ⟨⟨e, m⟩, he, hr⟩
      obtain ⟨hm, ho, hw⟩ := (mem_acceptedBefore entries).mp he
      exact ⟨m, hm, hw, e, ho, hr⟩
    · rintro ⟨m, hm, hw, e, he, hr⟩
      exact ⟨(e, m), (mem_acceptedBefore entries).mpr ⟨hm, he, hw⟩, hr⟩
  winner {n m o} h hw := by
    rw [winnerOf?_eq entries h] at hw
    obtain ⟨⟨e, m'⟩, hr, rfl⟩ := Option.map_eq_some_iff.mp hw
    obtain ⟨hmem, free, i, rest, hd, hi, hfree⟩ := firstRival?_eq_some hr
    obtain ⟨hm, he, hk⟩ := (mem_acceptedBefore entries).mp hmem
    refine ⟨hm, hk, e, he, free, i, rest, hd, hi, fun j hj m' hm' hk' e' he' => ?_⟩
    exact hfree j hj (e', m') ((mem_acceptedBefore entries).mpr ⟨hm', he', hk'⟩)

/-- The table that a list of accepted decisions gives. -/
def ownersOf (accepted : List (Owner × Nat)) : Owners :=
  accepted.flatMap fun e => e.1.decision.claims e.1.path

theorem lookup_claims (d : Decision) (path : Text) (i : Identity) :
    List.lookup i (d.claims path) = if i ∈ d.identities then some ⟨d, path⟩ else none := by
  unfold Decision.claims
  induction d.identities with
  | nil => simp
  | cons j js ih =>
    by_cases h : i = j
    · simp [h]
    · have hne : (i == j) = false := by simpa using h
      simp [List.lookup_cons, ih, h, hne]

theorem lookup_ownersOf (accepted : List (Owner × Nat)) (i : Identity) :
    List.lookup i (ownersOf accepted) =
      (accepted.find? fun e => e.1.decision.identities.contains i).map (·.1) := by
  induction accepted with
  | nil => rfl
  | cons e es ih =>
    have hcons : ownersOf (e :: es) = e.1.decision.claims e.1.path ++ ownersOf es := rfl
    rw [hcons, List.lookup_append, lookup_claims, ih]
    by_cases h : i ∈ e.1.decision.identities <;> simp [h]

theorem clash?_ownersOf (d : Decision) (accepted : List (Owner × Nat)) :
    d.clash? (ownersOf accepted) = (firstRival? accepted d).map (·.1) := by
  simp only [Decision.clash?, lookup_ownersOf, firstRival?, List.map_findSome?]
  rfl

section
variable (entries : List Owner)

/-- Settling a file keeps its accepted decisions, and leaves the table of all accepted so far. -/
theorem settle_eq (path : Text) (n : Nat) (ds : List Decision)
    (h : (ds.map (Owner.mk · path)) <+: entries.drop n) :
    settle path (ownersOf (acceptedBefore entries n)) ds =
      ⟨((ds.zipIdx n).filter fun (_, m) => (winnerOf? entries m).isNone).map (·.1),
        (ds.zipIdx n).filterMap fun (d, m) =>
          ((winnerOf? entries m).bind (entries[·]?)).map fun o =>
            .ofConflict d o.decision o.path,
        ownersOf (acceptedBefore entries (n + ds.length))⟩ := by
  induction ds generalizing n with
  | nil => simp [settle]
  | cons d ds ih =>
    obtain ⟨rest, hrest⟩ := h
    have hn : entries[n]? = some ⟨d, path⟩ := by
      have : (entries.drop n)[0]? = some ⟨d, path⟩ := by rw [← hrest]; simp
      simpa using this
    have hdrop : (ds.map (Owner.mk · path)) <+: entries.drop (n + 1) := by
      refine ⟨rest, ?_⟩
      have : (entries.drop n).tail = entries.drop (n + 1) := by simp
      rw [← this, ← hrest]
      simp
    have hlen : n + 1 + ds.length = n + (d :: ds).length := by simp; omega
    have hw := winnerOf?_eq entries hn
    cases hr : firstRival? (acceptedBefore entries n) d with
    | some w =>
      obtain ⟨o, m⟩ := w
      have hclash : d.clash? (ownersOf (acceptedBefore entries n)) = some o := by
        rw [clash?_ownersOf, hr]; rfl
      have hm : entries[m]? = some o :=
        ((mem_acceptedBefore entries).mp (firstRival?_eq_some hr).1).2.1
      have ih' := ih (n + 1) hdrop
      rw [acceptedBefore_succ_of_evicted entries hn hr, hlen] at ih'
      simp [settle, hclash, ih', hw, hr, hm]
    | none =>
      have hclash : d.clash? (ownersOf (acceptedBefore entries n)) = none := by
        rw [clash?_ownersOf, hr]; rfl
      have hclaims : ownersOf (acceptedBefore entries n) ++ d.claims path =
          ownersOf (acceptedBefore entries (n + 1)) := by
        rw [acceptedBefore_succ_of_kept entries hn hr]
        simp [ownersOf]
      have ih' := ih (n + 1) hdrop
      rw [hlen] at ih'
      simp [settle, hclash, hclaims, ih', hw, hr]

/-- Settling reports one conflict for each decision that gives way. -/
theorem forall₂_isReported (ds : List (Decision × Nat)) :
    List.Forall₂ (IsReported entries) (ds.filterMap fun (d, n) => (winnerOf? entries n).map (d, ·))
      (ds.filterMap fun (d, n) => ((winnerOf? entries n).bind (entries[·]?)).map fun o =>
        PlanError.ofConflict d o.decision o.path) := by
  induction ds with
  | nil => exact .nil
  | cons entry ds ih =>
    obtain ⟨d, n⟩ := entry
    cases hw : winnerOf? entries n with
    | none => simpa [hw] using ih
    | some m =>
      obtain ⟨o, -, hr⟩ := Option.bind_eq_some_iff.mp hw
      obtain ⟨⟨owner, m'⟩, hrival, rfl⟩ := Option.map_eq_some_iff.mp hr
      have howner : entries[m']? = some owner :=
        ((mem_acceptedBefore entries).mp (firstRival?_eq_some hrival).1).2.1
      have hreported : IsReported entries (d, m') (.ofConflict d owner.decision owner.path) :=
        ⟨owner, howner, rfl, rfl, rfl⟩
      simpa [hw, howner] using List.Forall₂.cons hreported ih

theorem settleFiles_contested (n : Nat) (files : List FilePlan)
    (h : readingOrder files = entries.drop n) :
    Contested entries (winnerOf? entries) n files
      (settleFiles (ownersOf (acceptedBefore entries n)) files) := by
  induction files generalizing n with
  | nil => exact .nil
  | cons file files ih =>
    have hcons : file.decisions.map (Owner.mk · file.path) ++ readingOrder files =
        entries.drop n := by rw [← h]; rfl
    have hrest : readingOrder files = entries.drop (n + file.decisions.length) := by
      rw [← List.drop_drop, ← hcons]
      simp
    rw [settleFiles, settle_eq entries file.path n file.decisions ⟨_, hcons⟩]
    exact .cons ⟨rfl, rfl, rfl, rfl, _, rfl, forall₂_isReported entries _⟩ (ih _ hrest)

end

theorem Contested.decisions_eq {entries : List Owner} {winner? : Nat → Option Nat} {start : Nat}
    {files outcomes : List FilePlan} (h : Contested entries winner? start files outcomes) :
    outcomes.flatMap (·.decisions) =
      (((readingOrder files).zipIdx start).filter fun (_, n) => (winner? n).isNone).map
        (·.1.decision) := by
  induction h with
  | nil => rfl
  | @cons start file outcome files outcomes hfile _ ih =>
    have hcons : readingOrder (file :: files) =
        file.decisions.map (Owner.mk · file.path) ++ readingOrder files := rfl
    rw [List.flatMap_cons, ih, hfile.decisions, hcons, List.zipIdx_append, List.filter_append,
      List.map_append, List.length_map, List.zipIdx_map, List.filter_map, List.map_map]
    rfl

theorem pairwise_lt_zipIdx {α : Type} (l : List α) (start : Nat) :
    (l.zipIdx start).Pairwise fun a b => a.2 < b.2 := by
  have h : ((l.zipIdx start).map (·.2)).Pairwise (· < ·) := by
    rw [List.zipIdx_map_snd]
    exact List.pairwise_lt_range'
  exact List.pairwise_map.mp h

theorem FirstCome.pairwise_kept {entries : List Owner} {winner? : Nat → Option Nat}
    (h : FirstCome entries winner?) :
    ((entries.zipIdx.filter fun (_, n) => (winner? n).isNone).map (·.1.decision)).Pairwise
      fun d e => ¬d.Rivals e := by
  rw [List.pairwise_map]
  refine ((pairwise_lt_zipIdx entries 0).filter _).imp_of_mem ?_
  intro (o, m) (e, n) ho he hlt hr
  obtain ⟨ho, hom⟩ := List.mem_filter.mp ho
  obtain ⟨he, hen⟩ := List.mem_filter.mp he
  have ho' : entries[m]? = some o := by simpa using List.mem_zipIdx_iff_getElem?.mp ho
  have he' : entries[n]? = some e := by simpa using List.mem_zipIdx_iff_getElem?.mp he
  have hm : winner? m = none := by simpa using hom
  have hn : winner? n = none := by simpa using hen
  have := (h.evicted_iff he').mpr ⟨m, hlt, hm, o, ho', hr.symm⟩
  simp [hn] at this

theorem ofFiles_contested (sourceRoot : Text) (c : PlanConfig) (files : List FilePlan) :
    Contested (readingOrder files) (winnerOf? (readingOrder files)) 0 files
      (ProjectPlan.ofFiles sourceRoot c files).files :=
  settleFiles_contested (readingOrder files) 0 files rfl

theorem decisions_ofFiles_apart (sourceRoot : Text) (c : PlanConfig) (files : List FilePlan) :
    ((ProjectPlan.ofFiles sourceRoot c files).decisions.map (·.2)).Pairwise fun d e => ¬d.Rivals e := by
  have hkept : (ProjectPlan.ofFiles sourceRoot c files).decisions.map (·.2) =
      (ProjectPlan.ofFiles sourceRoot c files).files.flatMap (·.decisions) := by
    simp [ProjectPlan.decisions, List.map_flatMap, Function.comp_def]
  rw [hkept, (ofFiles_contested sourceRoot c files).decisions_eq]
  exact (firstCome_winnerOf? (readingOrder files)).pairwise_kept

/-- The plan of a project is the outcome of a greedy contest over all decisions in reading order,
in which nothing but the losers changes, each of which leaves a conflict in its file that names it, its
winner and the winner's file, and no two decisions that stay share a symbol. -/
theorem ofFiles_firstCome (sourceRoot : Text) (c : PlanConfig) (files : List FilePlan) :
    ∃ winner? : Nat → Option Nat,
      FirstCome (readingOrder files) winner? ∧
      Contested (readingOrder files) winner? 0 files (ProjectPlan.ofFiles sourceRoot c files).files ∧
      ((ProjectPlan.ofFiles sourceRoot c files).decisions.map (·.2)).Pairwise
        fun d e => ¬d.Rivals e :=
  ⟨winnerOf? (readingOrder files), firstCome_winnerOf? (readingOrder files),
    ofFiles_contested sourceRoot c files, decisions_ofFiles_apart sourceRoot c files⟩

/-- Two files that declare one function. -/
def firstNamesake : FilePlan := .ofText (.ofLead "Acme") "a.php" "<?php function helper() {}"

def secondNamesake : FilePlan := .ofText (.ofLead "Acme") "b.php" "<?php\nfunction helper() {}"

def firstHelper : Owner := (readingOrder [firstNamesake, secondNamesake]).get ⟨0, by decide +kernel⟩

def secondHelper : Owner := (readingOrder [firstNamesake, secondNamesake]).get ⟨1, by decide +kernel⟩

/-- The first function stays, and the second one leaves a conflict in its file. -/
theorem namesakes_contested :
    ∃ first second conflict,
      (ProjectPlan.ofFiles "src" (.ofLead "Acme") [firstNamesake, secondNamesake]).files = [first, second] ∧
      first.decisions = [firstHelper.decision] ∧ first.errors = [] ∧
      second.decisions = [] ∧ second.errors = [conflict] ∧ conflict.kind = .conflict ∧
      conflict.message = "Map error, conflict between function helper and function helper on file a.php" := by
  obtain ⟨winner?, hfirst, hfiles, -⟩ := ofFiles_firstCome "src" (.ofLead "Acme") [firstNamesake, secondNamesake]
  obtain ⟨hkept, hlost, hclean, hclean'⟩ : firstNamesake.decisions = [firstHelper.decision] ∧
      secondNamesake.decisions = [secondHelper.decision] ∧ firstNamesake.errors = [] ∧
      secondNamesake.errors = [] := by decide +kernel
  obtain ⟨hentries, hrivals, hpath, hname, hname'⟩ :
      readingOrder [firstNamesake, secondNamesake] = [firstHelper, secondHelper] ∧
      (∃ i ∈ secondHelper.decision.identities, i ∈ firstHelper.decision.identities) ∧
      firstHelper.path = "a.php" ∧ firstHelper.decision.summary = "function helper" ∧
      secondHelper.decision.summary = "function helper" := by decide +kernel
  rw [hentries] at hfirst hfiles
  have hstays : winner? 0 = none := by
    have hnone := (hfirst.evicted_iff (n := 0) rfl).not.mpr (by simp)
    simpa using hnone
  have hwinner : winner? 1 = some 0 := by
    have hsome := (hfirst.evicted_iff (n := 1) rfl).mpr ⟨0, Nat.one_pos, hstays, firstHelper, rfl, hrivals⟩
    obtain ⟨m, hm⟩ := Option.isSome_iff_exists.mp hsome
    obtain rfl : m = 0 := Nat.lt_one_iff.mp (hfirst.winner rfl hm).1
    exact hm
  generalize (ProjectPlan.ofFiles "src" (.ofLead "Acme") [firstNamesake, secondNamesake]).files = outcomes at hfiles ⊢
  rcases hfiles with _ | ⟨hone, _ | ⟨htwo, _ | _⟩⟩
  obtain ⟨_, herrors, hreports⟩ := hone.errors
  obtain ⟨_, herrors', hreports'⟩ := htwo.errors
  rw [hkept] at htwo hreports'
  have hnone : firstNamesake.losers winner? 0 = [] := by simp [FilePlan.losers, hkept, hstays]
  have hlosers : secondNamesake.losers winner? 1 = [(secondHelper.decision, 0)] := by
    simp [FilePlan.losers, hlost, hwinner]
  rw [hnone] at hreports
  cases hreports
  change List.Forall₂ _ (secondNamesake.losers winner? 1) _ at hreports'
  rw [hlosers] at hreports'
  rcases hreports' with _ | @⟨_, conflict, _, _, ⟨owner, howner, hreport⟩, _ | _⟩
  obtain rfl : firstHelper = owner := Option.some.inj howner
  refine ⟨_, _, conflict, rfl, ?_, ?_, ?_, ?_, hreport.kind, ?_⟩
  · simp [hone.decisions, hkept, hstays]
  · rw [herrors, hclean, List.append_nil]
  · simp [htwo.decisions, hlost, hwinner]
  · rw [herrors', hclean', List.nil_append]
  · rw [hreport.message, hname', hname, hpath]
    rfl

/-- What is settled was there before, and every conflict is about a decision that was. -/
theorem settle_spec (path : Text) (owners : Owners) (ds : List Decision) :
    (∀ d ∈ (settle path owners ds).kept, d ∈ ds) ∧
      ∀ e ∈ (settle path owners ds).conflicts, ∃ d ∈ ds, e.span? = some d.span := by
  induction ds generalizing owners with
  | nil => exact ⟨List.forall_mem_nil _, List.forall_mem_nil _⟩
  | cons d ds ih =>
    rw [settle]
    split
    · rename_i owner _
      obtain ⟨hkept, hconflicts⟩ := ih owners
      refine ⟨fun d' hd' => List.mem_cons_of_mem _ (hkept d' hd'), List.forall_mem_cons.mpr
        ⟨⟨d, List.mem_cons_self, rfl⟩, fun e he => ?_⟩⟩
      obtain ⟨d', hd', hspan⟩ := hconflicts e he
      exact ⟨d', List.mem_cons_of_mem _ hd', hspan⟩
    · obtain ⟨hkept, hconflicts⟩ := ih (owners ++ d.claims path)
      refine ⟨List.forall_mem_cons.mpr ⟨List.mem_cons_self, fun d' hd' =>
        List.mem_cons_of_mem _ (hkept d' hd')⟩, fun e he => ?_⟩
      obtain ⟨d', hd', hspan⟩ := hconflicts e he
      exact ⟨d', List.mem_cons_of_mem _ hd', hspan⟩

theorem mem_of_settleFiles {owners : Owners} {files : List FilePlan} {file : FilePlan}
    (h : file ∈ settleFiles owners files) :
    ∀ c ∈ file.decisions, ∃ planned ∈ files, c ∈ planned.decisions := by
  induction files generalizing owners with
  | nil => cases h
  | cons first files ih =>
    rw [settleFiles] at h
    intro c hc
    rcases List.mem_cons.mp h with rfl | h
    · exact ⟨first, List.mem_cons_self, (settle_spec first.path owners first.decisions).1 c hc⟩
    · obtain ⟨planned, hplanned, hc⟩ := ih h c hc
      exact ⟨planned, List.mem_cons_of_mem first hplanned, hc⟩

theorem kept_of_no_conflicts {path : Text} {owners : Owners} {ds : List Decision}
    (h : (settle path owners ds).conflicts = []) : (settle path owners ds).kept = ds := by
  induction ds generalizing owners with
  | nil => rfl
  | cons d ds ih =>
    rw [settle] at h ⊢
    split at h
    · cases h
    · exact congrArg (d :: ·) (ih h)

theorem mem_settleFiles {owners : Owners} {files : List FilePlan} {file : FilePlan}
    (h : file ∈ settleFiles owners files) (herrors : file.errors = []) : file ∈ files := by
  induction files generalizing owners with
  | nil => cases h
  | cons first files ih =>
    rw [settleFiles] at h
    rcases List.mem_cons.mp h with rfl | h
    · obtain ⟨hfirst, hconflicts⟩ := List.append_eq_nil_iff.mp herrors
      rw [kept_of_no_conflicts hconflicts, hconflicts, List.append_nil]
      exact List.mem_cons_self
    · exact List.mem_cons_of_mem _ (ih h)

end NamespaceMigration
