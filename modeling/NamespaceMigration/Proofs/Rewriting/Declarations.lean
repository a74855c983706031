import NamespaceMigration.Proofs.Rendering.Alone
import NamespaceMigration.Proofs.Rewriting.Frames
import NamespaceMigration.Proofs.Statements.Headers
import NamespaceMigration.Proofs.Statements.ImportKinds
import NamespaceMigration.Proofs.Statements.Levels

/-! The names of declarations. What the parser takes for the name of a class, a function, a constant or a
namespace, the scan takes for no reference, so moving code never edits it as one. -/
namespace NamespaceMigration

/-- The tokens with the names that a statement declares. -/
def StatementKind.nameTokens : StatementKind → List Nat
  | .space _ token? _ => token?.toList
  | .classLike _ _ token | .function _ token => [token]
  | .constants names => names.map (·.2)
  | _ => []

/-- A name that declares something: it has the kind of a name, and its neighbours say that it is no reference. -/
structure Code.IsDeclared (c : Code) (q : Nat) : Prop where
  isName : (c.kind? q).any TokenKind.isName
  notFree : ¬c.IsFree q

theorem Code.IsDeclared.lt_size {c : Code} {q : Nat} (h : c.IsDeclared q) : q < c.size := by
  cases hkind : c.kind? q with
  | none =>
    have hname := h.isName
    rw [hkind] at hname
    cases hname
  | some kind => exact lt_size_of_kind? hkind

namespace Parser

variable {c : Code} {p q : Nat}

theorem isDeclared_of_kind {kind : TokenKind} (hkind : c.kind? q = some kind) (hdeclares : kind.declaresNext)
    (hname : (c.kind? (q + 1)).any TokenKind.isName) : c.IsDeclared (q + 1) where
  isName := hname
  notFree hfree := by
    have hnone := hfree.declared q kind rfl hkind
    rw [hdeclares] at hnone
    cases hnone

theorem isName_of_isAt (h : c.isAt .ident q) : (c.kind? q).any TokenKind.isName := by
  rw [Code.isAt_iff.mp h]
  rfl

theorem classKeyword?_isDeclared {kind : ClassKind} (h : classKeyword? c q = some kind) :
    c.IsDeclared (q + 1) := by
  obtain ⟨hname, first, hfirst, hmem⟩ := classKeyword?_eq_some h
  rcases hmem with hmem | ⟨rfl, henum⟩
  · apply isDeclared_of_kind hfirst _ (isName_of_isAt hname)
    simp only [List.mem_cons, List.not_mem_nil, or_false] at hmem
    rcases hmem with rfl | rfl | rfl <;> rfl
  · refine ⟨isName_of_isAt hname, fun hfree => ?_⟩
    exact hfree.enumerated q rfl hfirst henum (Code.isAt_iff.mp hname)

theorem functionName?_isDeclared {name : Nat} (h : functionName? c q = some name) :
    q < name ∧ name + 1 < c.size ∧ c.IsDeclared name := by
  obtain ⟨hfunction, hskip, hname, hparen⟩ := functionName?_eq_some_iff.mp h
  rw [Code.isAt_iff] at hfunction
  rw [Code.skip] at hskip
  split at hskip
  · rename_i hampersand
    subst hskip
    refine ⟨by omega, Code.lt_size_of_isAt hparen, isName_of_isAt hname, fun hfree => ?_⟩
    exact hfree.byReference q rfl hfunction (Code.isAt_iff.mp hampersand)
  · subst hskip
    exact ⟨by omega, Code.lt_size_of_isAt hparen, isDeclared_of_kind hfunction rfl (isName_of_isAt hname)⟩

theorem declaresConstant_isDeclared {start : Nat} (h : declaresConstant c start (q + 1)) :
    c.IsDeclared (q + 1) := by
  simp only [declaresConstant, Bool.and_eq_true, Nat.add_sub_cancel] at h
  obtain ⟨⟨⟨hname, hequals⟩, hbefore⟩, -⟩ := h
  obtain ⟨kind, hmem, hkind⟩ := Code.exists_kind_of_isAtAny hbefore
  simp only [List.mem_cons, List.not_mem_nil, or_false] at hmem
  rcases hmem with rfl | rfl
  · exact isDeclared_of_kind hkind rfl (isName_of_isAt hname)
  · refine ⟨isName_of_isAt hname, fun hfree => ?_⟩
    exact hfree.constant q rfl hkind (Code.isAt_iff.mp hname) (Code.isAt_iff.mp hequals)

/-- The names of what is read between two positions. -/
def NamesBetween (c : Code) (p n : Nat) (kind : StatementKind) : Prop :=
  ∀ i ∈ kind.nameTokens, ∃ q, p < q ∧ q < n ∧ i = c.tokenIndex q ∧ c.IsDeclared q

theorem namesBetween_nil {kind : StatementKind} {n : Nat} (h : kind.nameTokens = []) :
    NamesBetween c p n kind := by
  intro i hi
  rw [h] at hi
  cases hi

theorem le_afterModifiers (ho : c.Ordered) (h : afterModifiers c p < c.size) : p ≤ afterModifiers c p := by
  rcases Nat.lt_or_ge c.size p with hp | hp
  · have hnone : afterModifiers c p = p := afterModifiers_of_kind fun kind hkind => by
      have := Code.lt_size_of_kind? hkind
      omega
    omega
  · exact (afterModifiers_reaches ho hp).1

theorem declaration_names (ho : c.Ordered) (p : Nat) :
    NamesBetween c p (declaration c p).next (declaration c p).value := by
  rw [declaration]
  dsimp only
  split
  · rename_i kind hkeyword
    rw [NamesBetween, StatementKind.nameTokens, List.forall_mem_singleton]
    have hsize : afterModifiers c p + 1 < c.size :=
      Code.lt_size_of_isAt (classKeyword?_eq_some hkeyword).1
    have hle := le_afterModifiers ho (Nat.lt_of_succ_lt hsize)
    have hbody := (body_reaches ho (p := afterModifiers c p + 1 + 1) hsize).1
    exact ⟨_, by omega, hbody, rfl, classKeyword?_isDeclared hkeyword⟩
  · split
    · rename_i name hname
      rw [NamesBetween, StatementKind.nameTokens, List.forall_mem_singleton]
      obtain ⟨hlt, hsize, hdeclared⟩ := functionName?_isDeclared hname
      have hle : p ≤ afterModifiers c p := le_afterModifiers ho (by omega)
      have hgroup := ho.groupEnd_reaches_succ hsize
      have hbody := (body_reaches ho hgroup.2).1
      exact ⟨name, by omega, by dsimp only; have := hgroup.1; omega, rfl, hdeclared⟩
    · exact namesBetween_nil rfl

theorem constStatement_names (p : Nat) :
    NamesBetween c p (constStatement c p).next (constStatement c p).value := by
  intro i hi
  obtain ⟨_, hentry, rfl⟩ := List.mem_map.mp hi
  obtain ⟨q, hq, rfl⟩ := List.mem_map.mp hentry
  obtain ⟨hrange, hdeclares⟩ := List.mem_filter.mp hq
  rw [List.mem_range'_1] at hrange
  obtain ⟨q, rfl⟩ : ∃ k, q = k + 1 := ⟨q - 1, by omega⟩
  have hdeclared := declaresConstant_isDeclared hdeclares
  refine ⟨q + 1, by omega, ?_, rfl, hdeclared⟩
  rw [constStatement]
  dsimp only
  omega

/-- What declares names by itself has nothing inside. -/
theorem shape_names (ho : c.Ordered) (inner : Inner) (p : Nat) :
    NamesBetween c p (shape c inner p).next (shape c inner p).value.1 ∧
      ((shape c inner p).value.1.nameTokens = [] ∨ (shape c inner p).value.2 = []) := by
  have huse : (useStatement c p).value.nameTokens = [] := by
    rw [useStatement]
    split
    · rfl
    · dsimp only
      split <;> rfl
  have hdeclare : (declareStatement c inner p).value.1.nameTokens = [] := by
    rw [declareStatement]
    dsimp only
    split_ifs <;> rfl
  rw [shape]
  split
  case h_4 => exact ⟨namesBetween_nil huse, .inr rfl⟩
  case h_5 => exact ⟨constStatement_names p, .inr rfl⟩
  case h_6 =>
    split
    · exact ⟨namesBetween_nil hdeclare, .inl hdeclare⟩
    · exact ⟨declaration_names ho p, .inr rfl⟩
  case h_7 => exact ⟨namesBetween_nil rfl, .inl rfl⟩
  case h_11 =>
    split
    · exact ⟨namesBetween_nil rfl, .inr rfl⟩
    · exact ⟨declaration_names ho p, .inr rfl⟩
  case h_12 => exact ⟨declaration_names ho p, .inr rfl⟩
  all_goals exact ⟨namesBetween_nil rfl, .inr rfl⟩

end Parser

/-- Where a statement declares names: at positions of names inside it, and in front of what else is inside. -/
def Statement.DeclaresNames (c : Code) (s : Statement) : Prop :=
  ∀ i ∈ s.kind.nameTokens, ∃ q, i = c.tokenIndex q ∧ c.IsDeclared q ∧
    s.first < i ∧ i < s.stop ∧ (s.children = [] ∨ ∃ p, s.first = c.tokenIndex p ∧ q = p + 1)

namespace Parser

variable {c : Code} {p : Nat}

theorem node_declaresNames (ho : c.Ordered) {found : Parsed (StatementKind × List Statement)}
    (hreach : p < c.size → c.Reaches (p + 1) found.next) (hnames : NamesBetween c p found.next found.value.1)
    (hinside : found.value.1.nameTokens = [] ∨ found.value.2 = []) :
    (node c p found).value.DeclaresNames c := by
  intro i hi
  have hi' : i ∈ found.value.1.nameTokens := hi
  obtain ⟨q, hpq, hqn, rfl, hdeclared⟩ := hnames i hi
  have hq := hdeclared.lt_size
  have hcovers := node_covers ho (hreach (by omega))
  refine ⟨q, rfl, hdeclared, ?_, ((hcovers.mem_iff ho hq).mpr ⟨by omega, hqn⟩).2, .inl ?_⟩
  · rw [hcovers.first]
    exact ho.tokenIndex_lt hpq (by omega)
  · refine hinside.resolve_left fun hnone => ?_
    rw [hnone] at hi'
    cases hi'

theorem namespaceStatement_names (inner : Inner) (p : Nat) :
    ∀ i ∈ (namespaceStatement c inner p).value.1.nameTokens,
      c.isAtAny [.ident, .nameQualified] (p + 1) ∧ i = c.tokenIndex (p + 1) := by
  rw [namespaceStatement]
  dsimp only
  by_cases hnamed : c.isAtAny [.ident, .nameQualified] (p + 1)
  · rw [if_pos hnamed, if_pos hnamed, if_pos hnamed]
    split_ifs <;> exact List.forall_mem_singleton.mpr ⟨hnamed, rfl⟩
  · rw [if_neg hnamed, if_neg hnamed, if_neg hnamed]
    split_ifs <;> exact List.forall_mem_nil _

theorem namespace_declaresNames (ho : c.Ordered) {depth : Nat} (hheader : isNamespaceHeader c p) :
    (node c p (namespaceStatement c (statement c depth) p)).value.DeclaresNames c := by
  intro i hi
  obtain ⟨hnamed, rfl⟩ := namespaceStatement_names (statement c depth) p i hi
  have hinner : ∀ q, q < c.size → c.Reaches (q + 1) (statement c depth q).next := fun q hq =>
    statement_reaches ho hq
  obtain ⟨hreach, hend⟩ := namespaceStatement_reaches hinner hheader
  have hcovers := node_covers ho hreach
  obtain ⟨kind, hmem, hkind⟩ := Code.exists_kind_of_isAtAny hnamed
  have hsize : p + 1 < c.size := Code.lt_size_of_kind? hkind
  have hspace : c.kind? p = some .kwNamespace := by
    rw [isNamespaceHeader, Bool.and_eq_true] at hheader
    exact Code.isAt_iff.mp hheader.1
  have hname : (c.kind? (p + 1)).any TokenKind.isName := by
    simp only [List.mem_cons, List.not_mem_nil, or_false] at hmem
    rw [hkind]
    rcases hmem with rfl | rfl <;> rfl
  have hafter : p + 1 < (namespaceStatement c (statement c depth) p).next := by
    refine Nat.lt_of_le_of_ne hreach.1 fun heq => ?_
    rw [← heq, Nat.add_sub_cancel, hspace] at hend
    rcases hend with hend | hend | hend
    · omega
    · rw [hend] at hname
      cases hname
    · cases hend
  refine ⟨p + 1, rfl, isDeclared_of_kind hspace rfl hname, ?_,
    ((hcovers.mem_iff ho hsize).mpr ⟨by omega, hafter⟩).2, .inr ⟨p, rfl, rfl⟩⟩
  rw [hcovers.first]
  exact ho.tokenIndex_lt (Nat.lt_succ_self p) (by omega)

theorem topStatements_declareNames (ho : c.Ordered) :
    ∀ s ∈ (topStatements c).value, s.Everywhere (Statement.DeclaresNames c) := by
  refine topStatements_everywhere_of_depth (fun p => List.forall_mem_nil _) (fun depth p => ?_) fun p hheader =>
    namespace_declaresNames ho hheader
  obtain ⟨hnames, hinside⟩ := shape_names ho (statement c depth) p
  refine node_declaresNames ho (fun hp => ?_) hnames hinside
  exact shape_reaches ho (fun q hq => statement_reaches ho hq) hp

end Parser

namespace SourceFile

variable {t : Text} {l : Located} {i : Nat}

theorem IsDeclared.not_reference {q : Nat} (h : (Code.ofText t).IsDeclared q) {s : Scope}
    (hs : s ∈ (parse t).scopes) {r : Reference} (hr : r ∈ (parse t).references s.first s.stop) :
    r.token ≠ (Code.ofText t).tokenIndex q := by
  intro htoken
  obtain ⟨item, hitem⟩ := Code.exists_item h.lt_size
  refine h.notFree (isFree_of_reference hs hr hitem ?_)
  rw [htoken, Code.tokenIndex_eq hitem]

theorem outline_declaresNames (hl : l ∈ (parse t).outline) : l.statement.DeclaresNames (.ofText t) :=
  outline_forall (List.forall_mem_nil _) (Parser.topStatements_declareNames (Code.ordered_ofTokens _ _)) l hl

theorem children_of_above {f : SourceFile} {l l' : Located} (hl' : l' ∈ f.outline)
    (h : ∃ level ∈ l'.above, level.statement = l.statement) : l.statement.children ≠ [] := by
  obtain ⟨level, hlevel, hsame⟩ := h
  obtain ⟨init, outer, hsplit⟩ := List.append_of_mem hlevel
  rw [← hsame]
  exact (rooted hl' level outer ⟨init, hsplit.symm⟩).2

/-- A `use` statement begins at the word, and holds nothing. -/
theorem use_spec (hl : l ∈ (parse t).outline) (himports : l.statement.importItems?.isSome) :
    l.statement.children = [] ∧ ∃ p, l.statement.first = (Code.ofText t).tokenIndex p ∧
      (Code.ofText t).kind? p = some .kwUse := by
  rw [Statement.importItems?] at himports
  split at himports
  · rename_i items hkind
    constructor
    · by_contra hchildren
      have hholds := outline_holds hl hchildren
      rw [hkind] at hholds
      exact hholds
    · have hspelled : Parser.ImportsSpelled (.ofText t) l.statement :=
        outline_forall (fun items h => by cases h)
          (Parser.topStatements_importsSpelled (Code.ordered_ofTokens _ _)) l hl
      obtain ⟨p, n, hcovers, hkinds⟩ := hspelled items hkind
      exact ⟨p, hcovers.first, hkinds.first⟩
  · cases himports

/-- The name of a declaration is in no `use` statement. -/
theorem declared_outside (hl : l ∈ (parse t).outline) (hi : i ∈ l.statement.kind.nameTokens) {l' : Located}
    (hl' : l' ∈ (parse t).outline) (himports : l'.statement.importItems?.isSome) :
    ¬(l'.statement.first ≤ i ∧ i < l'.statement.stop) := by
  rintro ⟨hfirst, hstop⟩
  have ho : (Code.ofText t).Ordered := Code.ordered_ofTokens _ _
  obtain ⟨q, rfl, hdeclared, hinside, hinside', hnext⟩ := outline_declaresNames hl i hi
  obtain ⟨hleaf, r, hr, huse⟩ := use_spec hl' himports
  have htail : l ∈ (parse t).outline.tail := (mem_outline_cases hl).resolve_left fun h => by
    rw [h] at hi
    cases hi
  have htail' : l' ∈ (parse t).outline.tail := (mem_outline_cases hl').resolve_left fun h => by
    rw [h] at himports
    cases himports
  rcases eq_or_of_pairwise ((apart_parse t).and (starts_parse t)) htail htail' with
    rfl | ⟨hbefore | habove, hstarts⟩ | ⟨hbefore | habove, -⟩
  · rw [Statement.importItems?] at himports
    split at himports
    · rename_i hkind
      rw [hkind] at hi
      cases hi
    · cases himports
  · omega
  · -- Between the word `namespace` and the name there is no room for the word `use`.
    obtain ⟨p, hp, rfl⟩ := hnext.resolve_left (children_of_above hl' habove)
    have hsize := hdeclared.lt_size
    have hr' : r < (Code.ofText t).size := Code.lt_size_of_kind? huse
    rw [hp, hr, ho.tokenIndex_lt_iff (by omega) hr'] at hstarts
    rw [hr, ho.tokenIndex_le_iff hr' hsize] at hfirst
    obtain rfl : r = p + 1 := by omega
    have hname := hdeclared.isName
    rw [huse] at hname
    cases hname
  · omega
  · exact children_of_above hl habove hleaf

theorem declared_holdsReference (hl : l ∈ (parse t).outline) (hi : i ∈ l.statement.kind.nameTokens) :
    (parse t).HoldsReference i := by
  obtain ⟨q, rfl, hdeclared, -⟩ := outline_declaresNames hl i hi
  refine ⟨?_, fun span hspan => ?_⟩
  · rw [kind?_tokenIndex hdeclared.lt_size]
    exact hdeclared.isName
  · obtain ⟨l', hl', hitems⟩ := List.mem_filterMap.mp hspan
    obtain ⟨items, himports, rfl⟩ := Option.map_eq_some_iff.mp hitems
    refine declared_outside hl hi hl' ?_
    rw [himports]
    rfl

theorem declared_not_reference (hl : l ∈ (parse t).outline) (hi : i ∈ l.statement.kind.nameTokens) {s : Scope}
    (hs : s ∈ (parse t).scopes) {r : Reference} (hr : r ∈ (parse t).references s.first s.stop) : r.token ≠ i := by
  obtain ⟨q, rfl, hdeclared, -⟩ := outline_declaresNames hl i hi
  exact IsDeclared.not_reference hdeclared hs hr

variable {x : RenameIndex} {e : TextEdit}

theorem apart_declared (hl : l ∈ (parse t).outline) (hi : i ∈ l.statement.kind.nameTokens)
    (he : (parse t).CodeRange e.range ∨ SparesReferences t e) :
    e.range.stop ≤ ((parse t).tokenRange i).start ∨ ((parse t).tokenRange i).stop ≤ e.range.start := by
  have hwithin : (⟨(parse t).tokenRange i, []⟩ : TextEdit).IsWithin t i (i + 1) :=
    TextEdit.isWithin_of_stretch (tokenRange_parse t i)
  rcases he with ⟨s, hs, r, hr, hrange⟩ | ⟨a, b, hedit, hspares⟩
  · rw [tokenRange_parse] at hrange
    have hne := declared_not_reference hl hi hs hr
    exact (hwithin.apart_of_token (TextEdit.isWithin_of_stretch hrange) (by omega)).symm
  · exact (hwithin.apart_of_token hedit (hspares i (declared_holdsReference hl hi))).symm

theorem qualifyEdits_spare (he : e ∈ (parse t).qualifyEdits) :
    (parse t).CodeRange e.range ∨ SparesReferences t e := by
  obtain ⟨s, hs, he⟩ := List.mem_flatMap.mp he
  rcases List.mem_append.mp he with he | he
  · exact Or.inl (((parse t).codeEdits_qualify s).codeRange hs he)
  · exact Or.inr (docTokenEdits_spares he)

theorem renames_spare (he : e ∈ ((parse t).renames x).edits) :
    (parse t).CodeRange e.range ∨ SparesReferences t e := by
  rw [renames_edits] at he
  obtain ⟨s, hs, he⟩ := List.mem_flatMap.mp he
  rw [renameScope_eq, List.mem_append, List.mem_append] at he
  rcases he with (he | he) | he
  · exact Or.inl (((parse t).codeEdits_rename x s).codeRange hs he)
  · obtain ⟨i, hi, -, span, hspan, hinside⟩ := importEdit_token hs he
    exact Or.inr (hi.spares fun hreference => hreference.2 span hspan hinside)
  · exact Or.inr (docTokenEdits_spares he)

theorem importEdits_spare (he : e ∈ (parse t).importEdits) :
    (parse t).CodeRange e.range ∨ SparesReferences t e := by
  obtain ⟨s, hs, he⟩ := List.mem_flatMap.mp he
  obtain ⟨-, code, others, hscope, hcode, hothers⟩ := importScope_cases hs
  rw [hscope, List.mem_append] at he
  exact he.imp (hcode.codeRange hs) (hothers e)

/-- The references of a scope come in the order of their tokens. Each is a name inside the scope and outside all
`use` statements, and none is the name that a class, a function, a constant or a namespace is declared with. No
step of moving code edits such a name. -/
theorem references_declare_nothing (t : Text) :
    let f := parse t
    (∀ s ∈ f.scopes, ((f.references s.first s.stop).Pairwise fun r r' => r.token < r'.token) ∧
      ∀ r ∈ f.references s.first s.stop,
        (∃ token, f.tokens[r.token]? = some token ∧ token.kind.isName ∧ token.text = r.text) ∧
        (s.first ≤ r.token ∧ r.token < s.stop) ∧
        ∀ l ∈ f.outline, (l.statement.importItems?.isSome →
            r.token < l.statement.first ∨ l.statement.stop ≤ r.token) ∧
          r.token ∉ l.statement.kind.nameTokens) ∧
    ∀ l ∈ f.outline, ∀ i ∈ l.statement.kind.nameTokens, ∀ x,
      ∀ e ∈ f.qualifyEdits ++ (f.renames x).edits ++ f.importEdits,
        e.range.stop ≤ (f.tokenRange i).start ∨ (f.tokenRange i).stop ≤ e.range.start := by
  intro f
  refine ⟨fun s hs => ⟨references_increasing f s.first s.stop, fun r hr => ?_⟩, fun l hl i hi x e he => ?_⟩
  · obtain ⟨token, htoken, hname, htext, hfirst, hstop, houtside⟩ := references_token hr
    refine ⟨⟨token, htoken, hname, htext⟩, ⟨hfirst, hstop⟩, fun l hl => ⟨fun himports => ?_, fun hi => ?_⟩⟩
    · obtain ⟨items, hitems⟩ := Option.isSome_iff_exists.mp himports
      have hspan : (l.statement.first, l.statement.stop) ∈ f.importSpans :=
        List.mem_filterMap.mpr ⟨l, hl, by rw [hitems]; rfl⟩
      have hout := houtside _ hspan
      dsimp only at hout
      omega
    · exact declared_not_reference hl hi hs hr rfl
  · rw [List.mem_append, List.mem_append] at he
    refine apart_declared hl hi ?_
    rcases he with (he | he) | he
    · exact qualifyEdits_spare he
    · exact renames_spare he
    · exact importEdits_spare he

end SourceFile
end NamespaceMigration
