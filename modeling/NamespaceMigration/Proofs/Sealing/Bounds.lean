import NamespaceMigration.Proofs.Bytes.Utf8
import NamespaceMigration.Proofs.Planning.Decisions
import NamespaceMigration.Proofs.FirstCome
import NamespaceMigration.Proofs.Lines.Counting
import NamespaceMigration.Proofs.Sealing.Records
import NamespaceMigration.Proofs.Statements.Positions

/-! The numbers in a plan fit: no line and no token of a file comes later than the file has
characters, and offsets are cut to their bits. -/
namespace NamespaceMigration

/-- No file in memory has as many bytes. -/
def maxLength : Nat := Nat.pow 2 63

theorem Lexer.length_tokensFrom_le (fuel : Nat) (s : State) (offset : Nat) (t : Text) :
    (tokensFrom fuel s offset t).length ≤ fuel := by
  induction fuel generalizing s offset t with
  | zero => exact Nat.le_refl 0
  | succ fuel ih =>
    cases t with
    | nil => exact Nat.zero_le _
    | cons c t => exact Nat.succ_le_succ (ih _ _ _)

theorem Lexer.length_tokenize_le (t : Text) : (tokenize t).length ≤ t.length :=
  length_tokensFrom_le _ _ _ _

theorem LineIndex.line_le (t : Text) (offset : Nat) : (ofSource t).line offset ≤ t.length + 1 := by
  have hlength : (ofSource t).starts.length ≤ t.length + 1 := by
    change (startsAfter 0 t).length + 1 ≤ t.length + 1
    rw [length_startsAfter]
    exact Nat.succ_le_succ List.count_le_length
  rw [line_eq_countP]
  exact Nat.le_trans List.countP_le_length hlength

theorem Code.tokenIndex_le {c : Code} (ho : c.Ordered) (p : Nat) : c.tokenIndex p ≤ c.tokens.size := by
  rcases Nat.lt_or_ge p c.size with hp | hp
  · exact Nat.le_of_lt (ho.bound p hp)
  · have hnone : c.items[p]? = none := Array.getElem?_eq_none hp
    rw [tokenIndex, hnone]
    exact Nat.le_refl _

/-- A statement lies among the first `n` tokens. -/
def Statement.Within (n : Nat) (s : Statement) : Prop := s.first ≤ n ∧ s.stop ≤ n + 1

theorem Parser.node_within {c : Code} (ho : c.Ordered) (p : Nat)
    (found : Parsed (StatementKind × List Statement)) :
    (node c p found).value.Within c.tokens.size := by
  have hfirst := Code.tokenIndex_le ho p
  have hlast := Code.tokenIndex_le ho (found.next - 1)
  refine ⟨hfirst, Nat.max_le.mpr ⟨Nat.le_succ_of_le hfirst, ?_⟩⟩
  split
  · exact Nat.zero_le _
  · exact Nat.succ_le_succ hlast

namespace SourceFile

variable {t : Text}

theorem everywhere_within (t : Text) :
    ∀ s ∈ (parse t).root.children, s.Everywhere (Statement.Within (parse t).tokens.size) := by
  have ho : (Code.ofText t).Ordered := Code.ordered_ofTokens _ _
  exact Parser.topStatements_everywhere (fun _ => Parser.node_within ho _ _)
    (fun _ _ => Parser.node_within ho _ _) fun _ _ _ => Parser.node_within ho _ _

theorem root_within (t : Text) : (parse t).root.Within (parse t).tokens.size :=
  ⟨Nat.zero_le _, Nat.le_succ _⟩

theorem fits_of_within (h : t.length < maxLength) {s : Statement}
    (hs : s.Within (parse t).tokens.size) : TokenSpan.Fits ⟨s.first, s.stop⟩ := by
  have hsize : (parse t).tokens.size ≤ t.length := Lexer.length_tokenize_le t
  have hmax : maxLength + 1 < Nat.pow 2 wordBits := by decide
  obtain ⟨hfirst, hstop⟩ := hs
  exact ⟨by dsimp only; omega, by dsimp only; omega⟩

theorem line_fits (h : t.length < maxLength) (offset : Nat) :
    (parse t).lines.line offset < Nat.pow 2 wordBits := by
  have hle : (parse t).lines.line offset ≤ t.length + 1 := LineIndex.line_le t offset
  have hmax : maxLength + 1 < Nat.pow 2 wordBits := by decide
  omega

theorem offset_fits (n : Nat) : keptOffset n < Nat.pow 2 offsetBits :=
  Nat.mod_lt _ (by decide)

theorem fits_sourceSpan (h : t.length < maxLength) (s : Statement) :
    ((parse t).sourceSpan s).Fits :=
  ⟨line_fits h _, line_fits h _, offset_fits _, offset_fits _⟩

theorem fits_planSyntaxError (h : t.length < maxLength) (e : SyntaxError) :
    ((parse t).planSyntaxError e).Fits := fun _ hs => by
  cases hs
  exact ⟨line_fits h _, line_fits h _, offset_fits _, offset_fits _⟩

theorem fits_unexpected (h : t.length < maxLength) (l : Located) :
    ((parse t).unexpected l).Fits := fun _ hs => by
  cases hs
  exact fits_sourceSpan h _

variable {f : SourceFile}

theorem branchPart_trouble {l : Located} {e : PlanError} (h : f.branchPart l = .trouble e) :
    e = f.unexpected l := by
  rw [branchPart] at h
  split at h
  any_goals cases h
  split at h
  · cases h
  · cases h
    rfl

/-- Every error about a statement says that it is unexpected. -/
theorem declarationAt_error {l : Located} {errors : List PlanError}
    (h : f.declarationAt l = .error errors) : ∀ e ∈ errors, ∃ l, e = f.unexpected l := by
  rw [declarationAt] at h
  split at h
  any_goals cases h
  · have hcondition := map_eq_error h
    rw [conditionalDeclaration] at hcondition
    split at hcondition
    · cases hcondition
    · cases hcondition
      intro e he
      obtain ⟨part, hpart, htrouble⟩ := List.mem_filterMap.mp he
      obtain ⟨l', -, rfl⟩ := List.mem_map.mp hpart
      split at htrouble
      · rename_i hbranch
        cases htrouble
        exact ⟨l', branchPart_trouble hbranch⟩
      · cases htrouble
  · split at h
    · cases h
    · cases h
      exact List.forall_mem_singleton.mpr ⟨l, rfl⟩

theorem declarations_error {errors : List PlanError} (h : f.declarations = .error errors) :
    ∀ e ∈ errors, ∃ l, e = f.unexpected l := by
  rw [SourceFile.declarations] at h
  split at h
  · cases h
  · cases h
    intro e he
    obtain ⟨result, hresult, he⟩ := List.mem_flatMap.mp he
    obtain ⟨l, -, rfl⟩ := List.mem_map.mp hresult
    split at he
    · rename_i herror
      exact declarationAt_error herror e he
    · cases he

theorem fits_decide (h : t.length < maxLength) (c : PlanConfig) {d : Declaration}
    (hplace : d.place ∈ (parse t).outline) : ((parse t).decide c d).Fits where
  span := fits_sourceSpan h _
  tokens := fits_of_within h (outline_forall (root_within t) (everywhere_within t) _ hplace)
  spaceTokens s hs := by
    obtain ⟨level, hlevel, hspace⟩ := List.exists_of_findSome?_eq_some hs
    have hwithin := outline_above_forall (root_within t) (everywhere_within t) _ hplace level hlevel
    split at hspace
    · cases hspace
      exact fits_of_within h hwithin
    · cases hspace

end SourceFile

namespace FilePlan

theorem fits_ofText {text : Text} (h : text.length < maxLength) (c : PlanConfig) (path : Text) :
    (ofText c path text).Fits where
  decisions d hd := by
    obtain ⟨l, hl, declaration, hat, rfl⟩ := mem_decisions hd
    exact SourceFile.fits_decide h c (SourceFile.place_of_declarationAt hat ▸ hl)
  errors := by
    rw [ofText]
    dsimp only
    split
    · exact List.forall_mem_map.mpr fun e _ => SourceFile.fits_planSyntaxError h e
    · split
      · exact List.forall_mem_nil _
      · rename_i errors herrors
        intro e he
        obtain ⟨l, rfl⟩ := SourceFile.declarations_error herrors e he
        exact SourceFile.fits_unexpected h l

theorem fits_invalidSpan {valid : Text} (h : valid.length < maxLength) (left : Bytes) :
    (invalidSpan valid left).Fits := by
  have hlines : valid.count '\n' + 1 < Nat.pow 2 wordBits := by
    have hcount : valid.count '\n' ≤ valid.length := List.count_le_length
    have hmax : maxLength + 1 < Nat.pow 2 wordBits := by decide
    omega
  have hclamp (n : Nat) : min SourceSpan.lastOffset n < Nat.pow 2 offsetBits :=
    Nat.lt_of_le_of_lt (Nat.min_le_left _ _) (by decide)
  exact ⟨hlines, hlines, hclamp _, hclamp _⟩

theorem length_ofUtf8_le (content : Bytes) : (Text.ofUtf8 content).1.length ≤ content.length := by
  have hsize := Text.length_le_byteSize (Text.ofUtf8 content).1
  have hlength := congrArg List.length (Text.toUtf8_ofUtf8 content)
  rw [List.length_append, Text.length_toUtf8] at hlength
  omega

theorem fits_ofBytes {content : Bytes} (h : content.length < maxLength) (c : PlanConfig)
    (path : Text) : (ofBytes c path content).Fits := by
  have hlength := Nat.lt_of_le_of_lt (length_ofUtf8_le content) h
  rw [ofBytes]
  split
  · rename_i text htext
    rw [htext] at hlength
    exact fits_ofText hlength c path
  · rename_i valid left _ hvalid
    rw [hvalid] at hlength
    refine ⟨List.forall_mem_nil _, List.forall_mem_singleton.mpr fun s hs => ?_⟩
    cases hs
    exact fits_invalidSpan hlength left

end FilePlan

/-- A plan made from the content of a file that can be read. -/
def FilePlan.IsPlanned (p : FilePlan) : Prop :=
  ∃ c path content, content.length < maxLength ∧ p = .ofBytes c path content

theorem FilePlan.IsPlanned.fits {p : FilePlan} (h : p.IsPlanned) : p.Fits := by
  obtain ⟨c, path, content, hlength, rfl⟩ := h
  exact fits_ofBytes hlength c path

theorem fits_settleFiles {files : List FilePlan} (h : ∀ file ∈ files, file.Fits) (owners : Owners) :
    ∀ file ∈ settleFiles owners files, file.Fits := by
  induction files generalizing owners with
  | nil => exact List.forall_mem_nil _
  | cons file files ih =>
    obtain ⟨hfile, hfiles⟩ := List.forall_mem_cons.mp h
    obtain ⟨hkept, hconflicts⟩ := settle_spec file.path owners file.decisions
    refine List.forall_mem_cons.mpr ⟨⟨fun d hd => hfile.decisions d (hkept d hd), ?_⟩, ih hfiles _⟩
    refine List.forall_mem_append.mpr ⟨hfile.errors, fun e he s hs => ?_⟩
    obtain ⟨d, hd, hspan⟩ := hconflicts e he
    rw [hspan, Option.mem_some_iff] at hs
    subst hs
    exact (hfile.decisions d hd).span

namespace ProjectPlan

theorem fits_ofFiles {files : List FilePlan} (h : ∀ file ∈ files, file.IsPlanned) (sourceRoot : Text)
    (c : PlanConfig) : (ofFiles sourceRoot c files).Fits :=
  fits_settleFiles (fun file hfile => (h file hfile).fits) []

end ProjectPlan
end NamespaceMigration
