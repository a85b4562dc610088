import PartPatch.Proofs.Patch.History
import PartPatch.Proofs.Patch.Safety
import PartPatch.Proofs.Tree.Compact

/-!
# The workspaces of a session

A session begins with a document that was read and with an allocator that has given out nothing.
What its operations lead to is well formed at all times.
-/

namespace PartPatch.Session

set_option autoImplicit false

variable {P : Type} [Package P] {s : Session} {w left : Workspace P}

/-- Operations, and the compaction after each run of them, lead to the workspace. -/
inductive Reached (s : Session) : Workspace P → Prop where
  | start {source : String} {t : Tree} (package : P) (h : Xml.read source = .ok t) :
    Reached s ⟨t, .empty, package⟩
  | operation {w : Workspace P} (index : Nat) (record : OperationRecord) (h : Reached s w) :
    Reached s (s.applyOperation w index record).2
  | compaction {w : Workspace P} (h : Reached s w) : Reached s (compacted w)

/-- What an operation leaves: the workspace of its execution, or tree and allocator as they
were. -/
theorem applyOperation_draft (s : Session) (w : Workspace P) (index : Nat)
    (record : OperationRecord) :
    (∃ result, s.execute w record.operation =
        (.ok result, (s.applyOperation w index record).2) ∧
          (s.applyOperation w index record).1 = .ok result) ∨
      (s.applyOperation w index record).2.tree = w.tree ∧
        (s.applyOperation w index record).2.ids = w.ids := by
  rcases h : s.execute w record.operation with ⟨e | result, left⟩
  · have hdraft := rollback_draft h
    simp only [applyOperation, h]
    split
    · exact Or.inr hdraft
    · exact Or.inr hdraft
  · refine Or.inl ⟨result, ?_, ?_⟩
    · simp only [applyOperation, h]
    · simp only [applyOperation, h]

theorem wellFormed_of_execute (sound : s.registry.Sound) (wf : w.tree.WellFormed)
    {operation : Operation} {result : OperationResult}
    (h : s.execute w operation = (.ok result, left)) : left.tree.WellFormed := by
  cases ha : s.action? operation with
  | none =>
    obtain ⟨part, fragment, rfl⟩ := ensurePart_of_action? ha
    rw [(execute_ensurePart h).2.1]
    exact wf
  | some action =>
    rw [execute_eq_edit ha] at h
    have wf' : (Draft.mk w.tree w.ids).tree.WellFormed := wf
    exact (edit_ends (action_safe sound wf' ha) h).1 result rfl

theorem wellFormed_applyOperation (sound : s.registry.Sound) (wf : w.tree.WellFormed)
    (index : Nat) (record : OperationRecord) :
    (s.applyOperation w index record).2.tree.WellFormed := by
  rcases applyOperation_draft s w index record with ⟨result, h, _⟩ | ⟨htree, _⟩
  · exact wellFormed_of_execute sound wf h
  · rw [htree]
    exact wf

theorem Reached.wellFormed (sound : s.registry.Sound) (h : s.Reached w) :
    w.tree.WellFormed := by
  induction h with
  | start package h => exact Xml.wellFormed_of_read h
  | operation index record _ ih => exact wellFormed_applyOperation sound ih index record
  | compaction _ ih => exact ih.compact

theorem Reached.follow (h : s.Reached w) (moves : List Move) : s.Reached (s.follow w moves) := by
  induction moves generalizing w with
  | nil => exact h
  | cons m moves ih =>
    cases m with
    | operation index record => exact ih (h.operation index record)
    | compaction => exact ih h.compaction

theorem Reached.run (h : s.Reached w) (index : Nat) (records : List OperationRecord) :
    s.Reached (s.run w index records).2 := by
  obtain ⟨moves, hmoves⟩ := exists_moves_run s w index records
  rw [hmoves]
  exact h.follow moves

/-- The patches of a session lead from one of its workspaces to another. -/
theorem Reached.apply (h : s.Reached w) (p : Patch) : s.Reached (s.apply w p).2 := by
  obtain ⟨moves, hmoves⟩ := exists_moves_apply s w p
  rw [hmoves]
  exact h.follow moves

/-! ## Validated patches -/

theorem satisfies_of_checked (sound : s.registry.Sound) {requirement : Option String}
    (issues : Patch.requirementIssues requirement = []) :
    ∃ answer, Version.satisfies s.registry.metadata.version requirement = .ok answer := by
  unfold Version.satisfies
  cases requirement with
  | none => exact ⟨true, rfl⟩
  | some text =>
    simp only [Option.map_some]
    split
    · exact ⟨true, rfl⟩
    · next hblank =>
      simp only [Patch.requirementIssues, if_neg hblank] at issues
      split at issues
      · next r hread =>
        rw [hread]
        cases hversion : s.registry.metadata.version with
        | none => exact ⟨false, rfl⟩
        | some version =>
          obtain ⟨v, hv⟩ := sound.version version hversion
          simp only [hv]
          exact ⟨r.admits v, rfl⟩
      · cases issues

theorem requirementIssues_of_validate {document : Patch.Document} {p : Patch}
    (h : document.validate = .ok p) :
    Patch.requirementIssues p.metadata.registryVersion = [] := by
  unfold Patch.Document.validate at h
  split at h
  · next issues =>
    cases h
    rw [Patch.Document.issues, List.append_eq_nil_iff, List.append_eq_nil_iff] at issues
    exact issues.1.2
  · cases h

theorem registryFaults_of_issuesAgainst {r : Registry} {p : Patch}
    (h : p.issuesAgainst r = []) {n : Nat} {record : OperationRecord}
    (hn : p.operations[n]? = some record) : Patch.registryFaults r record.operation = [] := by
  rw [Patch.issuesAgainst, Patch.operationIssues, List.flatMap_eq_nil_iff] at h
  have hmem : (record, n) ∈ p.operations.zipIdx := List.mem_zipIdx_iff_getElem?.2 hn
  exact List.map_eq_nil_iff.1 (h _ hmem)

theorem permitted_of_execute (sound : s.registry.Sound) {w left : Workspace MemoryPackage}
    (wf : w.tree.WellFormed) {operation : Operation}
    (faults : Patch.registryFaults s.registry operation = []) {e : OperationError}
    (h : s.execute w operation = (.error e, left)) : s.Permitted w.tree operation e := by
  cases ha : s.action? operation with
  | none =>
    obtain ⟨part, fragment, rfl⟩ := ensurePart_of_action? ha
    exact ensurePart_safe sound w.tree faults (execute_ensurePart h).1
  | some action =>
    rw [execute_eq_edit ha] at h
    have wf' : (Draft.mk w.tree w.ids).tree.WellFormed := wf
    exact (edit_ends (action_safe sound wf' ha) h).2 e rfl faults

/-- A validated patch that suits the registry never fails in a way that the checks rule out, and
whether it is meant for the registry's version can always be told. -/
theorem apply_error_permitted {document : Registry.Document} {source : Patch.Document} {p : Patch}
    (compiled : Registry.compile document = .ok s.registry) (validated : source.validate = .ok p)
    (suits : p.issuesAgainst s.registry = []) :
    (∃ answer, Version.satisfies s.registry.metadata.version p.metadata.registryVersion =
        .ok answer) ∧
      ∀ w : Workspace MemoryPackage, s.Reached w → ∀ error left,
        s.apply w p = (.error error, left) →
        ∃ record, p.operations[error.index]? = some record ∧
          s.Permitted (s.run w 0 (p.operations.take error.index)).2.tree record.operation
            error.cause := by
  have sound := Registry.sound_of_compile compiled
  refine ⟨satisfies_of_checked sound (requirementIssues_of_validate validated), ?_⟩
  intro w reached error left h
  cases hv : s.versionMismatch? p with
  | some reason =>
    simp only [apply, hv] at h
    cases h
  | none =>
    rw [apply_eq_run hv] at h
    rcases hr : s.run w 0 p.operations with ⟨error' | outcomes, w'⟩
    · rw [hr] at h
      cases h
      obtain ⟨n, _, hindex, ⟨outcomes, hbefore⟩, ⟨record, hrecord, happly⟩, _⟩ :=
        run_error MemoryPackage.keepsNoTraces hr
      rw [Nat.zero_add] at hindex happly
      rw [hindex, hbefore]
      refine ⟨record, hrecord, ?_⟩
      have wf : w'.tree.WellFormed := by
        have := (reached.run 0 (p.operations.take n)).wellFormed sound
        rwa [hbefore] at this
      have faults := registryFaults_of_issuesAgainst suits hrecord
      rcases he : s.execute w' record.operation with ⟨e | result, w''⟩
      · simp only [applyOperation, he] at happly
        split at happly
        · cases happly
        · rw [← Except.error.inj (Prod.mk.inj happly).1]
          exact permitted_of_execute sound wf faults he
      · simp only [applyOperation, he] at happly
        cases happly
    · rw [hr] at h
      cases h

theorem read_oneItem : Xml.read "<list><item id='1'/></list>" = .ok oneItem.tree := by
  cbv

/-- A fragment in front of the root. -/
def itemBeforeList : Patch.Document where
  metadata := ⟨"", none, none⟩
  operations := [⟨.insert, some "gap", some "list", some "item", none, none, none, some .before,
    false⟩]

def itemBeforeListPatch : Patch where
  metadata := ⟨"", none, none⟩
  operations := [⟨.insert "gap" "list" (.fragment "item") .before, false⟩]

theorem apply_error_permitted_root :
    itemBeforeList.validate = .ok itemBeforeListPatch ∧
    itemBeforeListPatch.issuesAgainst itemList.registry = [] ∧
    (itemList.apply oneItem itemBeforeListPatch).1 =
      .error ⟨0, .insert, ["gap", "list", "item"], .tree .multipleRoots⟩ ∧
    itemList.DoublesRoot oneItem.tree (.insert "gap" "list" (.fragment "item") .before) := by
  have compiled : Registry.compile Registry.itemList = .ok itemList.registry :=
    Registry.compile_itemList
  have validated : itemBeforeList.validate = .ok itemBeforeListPatch := by cbv
  have suits : itemBeforeListPatch.issuesAgainst itemList.registry = [] := by cbv
  have failed : (itemList.apply oneItem itemBeforeListPatch).1 =
      .error ⟨0, .insert, ["gap", "list", "item"], .tree .multipleRoots⟩ := by cbv
  have reached : itemList.Reached oneItem := .start MemoryPackage.empty read_oneItem
  obtain ⟨_, h⟩ := apply_error_permitted compiled validated suits
  obtain ⟨record, hrecord, permitted⟩ := h oneItem reached _ _ (Prod.ext failed rfl)
  cases hrecord
  exact ⟨validated, suits, failed, permitted.2⟩

end PartPatch.Session
