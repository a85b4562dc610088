import PartPatch.Package.Memory
import PartPatch.Proofs.Patch.Edit
import PartPatch.Proofs.Registry.Compile

/-!
# Failures and the operations around them

An operation that fails or is skipped leaves the workspace as it found it, provided that the package
keeps no traces of a part that it refused. A run that fails is then the run of the operations before
the one that failed.
-/

namespace PartPatch

set_option autoImplicit false

/-- The patch without the operations from the given number on. -/
def Patch.upTo (p : Patch) (count : Nat) : Patch :=
  { p with operations := p.operations.take count }

/-- A package of this kind that refuses a part is left as it was. -/
def Package.KeepsNoTraces (P : Type) [Package P] : Prop :=
  ∀ (package : P) (spec : PartSpec) (body : Tree) (e : PartError) (left : P),
    Package.createPart package spec body = (.error e, left) → left = package

theorem MemoryPackage.keepsNoTraces : Package.KeepsNoTraces MemoryPackage := by
  intro package spec body e left h
  simp only [Package.createPart, MemoryPackage.createPart] at h
  split at h
  · exact (Prod.mk.inj h).2.symm
  · split at h
    · exact (Prod.mk.inj h).2.symm
    · cases (Prod.mk.inj h).1

namespace Session

open Edit

variable {P : Type} {s : Session} {w left : Workspace P} {e : OperationError}
  {result : OperationResult}

/-! ## One operation -/

/-- What an operation gives that was carried out. -/
def Carried (result : OperationResult) : Prop :=
  result = .applied ∨ result = .alreadyApplied

theorem carried_of_action {action : Edit OperationResult} {operation : Operation}
    (h : s.action? operation = some action) (d : Draft) :
    Ends action d (fun result _ => Carried result) fun _ _ => True := by
  cases operation with
  | set target value =>
    rw [← Option.some.inj h, ends_set]
    simp [ends_change, Carried]
  | insert target anchor payload placement =>
    rw [← Option.some.inj h, ends_insert]
    simp [ends_prepare, ends_instantiate, ends_change, Carried]
  | remove target =>
    rw [← Option.some.inj h, ends_remove]
    simp [Carried]
  | ensurePath target anchor fragment placement =>
    rw [← Option.some.inj h, ends_ensurePath]
    simp [ends_instantiate, ends_change, Carried]
  | ensurePart part fragment => cases h
  | ensureAttr target attr value =>
    rw [← Option.some.inj h, ends_ensureAttr]
    simp [ends_change, Carried]

variable [Package P]

theorem carried_of_ensurePart {part fragment : String} {package package' : P}
    (h : s.ensurePart package part fragment = (.ok result, package')) : Carried result := by
  unfold ensurePart at h
  repeat' split at h
  all_goals cases h
  · exact Or.inr rfl
  · exact Or.inl rfl

/-- What `ensurePart` does, it does to the package. -/
theorem execute_ensurePart {part fragment : String}
    {outcome : Except OperationError OperationResult}
    (h : s.execute w (.ensurePart part fragment) = (outcome, left)) :
    s.ensurePart w.package part fragment = (outcome, left.package) ∧
      left.tree = w.tree ∧ left.ids = w.ids := by
  rcases hp : s.ensurePart w.package part fragment with ⟨r, package⟩
  simp only [execute, hp, Prod.mk.injEq] at h
  rw [← h.1, ← h.2]
  exact ⟨rfl, rfl, rfl⟩

theorem carried_of_execute {operation : Operation}
    (h : s.execute w operation = (.ok result, left)) : Carried result := by
  cases ha : s.action? operation with
  | none =>
    obtain ⟨part, fragment, rfl⟩ := ensurePart_of_action? ha
    exact carried_of_ensurePart (execute_ensurePart h).1
  | some action =>
    rw [execute_eq_edit ha] at h
    exact (edit_ends (carried_of_action ha _) h).1 result rfl

theorem package_of_ensurePart_error (noTraces : Package.KeepsNoTraces P) {part fragment : String}
    {package package' : P} (h : s.ensurePart package part fragment = (.error e, package')) :
    package' = package := by
  unfold ensurePart at h
  repeat' split at h
  all_goals cases h
  · rfl
  · rfl
  · rfl
  · next hcreate => exact noTraces _ _ _ _ _ hcreate

/-- What a failed operation did to tree and allocator is undone. -/
theorem rollback_draft {operation : Operation}
    (h : s.execute w operation = (.error e, left)) :
    (rollback operation.kind w left).tree = w.tree ∧
      (rollback operation.kind w left).ids = w.ids := by
  refine ⟨?_, rfl⟩
  cases operation with
  | ensurePart part fragment => exact (execute_ensurePart h).2.1
  | _ => rfl

theorem package_of_execute_error (noTraces : Package.KeepsNoTraces P) {operation : Operation}
    (h : s.execute w operation = (.error e, left)) : left.package = w.package := by
  cases ha : s.action? operation with
  | none =>
    obtain ⟨part, fragment, rfl⟩ := ensurePart_of_action? ha
    exact package_of_ensurePart_error noTraces (execute_ensurePart h).1
  | some action =>
    rw [execute_eq_edit ha] at h
    exact package_of_edit h

theorem rollback_eq (noTraces : Package.KeepsNoTraces P) {operation : Operation}
    (h : s.execute w operation = (.error e, left)) : rollback operation.kind w left = w := by
  obtain ⟨htree, hids⟩ := rollback_draft h
  have hpackage : (rollback operation.kind w left).package = w.package := by
    change left.package = w.package
    exact package_of_execute_error noTraces h
  rcases hr : rollback operation.kind w left with ⟨tree, ids, package⟩
  rw [hr] at htree hids hpackage
  cases w
  cases htree
  cases hids
  cases hpackage
  rfl

/-- The three ways in which an operation of a patch ends. -/
theorem applyOperation_cases (noTraces : Package.KeepsNoTraces P) (s : Session) (w : Workspace P)
    (index : Nat) (record : OperationRecord) :
    (∃ result left, s.execute w record.operation = (.ok result, left) ∧ Carried result ∧
      s.applyOperation w index record = (.ok result, left)) ∨
    (∃ e : OperationError, e.isMatchFailure = true ∧ s.isOptional record = true ∧
      s.applyOperation w index record = (.ok (.skipped e.message), w)) ∨
    ∃ e, s.applyOperation w index record =
      (.error ⟨index, record.operation.kind, record.operation.keys, e⟩, w) := by
  rcases h : s.execute w record.operation with ⟨e | result, left⟩
  · have hw := rollback_eq noTraces h
    by_cases skip : (e.isMatchFailure && s.isOptional record) = true
    · have hs := Bool.and_eq_true_iff.1 skip
      refine Or.inr (Or.inl ⟨e, hs.1, hs.2, ?_⟩)
      simp [applyOperation, h, hw, hs.1, hs.2]
    · refine Or.inr (Or.inr ⟨e, ?_⟩)
      simp [applyOperation, h, hw, skip]
  · refine Or.inl ⟨result, left, rfl, carried_of_execute h, ?_⟩
    simp [applyOperation, h]

theorem eq_of_skipped (noTraces : Package.KeepsNoTraces P) {index : Nat}
    {record : OperationRecord} {reason : String}
    (h : s.applyOperation w index record = (.ok (.skipped reason), left)) : left = w := by
  rcases applyOperation_cases noTraces s w index record with
    ⟨result, left', _, carried, h'⟩ | ⟨e, _, _, h'⟩ | ⟨e, h'⟩
  · rw [h'] at h
    cases h
    rcases carried with h | h
    · cases h
    · cases h
  · rw [h'] at h
    exact (Prod.mk.inj h).2.symm
  · rw [h'] at h
    cases h

theorem eq_of_failed (noTraces : Package.KeepsNoTraces P) {index : Nat}
    {record : OperationRecord} {error : PatchError}
    (h : s.applyOperation w index record = (.error error, left)) :
    left = w ∧ error.index = index := by
  rcases applyOperation_cases noTraces s w index record with
    ⟨result, left', _, _, h'⟩ | ⟨e, _, _, h'⟩ | ⟨e, h'⟩
  · rw [h'] at h
    cases h
  · rw [h'] at h
    cases h
  · rw [h'] at h
    cases h
    exact ⟨rfl, rfl⟩

/-! ## A run -/

theorem run_cons_ok {w' : Workspace P} {index : Nat} {record : OperationRecord}
    (h : s.applyOperation w index record = (.ok result, w')) (records : List OperationRecord) :
    s.run w index (record :: records) =
      ((s.run w' (index + 1) records).1.map (outcome index record result :: ·),
        (s.run w' (index + 1) records).2) := by
  simp only [run, h]

theorem run_cons_error {w' : Workspace P} {index : Nat} {record : OperationRecord}
    {error : PatchError} (h : s.applyOperation w index record = (.error error, w'))
    (records : List OperationRecord) :
    s.run w index (record :: records) = (.error error, w') := by
  simp only [run, h]

/-- A run that fails ends where the operations before the failing one have led. -/
theorem run_error (noTraces : Package.KeepsNoTraces P) {error : PatchError}
    {records : List OperationRecord} {index : Nat}
    (h : s.run w index records = (.error error, left)) :
    ∃ n < records.length, error.index = index + n ∧
      (∃ outcomes, s.run w index (records.take n) = (.ok outcomes, left)) ∧
      (∃ record, records[n]? = some record ∧
        s.applyOperation left (index + n) record = (.error error, left)) ∧
      ∀ later, s.run w index (records.take (n + 1) ++ later) = (.error error, left) := by
  induction records generalizing w index with
  | nil => cases h
  | cons record records ih =>
    rcases ha : s.applyOperation w index record with ⟨error' | result, w'⟩
    · rw [run_cons_error ha] at h
      cases h
      obtain ⟨rfl, hindex⟩ := eq_of_failed noTraces ha
      refine ⟨0, Nat.succ_pos _, hindex, ⟨[], rfl⟩, ⟨record, rfl, ha⟩, ?_⟩
      intro later
      exact run_cons_error ha _
    · rw [run_cons_ok ha] at h
      rcases hr : s.run w' (index + 1) records with ⟨error' | outcomes, w''⟩
      · rw [hr] at h
        cases h
        obtain ⟨n, hn, hindex, ⟨outcomes, hbefore⟩, ⟨failing, hfailing, happly⟩, hlater⟩ := ih hr
        refine ⟨n + 1, Nat.succ_lt_succ hn, by omega, ?_, ⟨failing, hfailing, ?_⟩, ?_⟩
        · refine ⟨outcome index record result :: outcomes, ?_⟩
          rw [List.take_succ_cons, run_cons_ok ha, hbefore]
          rfl
        · rwa [Nat.add_assoc, Nat.add_comm 1 n] at happly
        · intro later
          rw [List.take_succ_cons, List.cons_append, run_cons_ok ha, hlater]
          rfl
      · rw [hr] at h
        cases h

/-- Each outcome of a run that succeeds is that of the operation of its number, and a skipped
operation makes no difference. -/
theorem run_skipped (noTraces : Package.KeepsNoTraces P) {records : List OperationRecord}
    {index : Nat} {outcomes : List OperationOutcome} {o : OperationOutcome} {reason : String}
    (h : s.run w index records = (.ok outcomes, left)) (ho : o ∈ outcomes)
    (skipped : o.result = .skipped reason) :
    ∃ n < records.length, o.index = index + n ∧
      (s.run w index (records.take (n + 1))).2 = (s.run w index (records.take n)).2 := by
  induction records generalizing w index outcomes with
  | nil =>
    cases h
    cases ho
  | cons record records ih =>
    rcases ha : s.applyOperation w index record with ⟨error' | result, w'⟩
    · rw [run_cons_error ha] at h
      cases h
    · rw [run_cons_ok ha] at h
      rcases hr : s.run w' (index + 1) records with ⟨error' | rest, w''⟩
      · rw [hr] at h
        cases h
      · rw [hr] at h
        cases h
        rcases List.mem_cons.1 ho with e | ho
        · rw [e] at skipped ⊢
          rw [show result = .skipped reason from skipped] at ha
          refine ⟨0, Nat.succ_pos _, rfl, ?_⟩
          rw [List.take_succ_cons, run_cons_ok ha, eq_of_skipped noTraces ha]
          rfl
        · obtain ⟨n, hn, hindex, heq⟩ := ih hr ho
          refine ⟨n + 1, Nat.succ_lt_succ hn, by omega, ?_⟩
          rw [List.take_succ_cons, List.take_succ_cons, run_cons_ok ha, run_cons_ok ha]
          exact heq

/-! ## A whole patch -/

theorem apply_eq_run {p : Patch} (h : s.versionMismatch? p = none) :
    s.apply w p = ((s.run w 0 p.operations).1.map (PatchReport.mk p.metadata.name),
      compacted (s.run w 0 p.operations).2) := by
  simp only [apply, h]

theorem versionMismatch?_upTo (s : Session) (p : Patch) (count : Nat) :
    s.versionMismatch? (p.upTo count) = s.versionMismatch? p := rfl

/-- A patch that fails at an operation leaves what the operations before it leave, whatever comes
after it, and an operation that is skipped leaves what was there before it. -/
theorem apply_stops (s : Session) (w : Workspace MemoryPackage) (p : Patch) :
    (∀ error left, s.apply w p = (.error error, left) →
      error.index < p.operations.length ∧
      (∃ report, s.apply w (p.upTo error.index) = (.ok report, left)) ∧
      ∀ later, s.apply w { p with
        operations := p.operations.take (error.index + 1) ++ later } = (.error error, left)) ∧
    (∀ report left, s.apply w p = (.ok report, left) →
      ∀ o ∈ report.outcomes, ∀ reason, o.result = .skipped reason →
        (s.apply w (p.upTo (o.index + 1))).2 = (s.apply w (p.upTo o.index)).2) ∧
    ∀ index record reason left,
      s.applyOperation w index record = (.ok (.skipped reason), left) → left = w := by
  have noTraces := MemoryPackage.keepsNoTraces
  refine ⟨?_, ?_, fun _ _ _ _ h => eq_of_skipped noTraces h⟩
  · intro error left h
    cases hv : s.versionMismatch? p with
    | some reason =>
      simp only [apply, hv] at h
      cases h
    | none =>
      rw [apply_eq_run hv] at h
      rcases hr : s.run w 0 p.operations with ⟨error' | outcomes, w'⟩
      · rw [hr] at h
        cases h
        obtain ⟨n, hn, hindex, ⟨outcomes, hbefore⟩, _, hlater⟩ := run_error noTraces hr
        rw [Nat.zero_add] at hindex
        rw [hindex]
        refine ⟨hn, ⟨⟨p.metadata.name, outcomes⟩, ?_⟩, ?_⟩
        · rw [apply_eq_run ((s.versionMismatch?_upTo p n).trans hv)]
          simp only [Patch.upTo, hbefore]
          rfl
        · intro later
          have hv' : s.versionMismatch? { p with
              operations := p.operations.take (n + 1) ++ later } = none := hv
          rw [apply_eq_run hv', hlater]
          rfl
      · rw [hr] at h
        cases h
  · intro report left h o ho reason skipped
    cases hv : s.versionMismatch? p with
    | some reason =>
      simp only [apply, versionMismatch?_upTo, hv]
    | none =>
      rw [apply_eq_run hv] at h
      rcases hr : s.run w 0 p.operations with ⟨error' | outcomes, w'⟩
      · rw [hr] at h
        cases h
      · rw [hr] at h
        cases h
        obtain ⟨n, _, hindex, heq⟩ := run_skipped noTraces hr ho skipped
        rw [Nat.zero_add] at hindex
        rw [hindex, apply_eq_run ((s.versionMismatch?_upTo p _).trans hv),
          apply_eq_run ((s.versionMismatch?_upTo p _).trans hv)]
        exact congrArg compacted heq

def itemList : Session where
  registry := Registry.items
  tokens := fun _ => none
  allOptional := false

def oneItem : Workspace MemoryPackage where
  tree := {
    nodes := #[⟨.document, none, [1]⟩, ⟨.element ⟨.plain "list", [], []⟩, some 0, [2]⟩,
      ⟨.element ⟨.plain "item", [⟨.plain "id", "1"⟩], []⟩, some 1, []⟩]
    header := none }
  ids := .empty
  package := .empty

/-- The second operation is skipped and the third one fails. -/
def fillGap : Patch where
  metadata := ⟨"", none, none⟩
  operations := [⟨.insert "gap" "list" (.fragment "item") .append, false⟩,
    ⟨.set "gap" "text", true⟩, ⟨.set "gap" "text", false⟩, ⟨.remove "list", false⟩]

theorem apply_stops_fillGap :
    (itemList.apply oneItem fillGap).1 =
      .error ⟨2, .set, ["gap"], .targetNotFound "gap"⟩ ∧
    (∃ report, itemList.apply oneItem (fillGap.upTo 2) =
      (.ok report, (itemList.apply oneItem fillGap).2)) ∧
    (itemList.apply oneItem (fillGap.upTo 2)).2 = (itemList.apply oneItem (fillGap.upTo 1)).2 := by
  have failed : (itemList.apply oneItem fillGap).1 =
      .error ⟨2, .set, ["gap"], .targetNotFound "gap"⟩ := by cbv
  have skipped : (itemList.apply oneItem (fillGap.upTo 2)).1 = .ok ⟨"",
      [⟨0, .insert, ["gap", "list", "item"], .applied⟩,
        ⟨1, .set, ["gap"], .skipped "target 'gap' matched no nodes"⟩]⟩ := by cbv
  obtain ⟨_, hbefore, _⟩ := (apply_stops itemList oneItem fillGap).1 _ _ (Prod.ext failed rfl)
  have hskip := (apply_stops itemList oneItem (fillGap.upTo 2)).2.1 _ _ (Prod.ext skipped rfl)
    ⟨1, .set, ["gap"], .skipped "target 'gap' matched no nodes"⟩ (by simp) _ rfl
  have htwo : (fillGap.upTo 2).upTo (1 + 1) = fillGap.upTo 2 := rfl
  have hone : (fillGap.upTo 2).upTo 1 = fillGap.upTo 1 := rfl
  rw [htwo, hone] at hskip
  exact ⟨failed, hbefore, hskip⟩

end Session

end PartPatch
