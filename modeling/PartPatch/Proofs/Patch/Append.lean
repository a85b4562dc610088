import PartPatch.Proofs.Patch.Lockstep
import PartPatch.Proofs.Tree.Pairing

/-!
# Patches in parts

A patch may be applied in two parts, one after the other in the same session. The parts together
report what the whole patch reports, apart from the numbers of the operations of the second part,
and leave the same document. The tree is compacted between the two, so the second part works on
nodes with other names.
-/

namespace PartPatch

set_option autoImplicit false

def OperationOutcome.shift (count : Nat) (o : OperationOutcome) : OperationOutcome :=
  { o with index := o.index + count }

def PatchError.shift (count : Nat) (e : PatchError) : PatchError :=
  { e with index := e.index + count }

namespace Session

variable {P : Type} [Package P] {s : Session} {w : Workspace P}

/-- Applies a patch and then, unless it failed, another one whose operations are numbered on. -/
def applyInTurn (s : Session) (w : Workspace P) (p q : Patch) :
    Except PatchError PatchReport × Workspace P :=
  match s.apply w p with
  | (.error e, w) => (.error e, w)
  | (.ok report, w) =>
    match s.apply w q with
    | (.error e, w) => (.error (e.shift p.operations.length), w)
    | (.ok more, w) =>
      (.ok ⟨report.name, report.outcomes ++
        more.outcomes.map (OperationOutcome.shift p.operations.length)⟩, w)

theorem run_append_error {index : Nat} {records more : List OperationRecord} {e : PatchError}
    {left : Workspace P} (h : s.run w index records = (.error e, left)) :
    s.run w index (records ++ more) = (.error e, left) := by
  induction records generalizing w index e left with
  | nil => cases h
  | cons record records ih =>
    rw [List.cons_append]
    rcases ha : s.applyOperation w index record with ⟨error | result, w'⟩
    · rw [run_cons_error ha] at h ⊢
      exact h
    · rw [run_cons_ok ha] at h ⊢
      rcases hr : s.run w' (index + 1) records with ⟨error | outcomes, w''⟩
      · rw [hr] at h
        have hall : s.run w' (index + 1) (records ++ more) = (.error error, w'') := ih hr
        rw [hall]
        exact h
      · rw [hr] at h
        cases h

theorem run_append_ok {index : Nat} {records more : List OperationRecord}
    {outcomes : List OperationOutcome} {left : Workspace P}
    (h : s.run w index records = (.ok outcomes, left)) :
    s.run w index (records ++ more) =
      ((s.run left (index + records.length) more).1.map (outcomes ++ ·),
        (s.run left (index + records.length) more).2) := by
  induction records generalizing w index outcomes left with
  | nil =>
    cases h
    rw [List.nil_append, List.length_nil, Nat.add_zero]
    rcases s.run w index more with ⟨error | rest, w'⟩
    · rfl
    · rfl
  | cons record records ih =>
    rw [List.cons_append]
    rcases ha : s.applyOperation w index record with ⟨error | result, w'⟩
    · rw [run_cons_error ha] at h
      cases h
    · rw [run_cons_ok ha] at h ⊢
      rcases hr : s.run w' (index + 1) records with ⟨error | rest, w''⟩
      · rw [hr] at h
        cases h
      · rw [hr] at h
        obtain ⟨houtcomes, hleft⟩ := Prod.mk.inj h
        rw [← Except.ok.inj houtcomes, ← hleft, ih hr, List.length_cons, Nat.add_assoc,
          Nat.add_comm 1]
        dsimp only
        rcases s.run w'' (index + (records.length + 1)) more with ⟨error | last, w'''⟩
        · rfl
        · rfl

theorem applyOperation_shift (s : Session) (w : Workspace P) (index count : Nat)
    (record : OperationRecord) :
    s.applyOperation w (index + count) record =
      ((s.applyOperation w index record).1.mapError (PatchError.shift count),
        (s.applyOperation w index record).2) := by
  simp only [applyOperation]
  split
  · rfl
  · split
    · rfl
    · rfl

/-- Numbers do not matter for a run. -/
theorem run_shift (s : Session) (w : Workspace P) (index count : Nat)
    (records : List OperationRecord) :
    s.run w (index + count) records =
      (((s.run w index records).1.map (List.map (OperationOutcome.shift count))).mapError
        (PatchError.shift count), (s.run w index records).2) := by
  induction records generalizing w index with
  | nil => rfl
  | cons record records ih =>
    have hshift := applyOperation_shift s w index count record
    rcases ha : s.applyOperation w index record with ⟨error | result, w'⟩
    · rw [ha] at hshift
      rw [run_cons_error ha, run_cons_error hshift]
      rfl
    · rw [ha] at hshift
      rw [run_cons_ok ha, run_cons_ok hshift, Nat.add_right_comm, ih]
      rcases s.run w' (index + 1) records with ⟨error | rest, w''⟩
      · rfl
      · rfl

/-! ## Compaction between the parts -/

omit [Package P] in
theorem workspaces_compacted (v : View) (wf : w.tree.WellFormed) :
    Workspaces P v w (compacted w) :=
  ⟨wf.mirrors_compact v, rfl, rfl⟩

theorem wellFormed_run (sound : s.registry.Sound) (wf : w.tree.WellFormed) (index : Nat)
    (records : List OperationRecord) : (s.run w index records).2.tree.WellFormed := by
  obtain ⟨_, ⟨_, m⟩, _, _⟩ :=
    run_mirrors (v := .full) sound ⟨⟨_, wf.mirrors_self .full⟩, rfl, rfl⟩ index records
  exact m.wellFormed

theorem alike_compact {t u : Tree} {twin : NodeId → NodeId → Prop} (m : t.Mirrors .full twin u) :
    t.compact.1.Alike u.compact.1 := by
  obtain ⟨_, m'⟩ := m.compact
  exact m'.alike

theorem zipIdx_outcomes (p q : List OperationRecord) (result : OperationResult) :
    ((p ++ q).zipIdx.map fun (record, index) => outcome index record result) =
      (p.zipIdx.map fun (record, index) => outcome index record result) ++
        (q.zipIdx.map fun (record, index) => outcome index record result).map
          (OperationOutcome.shift p.length) := by
  rw [List.zipIdx_append, List.map_append, Nat.zero_add, List.map_map,
    List.zipIdx_eq_map_add (i := p.length), List.map_map]
  congr 1
  apply List.map_congr_left
  rintro ⟨record, index⟩ _
  exact congrArg (outcome · record result) (Nat.add_comm p.length index)

/-- To apply a patch is to apply its first operations and then the others. -/
theorem apply_append {d : Registry.Document} (compiled : Registry.compile d = .ok s.registry)
    (wf : w.tree.WellFormed) (metadata : PatchMetadata) (p q : List OperationRecord) :
    (s.apply w ⟨metadata, p ++ q⟩).1 = (s.applyInTurn w ⟨metadata, p⟩ ⟨metadata, q⟩).1 ∧
      (s.apply w ⟨metadata, p ++ q⟩).2.tree.Alike
        (s.applyInTurn w ⟨metadata, p⟩ ⟨metadata, q⟩).2.tree ∧
      (s.apply w ⟨metadata, p ++ q⟩).2.ids = (s.applyInTurn w ⟨metadata, p⟩ ⟨metadata, q⟩).2.ids ∧
      (s.apply w ⟨metadata, p ++ q⟩).2.package =
        (s.applyInTurn w ⟨metadata, p⟩ ⟨metadata, q⟩).2.package := by
  have sound := Registry.sound_of_compile compiled
  cases hv : s.versionMismatch? ⟨metadata, p⟩ with
  | some reason =>
    have hq : s.versionMismatch? ⟨metadata, q⟩ = some reason := hv
    have hpq : s.versionMismatch? ⟨metadata, p ++ q⟩ = some reason := hv
    simp only [applyInTurn, apply, hv, hq, hpq, zipIdx_outcomes]
    exact ⟨trivial, ⟨rfl, rfl⟩, trivial, trivial⟩
  | none =>
    have hq : s.versionMismatch? ⟨metadata, q⟩ = none := hv
    have hpq : s.versionMismatch? ⟨metadata, p ++ q⟩ = none := hv
    have wfp := wellFormed_run sound wf 0 p
    rw [apply_eq_run hpq, applyInTurn, apply_eq_run hv]
    rcases hp : s.run w 0 p with ⟨e | outcomes, w'⟩
    · simp only [run_append_error hp]
      exact ⟨rfl, ⟨rfl, rfl⟩, rfl, rfl⟩
    · rw [hp] at wfp
      obtain ⟨hresult, ⟨_, m⟩, hids, hpackage⟩ :=
        run_mirrors sound (workspaces_compacted .full wfp) 0 q
      have hshift := run_shift s w' 0 p.length q
      rw [run_append_ok hp, hshift]
      simp only [Except.map, apply_eq_run hq]
      rcases hr : s.run (compacted w') 0 q with ⟨e | more, w''⟩
      · rw [hr] at hresult m hids hpackage
        rw [hresult]
        exact ⟨rfl, alike_compact m, hids, hpackage⟩
      · rw [hr] at hresult m hids hpackage
        rw [hresult]
        exact ⟨rfl, alike_compact m, hids, hpackage⟩

/-- Detaches the item, so that the nodes are renumbered before the next patch. -/
def emptyList : List OperationRecord :=
  [⟨.set "list" "text", false⟩]

def fillAndMissGap : List OperationRecord :=
  [⟨.insert "gap" "list" (.fragment "item") .append, false⟩, ⟨.set "gap" "text", false⟩]

theorem apply_append_emptyList :
    (itemList.run oneItem 0 emptyList).2.tree.size = 4 ∧
    (itemList.apply oneItem ⟨⟨"", none, none⟩, emptyList⟩).2.tree.size = 3 ∧
    (itemList.applyInTurn oneItem ⟨⟨"", none, none⟩, emptyList⟩
      ⟨⟨"", none, none⟩, fillAndMissGap⟩).1 =
        .error ⟨2, .set, ["gap"], .targetNotFound "gap"⟩ ∧
    (itemList.apply oneItem ⟨⟨"", none, none⟩, emptyList ++ fillAndMissGap⟩).2.tree.Alike
      (itemList.applyInTurn oneItem ⟨⟨"", none, none⟩, emptyList⟩
        ⟨⟨"", none, none⟩, fillAndMissGap⟩).2.tree := by
  have whole : (itemList.apply oneItem ⟨⟨"", none, none⟩, emptyList ++ fillAndMissGap⟩).1 =
      .error ⟨2, .set, ["gap"], .targetNotFound "gap"⟩ := by cbv
  have compiled : Registry.compile Registry.itemList = .ok itemList.registry :=
    Registry.compile_itemList
  have wf := Xml.wellFormed_of_read read_oneItem
  obtain ⟨hresult, halike, _⟩ :=
    apply_append compiled wf ⟨"", none, none⟩ emptyList fillAndMissGap
  exact ⟨by cbv, by cbv, hresult.symm.trans whole, halike⟩

end Session

end PartPatch
