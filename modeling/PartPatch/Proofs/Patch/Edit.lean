import PartPatch.Patch.Session
import PartPatch.Proofs.Except
import PartPatch.Proofs.Tree.Nodes

/-!
# How edits end

An edit either gives a result or fails, and leaves a draft in both cases. `Ends` says what holds of
the two ends; one rule for each way in which edits are built turns it into a statement about the
functions that the edit calls.
-/

namespace PartPatch

set_option autoImplicit false

attribute [ext] Workspace

namespace Edit

/-- On the draft the action gives a result and a draft of which `done` holds, or an error and a
draft of which `failed` holds. -/
def Ends {α : Type} (action : Edit α) (d : Draft) (done : α → Draft → Prop)
    (failed : OperationError → Draft → Prop) : Prop :=
  match action.run.run d with
  | (.ok result, d) => done result d
  | (.error e, d) => failed e d

variable {α β : Type} {d : Draft} {done : α → Draft → Prop}
  {failed : OperationError → Draft → Prop}

theorem ends_pure {x : α} : Ends (pure x) d done failed ↔ done x d := Iff.rfl

theorem ends_throw {e : OperationError} : Ends (throw e : Edit α) d done failed ↔ failed e d :=
  Iff.rfl

theorem ends_bind {action : Edit β} {next : β → Edit α} :
    Ends (action >>= next) d done failed ↔
      Ends action d (fun x d => Ends (next x) d done failed) failed := by
  simp only [Ends, ExceptT.run_bind, StateT.run_bind]
  rcases action.run.run d with ⟨e | x, d'⟩
  · rfl
  · rfl

theorem ends_get {done : Draft → Draft → Prop} : Ends get d done failed ↔ done d d := Iff.rfl

theorem ends_modify {f : Draft → Draft} {done : Unit → Draft → Prop} :
    Ends (modify f) d done failed ↔ done () (f d) := Iff.rfl

theorem ends_lift {outcome : Except OperationError α} :
    Ends (liftM outcome : Edit α) d done failed ↔
      (∀ x, outcome = .ok x → done x d) ∧ ∀ e, outcome = .error e → failed e d := by
  cases outcome with
  | ok x =>
    constructor
    · intro h
      refine ⟨?_, ?_⟩
      · rintro _ ⟨⟩
        exact h
      · rintro _ ⟨⟩
    · intro h
      exact h.1 x rfl
  | error e =>
    constructor
    · intro h
      refine ⟨?_, ?_⟩
      · rintro _ ⟨⟩
      · rintro _ ⟨⟩
        exact h
    · intro h
      exact h.2 e rfl

theorem ends_ite {c : Prop} [Decidable c] {a b : Edit α} :
    Ends (if c then a else b) d done failed ↔
      (c → Ends a d done failed) ∧ (¬ c → Ends b d done failed) := by
  by_cases h : c
  · simp [h]
  · simp [h]

theorem Ends.mono {action : Edit α} {done' : α → Draft → Prop}
    {failed' : OperationError → Draft → Prop} (h : Ends action d done failed)
    (hdone : ∀ x d, done x d → done' x d) (hfailed : ∀ e d, failed e d → failed' e d) :
    Ends action d done' failed' := by
  unfold Ends at *
  split at h
  · exact hdone _ _ h
  · exact hfailed _ _ h

end Edit

open Edit

namespace Session

variable {d : Draft} {failed : OperationError → Draft → Prop} {s : Session}

theorem ends_change {f : Tree → Except TreeError Tree} {done : Unit → Draft → Prop} :
    Ends (change f) d done failed ↔
      (∀ t, f d.tree = .ok t → done () { d with tree := t }) ∧
      ∀ e, f d.tree = .error e → failed (.tree e) d := by
  simp only [change, ends_bind, ends_get, ends_lift, ends_modify]
  simp only [mapError_eq_ok_iff, mapError_eq_error_iff]
  cases f d.tree with
  | error e => simp
  | ok t => simp

theorem ends_instantiate {key : String} {done : NodeId → Draft → Prop} :
    Ends (s.instantiate key) d done failed ↔
      (∀ f, s.fragment key = .ok f →
        (∀ made ids, f.instantiate s.tokens d.tree d.ids s.registry = (.ok made, ids) →
          done made.root ⟨made.tree, ids⟩) ∧
        ∀ e ids, f.instantiate s.tokens d.tree d.ids s.registry = (.error e, ids) →
          failed (.fragment e) { d with ids }) ∧
      ∀ e, s.fragment key = .error e → failed e d := by
  simp only [instantiate, ends_bind, ends_get, ends_lift, ends_modify, ends_pure]
  refine and_congr_left' (forall_congr' fun f => imp_congr_right fun _ => ?_)
  simp only [mapError_eq_ok_iff, mapError_eq_error_iff]
  rcases f.instantiate s.tokens d.tree d.ids s.registry with ⟨e | made, ids⟩
  · simp
  · simp

theorem ends_set {target value : String} {done : OperationResult → Draft → Prop} :
    Ends (s.set target value) d done failed ↔
      (∀ node, s.selectOne d.tree target = .ok node →
        (∀ v, s.substitute value = .ok v →
          (d.tree.stringValue node = v → done .alreadyApplied d) ∧
          (d.tree.stringValue node ≠ v →
            Ends (change fun t => assign t node v) d (fun _ d => done .applied d) failed)) ∧
        ∀ e, s.substitute value = .error e → failed e d) ∧
      ∀ e, s.selectOne d.tree target = .error e → failed e d := by
  simp only [set, ends_bind, ends_get, ends_lift, ends_ite, ends_pure, ne_eq]

theorem ends_prepare {payload : Payload} {done : NodeId → Draft → Prop} :
    Ends (s.prepare payload) d done failed ↔
      (∀ key, payload = .fragment key → Ends (s.instantiate key) d done failed) ∧
      ∀ value, payload = .text value →
        (∀ v, s.substitute value = .ok v →
          done d.tree.size { d with tree := (d.tree.push (.text v)).1 }) ∧
        ∀ e, s.substitute value = .error e → failed e d := by
  cases payload with
  | fragment key => simp [prepare]
  | text value =>
    simp only [prepare, ends_bind, ends_get, ends_lift, ends_modify, ends_pure]
    simp

theorem ends_insert {target anchor : String} {payload : Payload} {placement : Placement}
    {done : OperationResult → Draft → Prop} :
    Ends (s.insert target anchor payload placement) d done failed ↔
      (∀ nodes, s.select d.tree target = .ok nodes →
        (nodes ≠ [] → done .alreadyApplied d) ∧
        (nodes = [] →
          (∀ a, s.selectElement d.tree anchor = .ok a →
            Ends (s.prepare payload) d (fun node d =>
              Ends (change fun t => place t a node placement) d (fun _ d => done .applied d) failed)
              failed) ∧
          ∀ e, s.selectElement d.tree anchor = .error e → failed e d)) ∧
      ∀ e, s.select d.tree target = .error e → failed e d := by
  simp only [insert, ends_bind, ends_get, ends_lift, ends_ite, ends_pure, Bool.not_eq_true',
    List.isEmpty_eq_false_iff, ne_eq, Decidable.not_not]

theorem ends_remove {target : String} {done : OperationResult → Draft → Prop} :
    Ends (s.remove target) d done failed ↔
      (∀ nodes, s.select d.tree target = .ok nodes →
        (nodes = [] → done .alreadyApplied d) ∧
        (nodes ≠ [] → done .applied { d with tree := nodes.foldl removeNode d.tree })) ∧
      ∀ e, s.select d.tree target = .error e → failed e d := by
  simp only [remove, ends_bind, ends_get, ends_lift, ends_ite, ends_pure, ends_modify,
    List.isEmpty_iff, ne_eq]

theorem ends_ensurePath {target anchor fragment : String} {placement : Placement}
    {done : OperationResult → Draft → Prop} :
    Ends (s.ensurePath target anchor fragment placement) d done failed ↔
      (∀ nodes, s.select d.tree target = .ok nodes →
        (nodes ≠ [] → done .alreadyApplied d) ∧
        (nodes = [] →
          (∀ a, s.selectElement d.tree anchor = .ok a →
            Ends (s.instantiate fragment) d (fun node d =>
              Ends (change fun t => place t a node placement) d (fun _ d =>
                (∀ reached, s.select d.tree target = .ok reached →
                  (reached = [] → failed (.ensureFailed target fragment)
                    { d with tree := d.tree.detach node }) ∧
                  (reached ≠ [] → done .applied d)) ∧
                ∀ e, s.select d.tree target = .error e → failed e d) failed) failed) ∧
          ∀ e, s.selectElement d.tree anchor = .error e → failed e d)) ∧
      ∀ e, s.select d.tree target = .error e → failed e d := by
  simp only [ensurePath, ends_bind, ends_get, ends_lift, ends_ite, ends_pure, ends_modify,
    ends_throw, Bool.not_eq_true', List.isEmpty_eq_false_iff, List.isEmpty_iff, ne_eq, Decidable.not_not]

theorem ends_ensureAttr {target attr value : String} {done : OperationResult → Draft → Prop} :
    Ends (s.ensureAttr target attr value) d done failed ↔
      (∀ id, s.selectElement d.tree target = .ok id →
        (∀ name, s.registry.attribute? attr = some name →
          (∀ v, s.substitute value = .ok v →
            (((d.tree.element? id).bind fun e =>
                e.attribute? name.localName name.namespaceUri).map Attribute.value = some v →
              done .alreadyApplied d) ∧
            (((d.tree.element? id).bind fun e =>
                e.attribute? name.localName name.namespaceUri).map Attribute.value ≠ some v →
              Ends (change fun t => t.setAttribute id name v) d (fun _ d => done .applied d)
                failed)) ∧
          ∀ e, s.substitute value = .error e → failed e d) ∧
        (s.registry.attribute? attr = none → failed (.unknownRef "attributes" attr) d)) ∧
      ∀ e, s.selectElement d.tree target = .error e → failed e d := by
  simp only [ensureAttr, ends_bind, ends_get, ends_lift]
  cases h : s.registry.attribute? attr with
  | none => simp [ends_throw]
  | some name =>
    simp only [ends_bind, ends_get, ends_lift, ends_ite, ends_pure]
    simp

/-- The edit that an operation consists in; `ensurePart` leaves the tree alone. -/
def action? (s : Session) : Operation → Option (Edit OperationResult)
  | .set target value => some (s.set target value)
  | .insert target anchor payload placement => some (s.insert target anchor payload placement)
  | .remove target => some (s.remove target)
  | .ensurePath target anchor fragment placement =>
    some (s.ensurePath target anchor fragment placement)
  | .ensurePart _ _ => none
  | .ensureAttr target attr value => some (s.ensureAttr target attr value)

variable {P : Type} {w left : Workspace P} {operation : Operation}
  {action : Edit OperationResult}

theorem execute_eq_edit [Package P] (h : s.action? operation = some action) :
    s.execute w operation = edit w action := by
  cases operation with
  | ensurePart part fragment => cases h
  | _ =>
    rw [← Option.some.inj h]
    rfl

theorem ensurePart_of_action? (h : s.action? operation = none) :
    ∃ part fragment, operation = .ensurePart part fragment := by
  cases operation with
  | ensurePart part fragment => exact ⟨part, fragment, rfl⟩
  | _ => cases h

/-- What holds where an action ends holds of the workspace that it has edited. -/
theorem edit_ends {done : OperationResult → Draft → Prop} (h : Ends action ⟨w.tree, w.ids⟩ done failed)
    {outcome : Except OperationError OperationResult} (hw : edit w action = (outcome, left)) :
    (∀ result, outcome = .ok result → done result ⟨left.tree, left.ids⟩) ∧
      ∀ e, outcome = .error e → failed e ⟨left.tree, left.ids⟩ := by
  unfold edit at hw
  unfold Ends at h
  rcases hd : action.run.run ⟨w.tree, w.ids⟩ with ⟨e | x, d⟩
  · rw [hd] at h hw
    cases hw
    refine ⟨?_, ?_⟩
    · rintro _ ⟨⟩
    · rintro _ ⟨⟩
      exact h
  · rw [hd] at h hw
    cases hw
    refine ⟨?_, ?_⟩
    · rintro _ ⟨⟩
      exact h
    · rintro _ ⟨⟩

theorem package_of_edit {outcome : Except OperationError OperationResult}
    (h : edit w action = (outcome, left)) : left.package = w.package := by
  unfold edit at h
  rw [← (Prod.mk.inj h).2]

end Session

end PartPatch
