import PartPatch.Proofs.Patch.Rollback

/-!
# What a session carries out

The operations that are carried out when patches are applied one after the other, those of each
patch up to the first that fails. Each is recorded with the package that it finds and the package
that it leaves, which is another one only if the operation is `ensurePart`.
-/

namespace PartPatch.Session

set_option autoImplicit false

/-- An operation that was carried out, with its result. -/
structure Event (P : Type) where
  found : P
  record : OperationRecord
  result : Except PatchError OperationResult
  left : P

/-- The events lead from one package to the other. -/
def Leads {P : Type} (package : P) : List (Event P) → P → Prop
  | [], left => package = left
  | event :: more, left => event.found = package ∧ Leads event.left more left

theorem Leads.append {P : Type} {package between left : P} {events more : List (Event P)}
    (h : Leads package events between) (h' : Leads between more left) :
    Leads package (events ++ more) left := by
  induction events generalizing package with
  | nil => exact h ▸ h'
  | cons event events ih => exact ⟨h.1, ih h.2⟩

variable {P : Type} [Package P] {s : Session} {w : Workspace P}

/-- The operations that a run carries out. -/
def events (s : Session) (w : Workspace P) (index : Nat) : List OperationRecord → List (Event P)
  | [] => []
  | record :: records =>
    match s.applyOperation w index record with
    | (.error e, left) => [⟨w.package, record, .error e, left.package⟩]
    | (.ok result, left) =>
      ⟨w.package, record, .ok result, left.package⟩ :: s.events left (index + 1) records

/-- The operations of the patch that are carried out; none if it is not meant for the registry. -/
def eventsOf (s : Session) (w : Workspace P) (p : Patch) : List (Event P) :=
  match s.versionMismatch? p with
  | some _ => []
  | none => s.events w 0 p.operations

/-- The program ends with this result: no number is left for a relationship. -/
def stops {α : Type} : Except PatchError α → Bool
  | .error e => e.cause = .part .overflow
  | .ok _ => false

/-- Applies patches one after the other, whether they fail or not, unless the program ends. -/
def applyEach (s : Session) (w : Workspace P) :
    List Patch → List (Except PatchError PatchReport) × Workspace P
  | [] => ([], w)
  | p :: ps =>
    if stops (s.apply w p).1 then ([(s.apply w p).1], (s.apply w p).2)
    else
      ((s.apply w p).1 :: (s.applyEach (s.apply w p).2 ps).1, (s.applyEach (s.apply w p).2 ps).2)

/-- The operations that are carried out of each of the patches. -/
def eventsEach (s : Session) (w : Workspace P) : List Patch → List (List (Event P))
  | [] => []
  | p :: ps =>
    s.eventsOf w p :: if stops (s.apply w p).1 then [] else s.eventsEach (s.apply w p).2 ps

theorem stops_mapError {α : Type} {x : Except OperationError α} {index : Nat}
    {kind : OperationKind} {keys : List String} :
    stops (x.mapError (PatchError.mk index kind keys)) = true ↔ x = .error (.part .overflow) := by
  cases x with
  | error e => simp [stops, Except.mapError]
  | ok a => simp [stops, Except.mapError]

/-! ## One operation -/

/-- What an operation makes of the package. -/
def packageAfter (s : Session) (package : P) : Operation → P
  | .ensurePart part fragment => (s.ensurePart package part fragment).2
  | _ => package

theorem isMatchFailure_of_ensurePart {package left : P} {part fragment : String}
    {e : OperationError} (h : s.ensurePart package part fragment = (.error e, left)) :
    e.isMatchFailure = false := by
  unfold ensurePart at h
  split at h
  · cases h
    rfl
  · split at h
    · cases h
    · split at h
      · next he =>
        cases h
        unfold Session.fragment at he
        split at he
        · cases he
        · cases he
          rfl
      · split at h
        · cases h
          rfl
        · split at h
          · cases h
          · cases h
            rfl

/-- `ensurePart` is never skipped, and acts on nothing but the package. -/
theorem applyOperation_ensurePart (w : Workspace P) (index : Nat) {record : OperationRecord}
    {part fragment : String} (h : record.operation = .ensurePart part fragment) :
    s.applyOperation w index record =
      ((s.ensurePart w.package part fragment).1.mapError
          (PatchError.mk index .ensurePart [part, fragment]),
        { w with package := (s.ensurePart w.package part fragment).2 }) := by
  rcases hpart : s.ensurePart w.package part fragment with ⟨e | result, left⟩
  · have hmatch := isMatchFailure_of_ensurePart hpart
    simp [applyOperation, execute, h, hpart, hmatch, rollback, Operation.kind, Operation.keys,
      Except.mapError]
  · simp [applyOperation, execute, h, hpart, Except.mapError]

theorem package_applyOperation (w : Workspace P) (index : Nat) (record : OperationRecord) :
    (s.applyOperation w index record).2.package = s.packageAfter w.package record.operation := by
  cases ha : s.action? record.operation with
  | none =>
    obtain ⟨part, fragment, hoperation⟩ := ensurePart_of_action? ha
    rw [applyOperation_ensurePart w index hoperation, hoperation]
    rfl
  | some action =>
    have hafter : s.packageAfter w.package record.operation = w.package := by
      revert ha
      cases record.operation with
      | ensurePart part fragment => exact fun ha => nomatch ha
      | _ => exact fun _ => rfl
    rcases hedit : s.execute w record.operation with ⟨e | result, left⟩
    · have hleft : left.package = w.package := by
        rw [execute_eq_edit ha] at hedit
        exact package_of_edit hedit
      rw [hafter, ← hleft, applyOperation, hedit]
      dsimp only
      split
      · rfl
      · rfl
    · have hleft : left.package = w.package := by
        rw [execute_eq_edit ha] at hedit
        exact package_of_edit hedit
      rw [hafter, ← hleft, applyOperation, hedit]

/-! ## Events in turn -/

/-- What becomes of the package, if it acts on it, is what an event tells. -/
def Event.IsFaithful (s : Session) (event : Event P) : Prop :=
  event.left = s.packageAfter event.found event.record.operation ∧
    ∀ part fragment, event.record.operation = .ensurePart part fragment →
      ∃ index, event.result = (s.ensurePart event.found part fragment).1.mapError
        (PatchError.mk index .ensurePart [part, fragment])

theorem events_cons (s : Session) (w : Workspace P) (index : Nat) (record : OperationRecord)
    (records : List OperationRecord) : s.events w index (record :: records) =
      ⟨w.package, record, (s.applyOperation w index record).1,
          (s.applyOperation w index record).2.package⟩ ::
        match (s.applyOperation w index record).1 with
        | .error _ => []
        | .ok _ => s.events (s.applyOperation w index record).2 (index + 1) records := by
  rw [events]
  rcases s.applyOperation w index record with ⟨e | result, left⟩
  · rfl
  · rfl

theorem events_ensurePart {result : OperationResult} {part fragment : String} {optional : Bool}
    (h : (s.ensurePart w.package part fragment).1 = .ok result) (index : Nat)
    (records : List OperationRecord) :
    s.events w index (⟨.ensurePart part fragment, optional⟩ :: records) =
      ⟨w.package, ⟨.ensurePart part fragment, optional⟩, .ok result,
          (s.ensurePart w.package part fragment).2⟩ ::
        s.events { w with package := (s.ensurePart w.package part fragment).2 } (index + 1)
          records := by
  have happly : s.applyOperation w index ⟨.ensurePart part fragment, optional⟩ = _ :=
    applyOperation_ensurePart w index rfl
  rw [h] at happly
  rw [events_cons, happly]
  rfl

theorem leads_events (s : Session) (w : Workspace P) (index : Nat)
    (records : List OperationRecord) :
    Leads w.package (s.events w index records) (s.run w index records).2.package := by
  induction records generalizing w index with
  | nil => rfl
  | cons record records ih =>
    rw [events, run]
    rcases s.applyOperation w index record with ⟨e | result, left⟩
    · exact ⟨rfl, rfl⟩
    · exact ⟨rfl, ih left (index + 1)⟩

theorem leads_eventsOf (s : Session) (w : Workspace P) (p : Patch) :
    Leads w.package (s.eventsOf w p) (s.apply w p).2.package := by
  unfold eventsOf apply
  cases s.versionMismatch? p with
  | some reason => rfl
  | none => exact leads_events s w 0 p.operations

theorem leads_eventsEach (s : Session) (w : Workspace P) (ps : List Patch) :
    Leads w.package (s.eventsEach w ps).flatten (s.applyEach w ps).2.package := by
  induction ps generalizing w with
  | nil => rfl
  | cons p ps ih =>
    rw [eventsEach, applyEach, List.flatten_cons]
    split
    · exact (leads_eventsOf s w p).append rfl
    · exact (leads_eventsOf s w p).append (ih (s.apply w p).2)

theorem eventsEach_singleton (s : Session) (w : Workspace P) (p : Patch) :
    s.eventsEach w [p] = [s.eventsOf w p] := by
  rw [eventsEach, eventsEach]
  split
  · rfl
  · rfl

theorem isFaithful_of_mem_events {index : Nat} {records : List OperationRecord} {event : Event P}
    (h : event ∈ s.events w index records) : event.IsFaithful s := by
  induction records generalizing w index with
  | nil => cases h
  | cons record records ih =>
    rw [events_cons] at h
    rcases List.mem_cons.1 h with rfl | h
    · refine ⟨package_applyOperation w index record, ?_⟩
      intro part fragment hoperation
      exact ⟨index, congrArg Prod.fst (applyOperation_ensurePart w index hoperation)⟩
    · split at h
      · cases h
      · exact ih h

theorem isFaithful_of_mem_eventsEach {ps : List Patch} {event : Event P}
    (h : event ∈ (s.eventsEach w ps).flatten) : event.IsFaithful s := by
  induction ps generalizing w with
  | nil => cases h
  | cons p ps ih =>
    rw [eventsEach, List.flatten_cons, List.mem_append] at h
    rcases h with h | h
    · unfold eventsOf at h
      split at h
      · cases h
      · exact isFaithful_of_mem_events h
    · split at h
      · cases h
      · exact ih h

/-- A run fails as its last operation does. -/
theorem run_of_mem_events {index : Nat} {records : List OperationRecord} {event : Event P}
    {e : PatchError} (h : event ∈ s.events w index records) (he : event.result = .error e) :
    (s.run w index records).1 = .error e := by
  induction records generalizing w index with
  | nil => cases h
  | cons record records ih =>
    rw [events] at h
    rw [run]
    rcases happly : s.applyOperation w index record with ⟨e' | result, left⟩
    · rw [happly] at h
      cases List.mem_singleton.1 h
      cases he
      rfl
    · rw [happly] at h
      rcases List.mem_cons.1 h with rfl | h
      · cases he
      · exact map_eq_error_iff.2 (ih h)

theorem apply_of_mem_eventsOf {p : Patch} {event : Event P} {e : PatchError}
    (h : event ∈ s.eventsOf w p) (he : event.result = .error e) : (s.apply w p).1 = .error e := by
  unfold eventsOf at h
  unfold apply
  cases hversion : s.versionMismatch? p with
  | some reason =>
    rw [hversion] at h
    cases h
  | none =>
    rw [hversion] at h
    exact map_eq_error_iff.2 (run_of_mem_events h he)

/-- What every operation keeps of the package, the session keeps. -/
theorem keeps_of_step {I : P → Prop} (step : ∀ package operation, I package →
    I (s.packageAfter package operation)) (w : Workspace P) (ps : List Patch) (h : I w.package) :
    I (s.applyEach w ps).2.package := by
  have hchain : ∀ (events : List (Event P)) (package left : P),
      (∀ event ∈ events, event.IsFaithful s) → Leads package events left → I package → I left := by
    intro events
    induction events with
    | nil => exact fun package left _ hleads hpackage => hleads ▸ hpackage
    | cons event events ih =>
      intro package left hfaithful hleads hpackage
      obtain ⟨hfound, hrest⟩ := hleads
      apply ih event.left left (fun e he => hfaithful e (List.mem_cons_of_mem event he)) hrest
      rw [(hfaithful event List.mem_cons_self).1, hfound]
      exact step package event.record.operation hpackage
  exact hchain _ _ _ (fun event => isFaithful_of_mem_eventsEach) (leads_eventsEach s w ps) h

end PartPatch.Session
