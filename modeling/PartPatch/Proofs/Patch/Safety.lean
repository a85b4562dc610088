import PartPatch.Package.Memory
import PartPatch.Patch.Validate
import PartPatch.Proofs.Fragment.Instance
import PartPatch.Proofs.Package.Relationship
import PartPatch.Proofs.Patch.Change
import PartPatch.Proofs.Patch.Edit

/-!
# Failures that remain possible

An operation that suits a checked registry keeps a well-formed tree well formed and fails only in
the ways that no check of the registry or the patch could foresee: a target is missing or ambiguous,
a token has no value, numbers have run out, a part has no source, or a fragment would be a second
root.
-/

namespace PartPatch.Session

set_option autoImplicit false

open Edit
open Patch (registryFaults)

variable {s : Session} {t : Tree} {d : Draft} {e : OperationError} {operation : Operation}

/-- The operation places a fragment beside the root element. -/
def DoublesRoot (s : Session) (t : Tree) (operation : Operation) : Prop :=
  ∃ target anchor fragment placement root,
    (operation = .insert target anchor (.fragment fragment) placement ∨
      operation = .ensurePath target anchor fragment placement) ∧
    (placement = .before ∨ placement = .after) ∧
    t.root? = some root ∧ s.selectElement t anchor = .ok root

/-- The errors with which an operation may fail on the tree. -/
def Permitted (s : Session) (t : Tree) (operation : Operation) : OperationError → Prop
  | .unknownRef _ _ | .attributeTarget _ | .selection _ => False
  | .part (.alreadyExists _) => False
  | .fragment (.unknownSpace _ _) | .fragment (.tree _) => False
  | .tree e => e = .multipleRoots ∧ s.DoublesRoot t operation
  | .binding e => s.Unsupplied e
  | _ => True

theorem permitted_of_isMatchFailure (h : e.isMatchFailure = true) : s.Permitted t operation e := by
  cases e with
  | targetNotFound key => trivial
  | ambiguousTarget key count => trivial
  | _ => cases h

theorem permitted_of_refused (sound : s.registry.Sound) {key : String} {f : Fragment}
    (hf : s.registry.fragment? key = some f) {e : Fragment.Error}
    (h : Fragment.Refused f s.registry e) : s.Permitted t operation (.fragment e) := by
  cases h with
  | token e => trivial
  | exhausted e => trivial
  | space i mem none =>
    have := sound.spaces key f hf i mem
    rw [none] at this
    cases this

theorem permitted_of_substitute {value : String} (h : s.substitute value = .error e) :
    s.Permitted t operation e := by
  obtain ⟨_, _, rfl⟩ := mapError_eq_error_iff.1 h
  trivial

/-! ## Selecting -/

theorem path?_of_pathFaults {r : Registry} {field : Patch.Field} {key : String}
    {needsElement : Bool} (h : Patch.pathFaults r field key needsElement = []) :
    ∃ p, r.path? key = some p ∧ (needsElement = true → p.path.selectsAttribute = false) := by
  unfold Patch.pathFaults at h
  split at h
  · cases h
  · next p hp =>
    refine ⟨p, hp, ?_⟩
    intro hneeds
    split at h
    · cases h
    · next hn => simpa [hneeds] using hn

theorem permitted_of_select (sound : s.registry.Sound) {u : Tree} (wf : u.WellFormed)
    {field : Patch.Field} {key : String} {needsElement : Bool}
    (faults : Patch.pathFaults s.registry field key needsElement = [])
    (h : s.select u key = .error e) : s.Permitted t operation e := by
  obtain ⟨p, hp, _⟩ := path?_of_pathFaults faults
  rcases select_cases sound wf hp with ⟨nodes, hnodes, _⟩ | ⟨b, hb, unsupplied⟩
  · cases h.symm.trans hnodes
  · cases h.symm.trans hb
    exact unsupplied

theorem permitted_of_selectOne (sound : s.registry.Sound) (wf : t.WellFormed)
    {field : Patch.Field} {key : String} {needsElement : Bool}
    (faults : Patch.pathFaults s.registry field key needsElement = [])
    (h : s.selectOne t key = .error e) : s.Permitted t operation e := by
  obtain ⟨p, hp, _⟩ := path?_of_pathFaults faults
  rcases selectOne_cases sound wf hp with ⟨n, hn, _⟩ | ⟨e', he, cause⟩
  · cases h.symm.trans hn
  · cases h.symm.trans he
    rcases cause with hmatch | ⟨b, rfl, unsupplied⟩
    · exact permitted_of_isMatchFailure hmatch
    · exact unsupplied

theorem permitted_of_selectElement (sound : s.registry.Sound) (wf : t.WellFormed)
    {field : Patch.Field} {key : String}
    (faults : Patch.pathFaults s.registry field key true = [])
    (h : s.selectElement t key = .error e) : s.Permitted t operation e := by
  obtain ⟨p, hp, hattribute⟩ := path?_of_pathFaults faults
  rcases selectElement_cases sound wf hp with ⟨x, hx, _⟩ | ⟨e', he, cause⟩
  · cases h.symm.trans hx
  · cases h.symm.trans he
    rcases cause with hattribute' | hmatch | ⟨b, rfl, unsupplied⟩
    · rw [hattribute rfl] at hattribute'
      cases hattribute'
    · exact permitted_of_isMatchFailure hmatch
    · exact unsupplied

theorem in_of_selectOne (sound : s.registry.Sound) (wf : t.WellFormed) {key : String}
    {n : NodeRef} (h : s.selectOne t key = .ok n) : n.In t := by
  cases hp : s.registry.path? key with
  | none =>
    rw [selectOne, select_eq_error_of_none hp] at h
    cases h
  | some p =>
    rcases selectOne_cases sound wf hp with ⟨n', hn, found⟩ | ⟨e, he, _⟩
    · cases h.symm.trans hn
      exact found.present _ List.mem_cons_self
    · cases h.symm.trans he

theorem element_of_selectElement (sound : s.registry.Sound) (wf : t.WellFormed) {key : String}
    {x : NodeId} (h : s.selectElement t key = .ok x) : t.isElement x = true ∧ t.Attached x := by
  cases hp : s.registry.path? key with
  | none =>
    rw [selectElement, selectOne, select_eq_error_of_none hp] at h
    cases h
  | some p =>
    rcases selectElement_cases sound wf hp with ⟨y, hy, found⟩ | ⟨e, he, _⟩
    · cases h.symm.trans hy
      exact found
    · cases h.symm.trans he

/-! ## Preparing and placing -/

theorem fragment?_of_fragmentFaults {r : Registry} {key : String}
    (h : Patch.fragmentFaults r key = []) : ∃ f, r.fragment? key = some f := by
  unfold Patch.fragmentFaults at h
  split at h
  · next hf => exact Option.isSome_iff_exists.1 hf
  · cases h

theorem instantiate_ends (sound : s.registry.Sound) (wf : d.tree.WellFormed) (key : String)
    (operation : Operation) :
    Ends (s.instantiate key) d (fun node d' => d.tree.Planted d'.tree node)
      fun e _ => Patch.fragmentFaults s.registry key = [] → s.Permitted d.tree operation e := by
  rw [ends_instantiate]
  refine ⟨?_, ?_⟩
  · intro f hf
    have hkey : s.registry.fragment? key = some f := by
      unfold fragment at hf
      split at hf
      · cases hf
        assumption
      · cases hf
    rcases Fragment.instantiate_cases wf f s.tokens d.ids s.registry with
      ⟨made, hmade, planted, _⟩ | ⟨e, he, refused⟩
    · refine ⟨?_, ?_⟩
      · intro made' ids h
        rw [h] at hmade
        cases hmade
        exact planted
      · intro e ids h
        rw [h] at hmade
        cases hmade
    · refine ⟨?_, ?_⟩
      · intro made ids h
        rw [h] at he
        cases he
      · intro e' ids h _
        rw [h] at he
        cases he
        exact permitted_of_refused sound hkey refused
  · intro e he hfaults
    obtain ⟨f, hf⟩ := fragment?_of_fragmentFaults hfaults
    rw [fragment, hf] at he
    cases he

theorem prepare_ends (sound : s.registry.Sound) (wf : d.tree.WellFormed) (payload : Payload)
    (operation : Operation) :
    Ends (s.prepare payload) d
      (fun node d' => d.tree.Planted d'.tree node ∧
        (d'.tree.isElement node = true → ∃ key, payload = .fragment key))
      fun e _ => (∀ key, payload = .fragment key → Patch.fragmentFaults s.registry key = []) →
        s.Permitted d.tree operation e := by
  rw [ends_prepare]
  refine ⟨?_, ?_⟩
  · rintro key rfl
    refine (instantiate_ends sound wf key operation).mono ?_ ?_
    · intro node d' planted
      exact ⟨planted, fun _ => ⟨key, rfl⟩⟩
    · intro e d' permitted faults
      exact permitted (faults key rfl)
  · rintro value rfl
    refine ⟨?_, ?_⟩
    · intro v _
      refine ⟨Tree.planted_push wf (by simp), ?_⟩
      intro h
      obtain ⟨e, he⟩ := Tree.isElement_iff.1 h
      rw [Tree.kind?_push, if_pos rfl] at he
      cases he
    · intro e he _
      exact permitted_of_substitute he

/-- Placing a new node beside or below a selected element. -/
theorem place_ends (sound : s.registry.Sound) (wf : t.WellFormed) {anchor : String} {a : NodeId}
    (ha : s.selectElement t anchor = .ok a) {node : NodeId} (planted : t.Planted d.tree node)
    (placement : Placement)
    (doubles : d.tree.isElement node = true → (placement = .before ∨ placement = .after) →
      t.root? = some a → s.DoublesRoot t operation) :
    Ends (change fun t => place t a node placement) d (fun _ d' => d'.tree.WellFormed)
      fun e _ => s.Permitted t operation e := by
  obtain ⟨helement, hattached⟩ := element_of_selectElement sound wf ha
  rw [ends_change]
  rcases place_cases wf planted helement hattached placement with
    ⟨hplacement, hroot, hnode, heq⟩ | ⟨v, heq, wfv⟩
  · refine ⟨?_, ?_⟩
    · intro v hv
      cases heq.symm.trans hv
    · intro e he
      cases heq.symm.trans he
      exact ⟨rfl, doubles hnode hplacement hroot⟩
  · refine ⟨?_, ?_⟩
    · intro v' hv
      cases heq.symm.trans hv
      exact wfv
    · intro e he
      cases heq.symm.trans he

/-! ## The operations -/

section Operations

variable (sound : s.registry.Sound) (wf : d.tree.WellFormed)
include sound wf

theorem set_safe (target value : String) :
    Ends (s.set target value) d (fun _ d' => d'.tree.WellFormed) fun e _ =>
      registryFaults s.registry (.set target value) = [] →
        s.Permitted d.tree (.set target value) e := by
  rw [ends_set]
  refine ⟨?_, ?_⟩
  · intro n hn
    refine ⟨?_, ?_⟩
    · intro v _
      refine ⟨fun _ => wf, fun _ => ?_⟩
      rw [ends_change]
      refine ⟨?_, ?_⟩
      · intro u hu
        exact wellFormed_of_assign wf hu
      · intro e he
        obtain ⟨u, hu⟩ := assign_eq_ok wf (in_of_selectOne sound wf hn) v
        cases he.symm.trans hu
    · intro e he _
      exact permitted_of_substitute he
  · intro e he faults
    exact permitted_of_selectOne sound wf faults he

theorem insert_safe (target anchor : String) (payload : Payload) (placement : Placement) :
    Ends (s.insert target anchor payload placement) d (fun _ d' => d'.tree.WellFormed) fun e _ =>
      registryFaults s.registry (.insert target anchor payload placement) = [] →
        s.Permitted d.tree (.insert target anchor payload placement) e := by
  have split : registryFaults s.registry (.insert target anchor payload placement) = [] →
      Patch.pathFaults s.registry .targetRef target false = [] ∧
      Patch.pathFaults s.registry .anchorRef anchor true = [] ∧
      ∀ key, payload = .fragment key → Patch.fragmentFaults s.registry key = [] := by
    intro faults
    simp only [registryFaults, List.append_eq_nil_iff] at faults
    refine ⟨faults.1.1, faults.1.2, ?_⟩
    rintro key rfl
    exact faults.2
  rw [ends_insert]
  refine ⟨?_, ?_⟩
  · intro nodes _
    refine ⟨fun _ => wf, fun _ => ⟨?_, ?_⟩⟩
    · intro a ha
      refine (prepare_ends sound wf payload (.insert target anchor payload placement)).mono ?_ ?_
      · rintro node d' ⟨planted, hfragment⟩
        apply (place_ends sound wf ha planted placement _).mono
        · intro _ d'' wf''
          exact wf''
        · intro e _ permitted _
          exact permitted
        · intro hnode hplacement hroot
          obtain ⟨key, rfl⟩ := hfragment hnode
          exact ⟨target, anchor, key, placement, a, Or.inl rfl, hplacement, hroot, ha⟩
      · intro e _ permitted faults
        exact permitted (split faults).2.2
    · intro e he faults
      exact permitted_of_selectElement sound wf (split faults).2.1 he
  · intro e he faults
    exact permitted_of_select sound wf (split faults).1 he

theorem remove_safe (target : String) :
    Ends (s.remove target) d (fun _ d' => d'.tree.WellFormed) fun e _ =>
      registryFaults s.registry (.remove target) = [] →
        s.Permitted d.tree (.remove target) e := by
  rw [ends_remove]
  refine ⟨?_, ?_⟩
  · intro nodes _
    exact ⟨fun _ => wf, fun _ => wellFormed_removeNodes wf nodes⟩
  · intro e he faults
    exact permitted_of_select sound wf faults he

theorem ensurePath_safe (target anchor fragment : String) (placement : Placement) :
    Ends (s.ensurePath target anchor fragment placement) d (fun _ d' => d'.tree.WellFormed)
      fun e _ => registryFaults s.registry (.ensurePath target anchor fragment placement) = [] →
        s.Permitted d.tree (.ensurePath target anchor fragment placement) e := by
  have split : registryFaults s.registry (.ensurePath target anchor fragment placement) = [] →
      Patch.pathFaults s.registry .targetRef target false = [] ∧
      Patch.pathFaults s.registry .anchorRef anchor true = [] ∧
      Patch.fragmentFaults s.registry fragment = [] := by
    intro faults
    simp only [registryFaults, List.append_eq_nil_iff] at faults
    exact ⟨faults.1.1, faults.1.2, faults.2⟩
  rw [ends_ensurePath]
  refine ⟨?_, ?_⟩
  · intro nodes _
    refine ⟨fun _ => wf, fun _ => ⟨?_, ?_⟩⟩
    · intro a ha
      refine (instantiate_ends sound wf fragment
        (.ensurePath target anchor fragment placement)).mono ?_ ?_
      · intro node d' planted
        apply (place_ends sound wf ha planted placement _).mono
        · intro _ d'' wf''
          refine ⟨?_, ?_⟩
          · intro reached _
            exact ⟨fun _ _ => trivial, fun _ => wf''⟩
          · intro e he faults
            exact permitted_of_select sound wf'' (split faults).1 he
        · intro e _ permitted _
          exact permitted
        · intro _ hplacement hroot
          exact ⟨target, anchor, fragment, placement, a, Or.inr rfl, hplacement, hroot, ha⟩
      · intro e _ permitted faults
        exact permitted (split faults).2.2
    · intro e he faults
      exact permitted_of_selectElement sound wf (split faults).2.1 he
  · intro e he faults
    exact permitted_of_select sound wf (split faults).1 he

theorem ensureAttr_safe (target attr value : String) :
    Ends (s.ensureAttr target attr value) d (fun _ d' => d'.tree.WellFormed) fun e _ =>
      registryFaults s.registry (.ensureAttr target attr value) = [] →
        s.Permitted d.tree (.ensureAttr target attr value) e := by
  rw [ends_ensureAttr]
  refine ⟨?_, ?_⟩
  · intro x hx
    have hx := (element_of_selectElement sound wf hx).1
    refine ⟨?_, ?_⟩
    · intro name _
      refine ⟨?_, ?_⟩
      · intro v _
        refine ⟨fun _ => wf, fun _ => ?_⟩
        rw [ends_change]
        rcases Tree.setAttribute_cases wf x name v with ⟨hx', _⟩ | ⟨u, hu, wfu⟩
        · cases hx.symm.trans hx'
        · refine ⟨?_, ?_⟩
          · intro u' hu'
            cases hu.symm.trans hu'
            exact wfu
          · intro e he
            cases hu.symm.trans he
      · intro e he _
        exact permitted_of_substitute he
    · intro hnone faults
      have hattribute := (List.append_eq_nil_iff.1 faults).2
      rw [Patch.attributeFaults, hnone] at hattribute
      cases hattribute
  · intro e he faults
    exact permitted_of_selectElement sound wf (List.append_eq_nil_iff.1 faults).1 he

theorem action_safe {action : Edit OperationResult} (h : s.action? operation = some action) :
    Ends action d (fun _ d' => d'.tree.WellFormed) fun e _ =>
      registryFaults s.registry operation = [] → s.Permitted d.tree operation e := by
  cases operation with
  | set target value =>
    rw [← Option.some.inj h]
    exact set_safe sound wf target value
  | insert target anchor payload placement =>
    rw [← Option.some.inj h]
    exact insert_safe sound wf target anchor payload placement
  | remove target =>
    rw [← Option.some.inj h]
    exact remove_safe sound wf target
  | ensurePath target anchor fragment placement =>
    rw [← Option.some.inj h]
    exact ensurePath_safe sound wf target anchor fragment placement
  | ensurePart part fragment => cases h
  | ensureAttr target attr value =>
    rw [← Option.some.inj h]
    exact ensureAttr_safe sound wf target attr value

end Operations

/-- A part that is not there yet is not there when it is created, either. -/
theorem ensurePart_safe (sound : s.registry.Sound) (t : Tree) {package left : MemoryPackage}
    {part fragment : String} (faults : registryFaults s.registry (.ensurePart part fragment) = [])
    (h : s.ensurePart package part fragment = (.error e, left)) :
    s.Permitted t (.ensurePart part fragment) e := by
  obtain ⟨hpart, hfragment⟩ := List.append_eq_nil_iff.1 faults
  obtain ⟨f, hf⟩ := fragment?_of_fragmentFaults hfragment
  unfold ensurePart at h
  split at h
  · next hnone =>
    rw [Patch.partFaults, hnone] at hpart
    cases hpart
  · next spec hspec =>
    split at h
    · cases h
    · next habsent =>
      simp only [Session.fragment, hf] at h
      rcases Fragment.instantiateDocument_cases f s.tokens s.registry with
        ⟨body, hbody, _⟩ | ⟨e', he, refused⟩
      · simp only [hbody] at h
        split at h
        · cases h
        · next e' _ hcreate =>
          cases h
          have hhas : package.hasPart spec.name = false := Bool.eq_false_iff.2 habsent
          simp only [Package.createPart, MemoryPackage.createPart, PartSpec.obstacle?, hhas] at hcreate
          split at hcreate
          · next obstacle ho =>
            cases hcreate
            simp only [Bool.false_eq_true, if_false] at ho
            split at ho
            · cases ho
            · split at ho
              · cases ho
              · cases ho
                trivial
          · rcases package.metadata.register_cases spec with
              ⟨_, hregister⟩ | ⟨_, metadata, id, hregister, _⟩
            · rw [hregister] at hcreate
              cases hcreate
              trivial
            · rw [hregister] at hcreate
              cases hcreate
      · simp only [he] at h
        cases h
        exact permitted_of_refused sound hf refused

end PartPatch.Session
