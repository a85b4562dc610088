import Mathlib.Data.List.Forall2
import PartPatch.Patch.Validate
import PartPatch.Proofs.Except

/-!
# Which patch documents are valid

An operation is formed if it has the fields that its kind asks for, has no others, and refers to
registry entries by their keys. The faults of a document are those of its operations that are not
formed. What becomes of a valid document says the same as the document, with the blanks around its
references taken away.
-/

namespace PartPatch.Patch

set_option autoImplicit false

/-- The fields that an operation of the kind has to have. -/
def requiredFields : OperationKind → List Field
  | .set => [.targetRef, .value]
  | .insert => [.targetRef, .anchorRef, .placement]
  | .remove => [.targetRef]
  | .ensurePath => [.targetRef, .anchorRef, .fragmentRef, .placement]
  | .ensurePart => [.partRef, .fragmentRef]
  | .ensureAttr => [.targetRef, .attribute, .value]

/-- The fields of which an operation of the kind has to have exactly one. -/
def payloadFields : OperationKind → List Field
  | .insert => [.fragmentRef, .value]
  | _ => []

/-- Whether the field refers to an entry of the registry. -/
def Field.isReference : Field → Bool
  | .value | .placement => false
  | _ => true

namespace OperationDefinition

/-- What the field refers to, it refers to by a key. -/
def NamesKey (d : OperationDefinition) (field : Field) : Prop :=
  field.isReference = true → ∀ text, d.text? field = some text →
    Symbol.isKey (Text.trimmed text) = true

/-- The operation has the fields that its kind asks for and no others. -/
structure Formed (d : OperationDefinition) : Prop where
  required : ∀ field ∈ requiredFields d.kind, d.has field = true
  payload : payloadFields d.kind ≠ [] →
    ∃! field, field ∈ payloadFields d.kind ∧ d.has field = true
  others : ∀ field, d.has field = true →
    field ∈ requiredFields d.kind ∨ field ∈ payloadFields d.kind
  keys : ∀ field, d.NamesKey field

/-- The field is there and can be used. -/
def Fills (d : OperationDefinition) (field : Field) : Prop :=
  d.has field = true ∧ d.NamesKey field

variable {d : OperationDefinition} {field : Field} {key : String}

theorem has_iff : d.has field = true ↔ ∃ text, d.text? field = some text :=
  Option.isSome_iff_exists

/-! ## Single fields -/

theorem reference_eq_ok_iff : d.reference field = .ok key ↔
    ∃ text, d.text? field = some text ∧ Symbol.isKey (Text.trimmed text) = true ∧
      key = Text.trimmed text := by
  have blank : Symbol.isKey "" = false := by decide
  unfold reference
  cases d.text? field with
  | none => simp
  | some text =>
    by_cases hblank : Text.trimmed text = ""
    · simp [hblank, blank]
    · by_cases hkey : Symbol.isKey (Text.trimmed text) = true
      · simp only [hblank, hkey, if_false, if_true, Except.ok.injEq, Option.some.injEq,
          exists_eq_left', true_and]
        exact eq_comm
      · simp [hblank, hkey]

theorem faultOf_eq_nil_iff {α : Type} {x : Except Fault α} : faultOf x = [] ↔ ∃ a, x = .ok a := by
  cases x with
  | error fault => simp [faultOf]
  | ok a => simp [faultOf]

theorem faultOf_reference (field : Field) (h : field.isReference = true) :
    faultOf (d.reference field) = [] ↔ d.Fills field := by
  simp only [faultOf_eq_nil_iff, reference_eq_ok_iff, Fills, NamesKey, has_iff, h, true_imp_iff]
  constructor
  · rintro ⟨_, text, ht, hkey, _⟩
    refine ⟨⟨text, ht⟩, ?_⟩
    intro text' ht'
    cases ht.symm.trans ht'
    exact hkey
  · rintro ⟨⟨text, ht⟩, hkey⟩
    exact ⟨_, text, ht, hkey text ht, rfl⟩

theorem fills_of_not_reference (h : field.isReference = false) :
    d.Fills field ↔ d.has field = true := by
  simp [Fills, NamesKey, h]

theorem faultOf_requiredValue : faultOf d.requiredValue = [] ↔ d.Fills .value := by
  rw [fills_of_not_reference rfl, requiredValue, has, text?]
  cases d.value with
  | none => simp [faultOf]
  | some value => simp [faultOf]

theorem faultOf_requiredPlacement : faultOf d.requiredPlacement = [] ↔ d.Fills .placement := by
  rw [fills_of_not_reference rfl, requiredPlacement, has, text?]
  cases d.placement with
  | none => simp [faultOf]
  | some placement => simp [faultOf]

theorem faultOf_payload : faultOf d.payload = [] ↔
    (∃! field, field ∈ [Field.fragmentRef, .value] ∧ d.has field = true) ∧
      d.NamesKey .fragmentRef := by
  have hfragment : d.has .fragmentRef = d.fragmentRef.isSome := rfl
  have hvalue : d.has .value = d.value.isSome := rfl
  unfold payload
  cases hf : d.fragmentRef with
  | none =>
    have names : d.NamesKey .fragmentRef := by
      intro _ text ht
      cases hf.symm.trans ht
    cases hv : d.value with
    | none =>
      simp only [faultOf]
      refine iff_of_false (by simp) ?_
      rintro ⟨⟨field, ⟨hmem, hhas⟩, _⟩, _⟩
      rcases List.mem_pair.1 hmem with rfl | rfl
      · rw [hfragment, hf] at hhas
        cases hhas
      · rw [hvalue, hv] at hhas
        cases hhas
    | some value =>
      simp only [faultOf, true_iff]
      refine ⟨⟨.value, ⟨by simp, by rw [hvalue, hv]; rfl⟩, ?_⟩, names⟩
      rintro field ⟨hmem, hhas⟩
      rcases List.mem_pair.1 hmem with rfl | rfl
      · rw [hfragment, hf] at hhas
        cases hhas
      · rfl
  | some text =>
    cases hv : d.value with
    | none =>
      have single : ∃! field, field ∈ [Field.fragmentRef, .value] ∧ d.has field = true := by
        refine ⟨.fragmentRef, ⟨by simp, by rw [hfragment, hf]; rfl⟩, ?_⟩
        rintro field ⟨hmem, hhas⟩
        rcases List.mem_pair.1 hmem with rfl | rfl
        · rfl
        · rw [hvalue, hv] at hhas
          cases hhas
      have mapped : faultOf ((d.reference .fragmentRef).map Payload.fragment) =
          faultOf (d.reference .fragmentRef) := by
        cases d.reference .fragmentRef <;> rfl
      have filled : d.has .fragmentRef = true := by rw [hfragment, hf]; rfl
      rw [mapped, faultOf_reference .fragmentRef rfl, Fills, and_iff_right filled,
        and_iff_right single]
    | some value =>
      simp only [faultOf]
      refine iff_of_false (by simp) ?_
      rintro ⟨⟨field, _, unique⟩, _⟩
      have first := unique .fragmentRef ⟨by simp, by rw [hfragment, hf]; rfl⟩
      have second := unique .value ⟨by simp, by rw [hvalue, hv]; rfl⟩
      cases first.trans second.symm

/-! ## All faults of an operation -/

theorem requiredFaults_eq_nil_iff : d.requiredFaults = [] ↔
    (∀ field ∈ requiredFields d.kind, d.Fills field) ∧
      (payloadFields d.kind ≠ [] →
        (∃! field, field ∈ payloadFields d.kind ∧ d.has field = true) ∧
          d.NamesKey .fragmentRef) := by
  have target := faultOf_reference (d := d) .targetRef rfl
  have anchor := faultOf_reference (d := d) .anchorRef rfl
  have fragment := faultOf_reference (d := d) .fragmentRef rfl
  have part := faultOf_reference (d := d) .partRef rfl
  have attr := faultOf_reference (d := d) .attribute rfl
  unfold requiredFaults
  cases d.kind <;>
    simp [requiredFields, payloadFields, target, anchor, fragment, part, attr,
      faultOf_requiredValue, faultOf_requiredPlacement, faultOf_payload, and_assoc]

theorem uses_iff (kind : OperationKind) (field : Field) :
    uses kind field = true ↔ field ∈ requiredFields kind ∨ field ∈ payloadFields kind := by
  cases kind <;> cases field <;> decide

theorem mem_fields (field : Field) : field ∈ fields := by
  cases field <;> decide

theorem unusedFields_eq_nil_iff : d.unusedFields = [] ↔
    ∀ field, d.has field = true →
      field ∈ requiredFields d.kind ∨ field ∈ payloadFields d.kind := by
  rw [unusedFields, List.filter_eq_nil_iff]
  simp only [mem_fields, true_imp_iff, Bool.and_eq_true, Bool.not_eq_true', not_and,
    Bool.not_eq_false, uses_iff]

/-- An operation has no faults if and only if it is formed. -/
theorem faults_eq_nil_iff : d.faults = [] ↔ d.Formed := by
  rw [faults, List.append_eq_nil_iff, List.map_eq_nil_iff, unusedFields_eq_nil_iff,
    requiredFaults_eq_nil_iff]
  constructor
  · rintro ⟨others, required, payload⟩
    refine ⟨fun field h => (required field h).1, fun h => (payload h).1, others, ?_⟩
    intro field href text ht
    rcases others field (has_iff.2 ⟨text, ht⟩) with h | h
    · exact (required field h).2 href text ht
    · have names := (payload (List.ne_nil_of_mem h)).2
      cases hkind : d.kind with
      | insert =>
        rw [hkind] at h
        rcases List.mem_pair.1 h with rfl | rfl
        · exact names href text ht
        · cases href
      | _ =>
        rw [hkind] at h
        cases h
  · intro h
    exact ⟨h.others, fun field hf => ⟨h.required field hf, h.keys field⟩,
      fun hp => ⟨h.payload hp, h.keys _⟩⟩

/-! ## What becomes of an operation -/

/-- The definition with no blanks around its references. -/
def trimmed (d : OperationDefinition) : OperationDefinition :=
  { d with
    targetRef := d.targetRef.map Text.trimmed
    anchorRef := d.anchorRef.map Text.trimmed
    fragmentRef := d.fragmentRef.map Text.trimmed
    partRef := d.partRef.map Text.trimmed
    attr := d.attr.map Text.trimmed }

/-- A definition that has none of the fields. -/
def blank (kind : OperationKind) (optional : Bool) : OperationDefinition :=
  ⟨kind, none, none, none, none, none, none, none, optional⟩

end OperationDefinition

open OperationDefinition (blank)

/-- The definition that says what the operation does. -/
def definition (r : OperationRecord) : OperationDefinition :=
  match r.operation with
  | .set target value =>
    { blank .set r.optional with targetRef := some target, value := some value }
  | .insert target anchor (.fragment fragment) placement =>
    { blank .insert r.optional with
      targetRef := some target, anchorRef := some anchor, fragmentRef := some fragment
      placement := some placement }
  | .insert target anchor (.text value) placement =>
    { blank .insert r.optional with
      targetRef := some target, anchorRef := some anchor, value := some value
      placement := some placement }
  | .remove target => { blank .remove r.optional with targetRef := some target }
  | .ensurePath target anchor fragment placement =>
    { blank .ensurePath r.optional with
      targetRef := some target, anchorRef := some anchor, fragmentRef := some fragment
      placement := some placement }
  | .ensurePart part fragment =>
    { blank .ensurePart r.optional with partRef := some part, fragmentRef := some fragment }
  | .ensureAttr target attr value =>
    { blank .ensureAttr r.optional with
      targetRef := some target, attr := some attr, value := some value }

namespace OperationDefinition

variable {d : OperationDefinition} {operation : Operation}

/-- An operation can be made if and only if the required fields have no faults. -/
theorem requiredFaults_eq_nil_iff_operation :
    d.requiredFaults = [] ↔ ∃ operation, d.operation = .ok operation := by
  simp only [requiredFaults, OperationDefinition.operation]
  cases d.kind <;>
    simp only [List.append_eq_nil_iff, faultOf_eq_nil_iff, bind_eq_ok_iff, pure, Except.pure,
      Except.ok.injEq] <;>
    grind

theorem requiredValue_eq_ok_iff {value : String} :
    d.requiredValue = .ok value ↔ d.value = some value := by
  unfold requiredValue
  cases d.value <;> simp

theorem requiredPlacement_eq_ok_iff {placement : Placement} :
    d.requiredPlacement = .ok placement ↔ d.placement = some placement := by
  unfold requiredPlacement
  cases d.placement <;> simp

theorem payload_eq_ok_iff {payload : Payload} : d.payload = .ok payload ↔
    (∃ key, d.reference .fragmentRef = .ok key ∧ d.value = none ∧ payload = .fragment key) ∨
      ∃ value, d.fragmentRef = none ∧ d.value = some value ∧ payload = .text value := by
  have absent : d.fragmentRef = none → ∀ key, d.reference .fragmentRef ≠ .ok key := by
    intro h key hkey
    obtain ⟨text, ht, _⟩ := reference_eq_ok_iff.1 hkey
    cases h.symm.trans ht
  unfold OperationDefinition.payload
  cases hf : d.fragmentRef with
  | none => cases d.value <;> simp [absent hf, eq_comm]
  | some text =>
    cases d.value with
    | none =>
      simp only [map_eq_ok_iff, true_and, false_and, exists_false, or_false, reduceCtorEq]
      simp only [eq_comm]
    | some value => simp

theorem map_trimmed_of_reference {field : Field} {key : String} (h : d.reference field = .ok key) :
    (d.text? field).map Text.trimmed = some key := by
  obtain ⟨text, ht, _, rfl⟩ := reference_eq_ok_iff.1 h
  rw [ht, Option.map_some]

/-- The operation says what the definition says in the fields that its kind may have. -/
theorem text?_definition (h : d.operation = .ok operation) (optional : Bool) :
    (definition ⟨operation, optional⟩).kind = d.kind ∧
      ∀ field ∈ requiredFields d.kind ++ payloadFields d.kind,
        (definition ⟨operation, optional⟩).text? field = d.trimmed.text? field := by
  unfold OperationDefinition.operation at h
  cases hkind : d.kind with
  | set =>
    simp only [hkind, bind_eq_ok_iff, requiredValue_eq_ok_iff] at h
    obtain ⟨target, ht, value, hv, e⟩ := h
    cases e
    have ht' : d.targetRef.map Text.trimmed = some target := map_trimmed_of_reference ht
    simp [requiredFields, payloadFields, definition, text?, trimmed, blank, ht', hv]
  | insert =>
    simp only [hkind, bind_eq_ok_iff, requiredPlacement_eq_ok_iff, payload_eq_ok_iff] at h
    obtain ⟨target, ht, anchor, ha, placement, hp, payload, hpayload, e⟩ := h
    cases e
    have ht' : d.targetRef.map Text.trimmed = some target := map_trimmed_of_reference ht
    have ha' : d.anchorRef.map Text.trimmed = some anchor := map_trimmed_of_reference ha
    rcases hpayload with ⟨key, hkey, hv, rfl⟩ | ⟨value, hf, hv, rfl⟩
    · have hf' : d.fragmentRef.map Text.trimmed = some key := map_trimmed_of_reference hkey
      simp [requiredFields, payloadFields, definition, text?, trimmed, blank, ht', ha', hp, hf', hv]
    · simp [requiredFields, payloadFields, definition, text?, trimmed, blank, ht', ha', hp, hf, hv]
  | remove =>
    simp only [hkind, bind_eq_ok_iff] at h
    obtain ⟨target, ht, e⟩ := h
    cases e
    have ht' : d.targetRef.map Text.trimmed = some target := map_trimmed_of_reference ht
    simp [requiredFields, payloadFields, definition, text?, trimmed, blank, ht']
  | ensurePath =>
    simp only [hkind, bind_eq_ok_iff, requiredPlacement_eq_ok_iff] at h
    obtain ⟨target, ht, anchor, ha, fragment, hf, placement, hp, e⟩ := h
    cases e
    have ht' : d.targetRef.map Text.trimmed = some target := map_trimmed_of_reference ht
    have ha' : d.anchorRef.map Text.trimmed = some anchor := map_trimmed_of_reference ha
    have hf' : d.fragmentRef.map Text.trimmed = some fragment := map_trimmed_of_reference hf
    simp [requiredFields, payloadFields, definition, text?, trimmed, blank, ht', ha', hp, hf']
  | ensurePart =>
    simp only [hkind, bind_eq_ok_iff] at h
    obtain ⟨part, hp, fragment, hf, e⟩ := h
    cases e
    have hp' : d.partRef.map Text.trimmed = some part := map_trimmed_of_reference hp
    have hf' : d.fragmentRef.map Text.trimmed = some fragment := map_trimmed_of_reference hf
    simp [requiredFields, payloadFields, definition, text?, trimmed, blank, hp', hf']
  | ensureAttr =>
    simp only [hkind, bind_eq_ok_iff, requiredValue_eq_ok_iff] at h
    obtain ⟨target, ht, attr, ha, value, hv, e⟩ := h
    cases e
    have ht' : d.targetRef.map Text.trimmed = some target := map_trimmed_of_reference ht
    have ha' : d.attr.map Text.trimmed = some attr := map_trimmed_of_reference ha
    simp [requiredFields, payloadFields, definition, text?, trimmed, blank, ht', ha', hv]

theorem mem_of_has_definition {r : OperationRecord} {field : Field}
    (h : (definition r).has field = true) :
    field ∈ requiredFields (definition r).kind ++ payloadFields (definition r).kind := by
  obtain ⟨operation, optional⟩ := r
  cases operation with
  | insert target anchor payload placement =>
    cases payload <;> cases field <;>
      simp_all [definition, blank, has, text?, requiredFields, payloadFields]
  | _ => cases field <;> simp_all [definition, blank, has, text?, requiredFields, payloadFields]

theorem has_trimmed (field : Field) : d.trimmed.has field = d.has field := by
  cases field <;> simp [has, text?, trimmed]

theorem eq_of_texts {d' : OperationDefinition} (kind : d.kind = d'.kind)
    (optional : d.optional = d'.optional) (texts : ∀ field, d.text? field = d'.text? field) :
    d = d' := by
  have injective : Function.Injective Placement.text := by
    intro p q
    cases p <;> cases q <;> decide
  have placement := Option.map_injective injective (texts .placement)
  cases d
  cases d'
  cases kind
  cases optional
  cases placement
  cases texts .targetRef
  cases texts .anchorRef
  cases texts .fragmentRef
  cases texts .partRef
  cases texts .attribute
  cases texts .value
  rfl

/-- What a formed operation does is all that its definition says. -/
theorem Formed.record (h : d.Formed) : ∃ r, d.record? = some r ∧ definition r = d.trimmed := by
  have noFaults : d.requiredFaults = [] := (List.append_eq_nil_iff.1 (faults_eq_nil_iff.2 h)).2
  obtain ⟨operation, hop⟩ := requiredFaults_eq_nil_iff_operation.1 noFaults
  refine ⟨⟨operation, d.optional⟩, by rw [record?, hop]; rfl, ?_⟩
  obtain ⟨kind, texts⟩ := text?_definition hop d.optional
  have absent : ∀ {d' : OperationDefinition} {field : Field}, ¬ d'.has field = true →
      d'.text? field = none := fun h => Option.not_isSome_iff_eq_none.1 h
  refine eq_of_texts kind ?_ ?_
  · cases operation with
    | insert target anchor payload placement => cases payload <;> rfl
    | _ => rfl
  · intro field
    by_cases hf : field ∈ requiredFields d.kind ++ payloadFields d.kind
    · exact texts field hf
    · have left : ¬ (definition ⟨operation, d.optional⟩).has field = true :=
        fun hhas => hf (kind ▸ mem_of_has_definition hhas)
      have right : ¬ d.trimmed.has field = true :=
        fun hhas => hf (List.mem_append.2 (h.others field (has_trimmed field ▸ hhas)))
      rw [absent left, absent right]

end OperationDefinition

/-! ## Whole documents -/

/-- The number of the operation that the issue is about, if it is about one. -/
def Issue.index? : Issue → Option Nat
  | .operation index _ _ => some index
  | _ => none

/-- The requirement is absent or blank, or it can be read. -/
def RequirementReads (requirement : Option String) : Prop :=
  ∀ text, requirement = some text → Text.trimmed text ≠ "" →
    ∃ r, Version.Requirement.read (Text.trimmed text) = .ok r

theorem requirementIssues_eq_nil_iff {requirement : Option String} :
    requirementIssues requirement = [] ↔ RequirementReads requirement := by
  unfold requirementIssues RequirementReads
  cases requirement with
  | none => simp
  | some text =>
    by_cases blank : Text.trimmed text = ""
    · simp [blank]
    · cases hread : Version.Requirement.read (Text.trimmed text) <;> simp [blank, hread]

theorem index?_of_mem_requirementIssues {requirement : Option String} {issue : Issue}
    (h : issue ∈ requirementIssues requirement) : issue.index? = none := by
  unfold requirementIssues at h
  split at h
  · cases h
  · split_ifs at h
    · cases h
    · split at h
      · cases h
      · cases List.mem_singleton.1 h
        rfl

section Operations

variable {α : Type} {kind : α → OperationKind} {faults : α → List Fault} {operations : List α}

/-- The operations that issues are about are those that have faults. -/
theorem exists_operationIssue_iff {index : Nat} :
    (∃ issue ∈ operationIssues kind faults operations, issue.index? = some index) ↔
      ∃ a, operations[index]? = some a ∧ faults a ≠ [] := by
  simp only [operationIssues, List.mem_flatMap, List.mem_map]
  constructor
  · rintro ⟨_, ⟨⟨a, i⟩, ha, fault, hfault, rfl⟩, e⟩
    cases e
    exact ⟨a, List.mem_zipIdx_iff_getElem?.1 ha, List.ne_nil_of_mem hfault⟩
  · rintro ⟨a, ha, hne⟩
    obtain ⟨fault, hfault⟩ := List.exists_mem_of_ne_nil _ hne
    exact ⟨_, ⟨(a, index), List.mem_zipIdx_iff_getElem?.2 ha, fault, hfault, rfl⟩, rfl⟩

theorem operationIssues_eq_nil_iff :
    operationIssues kind faults operations = [] ↔ ∀ a ∈ operations, faults a = [] := by
  simp only [operationIssues, List.flatMap_eq_nil_iff, List.map_eq_nil_iff]
  constructor
  · intro h a ha
    obtain ⟨index, hindex⟩ := List.mem_iff_getElem?.1 ha
    exact h (a, index) (List.mem_zipIdx_iff_getElem?.2 hindex)
  · intro h x hx
    exact h x.1 (List.mem_of_getElem? (List.mem_zipIdx_iff_getElem?.1 hx))

end Operations

/-- The issues for which a document is refused. -/
def reported : Except (List Issue) Patch → List Issue
  | .ok _ => []
  | .error issues => issues

namespace Document

variable {d : Document}

theorem reported_validate : reported d.validate = d.issues := by
  unfold validate
  cases h : d.issues with
  | nil => rfl
  | cons issue issues => rfl

theorem exists_issue_iff {index : Nat} :
    (∃ issue ∈ d.issues, issue.index? = some index) ↔
      ∃ operation, d.operations[index]? = some operation ∧ ¬ operation.Formed := by
  simp only [← OperationDefinition.faults_eq_nil_iff, ← ne_eq]
  constructor
  · rintro ⟨issue, hissue, hindex⟩
    rcases List.mem_append.1 hissue with hissue | hissue
    · have none : issue.index? = none := by
        rcases List.mem_append.1 hissue with hissue | hissue
        · split_ifs at hissue
          · cases List.mem_singleton.1 hissue
            rfl
          · cases hissue
        · exact index?_of_mem_requirementIssues hissue
      cases none.symm.trans hindex
    · exact exists_operationIssue_iff.1 ⟨issue, hissue, hindex⟩
  · intro h
    obtain ⟨issue, hissue, hindex⟩ := exists_operationIssue_iff.2 h
    exact ⟨issue, List.mem_append_right _ hissue, hindex⟩

theorem issues_eq_nil_iff : d.issues = [] ↔
    (∀ operation ∈ d.operations, operation.Formed) ∧ d.operations ≠ [] ∧
      RequirementReads d.metadata.registryVersion := by
  simp only [issues, List.append_eq_nil_iff, requirementIssues_eq_nil_iff,
    operationIssues_eq_nil_iff, OperationDefinition.faults_eq_nil_iff]
  by_cases h : d.operations = [] <;> simp [h, and_comm]

theorem map_definition_filterMap {operations : List OperationDefinition}
    (h : ∀ d ∈ operations, d.Formed) :
    (operations.filterMap OperationDefinition.record?).map definition =
      operations.map OperationDefinition.trimmed := by
  induction operations with
  | nil => rfl
  | cons d operations ih =>
    obtain ⟨hd, rest⟩ := List.forall_mem_cons.1 h
    obtain ⟨r, hr, same⟩ := hd.record
    rw [List.filterMap_cons_some hr, List.map_cons, List.map_cons, same, ih rest]

/-- The operations that the reported issues are about are those that are not formed. A document is
accepted if and only if all its operations are formed, there is one, and the requirement on the
registry's version, if it is given, can be read. What is accepted says what the document says. -/
theorem validate_spec (d : Document) :
    (∀ index, (∃ issue ∈ reported d.validate, issue.index? = some index) ↔
      ∃ operation, d.operations[index]? = some operation ∧ ¬ operation.Formed) ∧
    ((∃ p, d.validate = .ok p) ↔
      (∀ operation ∈ d.operations, operation.Formed) ∧ d.operations ≠ [] ∧
        RequirementReads d.metadata.registryVersion) ∧
    ∀ p, d.validate = .ok p →
      p.metadata = d.metadata ∧
        p.operations.map definition = d.operations.map OperationDefinition.trimmed := by
  refine ⟨fun index => by rw [reported_validate, exists_issue_iff], ?_, ?_⟩
  · rw [← issues_eq_nil_iff, validate]
    cases h : d.issues <;> simp
  · intro p hp
    unfold validate at hp
    cases h : d.issues with
    | nil =>
      rw [h] at hp
      cases hp
      exact ⟨rfl, map_definition_filterMap (issues_eq_nil_iff.1 h).1⟩
    | cons issue issues =>
      rw [h] at hp
      cases hp

/-- A removal, with blanks around what it refers to, and a change of a path that has no key. -/
def sample : Document :=
  ⟨⟨"", none, some " "⟩,
    [{ blank .remove true with targetRef := some " list " },
      { blank .set false with targetRef := some "/list", value := some "" }]⟩

/-- The first operation of the sample is accepted on its own, the second is reported. -/
theorem validate_spec_sample :
    (∃ p, Document.validate ⟨sample.metadata, sample.operations.take 1⟩ = .ok p ∧
      p.operations.map definition = [{ blank .remove true with targetRef := some "list" }]) ∧
    ∃ issue ∈ reported sample.validate, issue.index? = some 1 := by
  obtain ⟨-, accepted, same⟩ := validate_spec ⟨sample.metadata, sample.operations.take 1⟩
  have formed : ∀ operation ∈ sample.operations.take 1, operation.Formed := by
    intro operation h
    cases List.mem_singleton.1 h
    exact OperationDefinition.faults_eq_nil_iff.1 (by decide)
  have requirement : RequirementReads sample.metadata.registryVersion := by
    rw [← requirementIssues_eq_nil_iff]
    decide
  obtain ⟨p, hp⟩ := accepted.2 ⟨formed, by decide, requirement⟩
  refine ⟨⟨p, hp, (same p hp).2⟩, ?_⟩
  refine ((validate_spec sample).1 1).2 ⟨_, rfl, ?_⟩
  rw [← OperationDefinition.faults_eq_nil_iff]
  decide

end Document

end PartPatch.Patch
