import PartPatch.Proofs.Patch.Append
import PartPatch.Proofs.Patch.Identifiers
import PartPatch.Proofs.Patch.Removal

/-!
# What a report says of a change

An operation is reported as applied if and only if it has changed something: the document, or for
`ensurePart` the parts of the package. So a patch of which no operation is reported as applied has
left document and package as they were.
-/

namespace PartPatch

set_option autoImplicit false

open Selection (IsFirst)

/-- The first attribute that a path names is the first one of its own name. -/
theorem Selection.IsFirst.attribute? {e : Element} {name : BoundName} {index : Nat} {a : Attribute}
    (first : IsFirst e name index) (ha : e.attributes[index]? = some a) :
    e.attribute? a.name.localName a.name.namespaceUri = some a := by
  have found := Selection.find?_eq_some_iff_isFirst.2 ⟨index, first, ha⟩
  have names : name.Names a.name := by simpa using List.find?_some found
  rw [Element.attribute?, names.1, names.2]
  exact found

namespace Session

open Edit

variable {t u v : Tree} {d : Draft} {s : Session} {a node : NodeId} {operation : Operation}

/-! ## Changes of the document -/

/-- What is placed becomes a child of the anchor, or beside it of the anchor's parent. -/
theorem insertAt_of_place {placement : Placement} (h : place t a node placement = .ok v) :
    ∃ p position, ((placement = .prepend ∨ placement = .append) ∧ p = a ∨
        (placement = .before ∨ placement = .after) ∧ t.Parent p a) ∧
      t.insertAt p position node = .ok v := by
  have beside : ∀ {p position}, t.place? a = some (p, position) → t.Parent p a := by
    intro p position hplace
    unfold Tree.place? at hplace
    split at hplace
    · cases hplace
    · next q hq =>
      obtain ⟨_, _, e⟩ := Option.map_eq_some_iff.1 hplace
      cases e
      exact hq
  cases placement with
  | before =>
    simp only [place, Tree.insertBefore] at h
    split at h
    · cases h
    · next p position hplace =>
      exact ⟨p, _, Or.inr ⟨Or.inl rfl, beside hplace⟩, h⟩
  | after =>
    simp only [place, Tree.insertAfter] at h
    split at h
    · cases h
    · next p position hplace =>
      exact ⟨p, _, Or.inr ⟨Or.inr rfl, beside hplace⟩, h⟩
  | prepend => exact ⟨a, _, Or.inl ⟨Or.inl rfl, rfl⟩, h⟩
  | append => exact ⟨a, _, Or.inl ⟨Or.inr rfl, rfl⟩, h⟩

theorem grown_of_place (wf : t.WellFormed) (planted : t.Planted u node) (attached : t.Attached a)
    {placement : Placement} (h : place u a node placement = .ok v) : ∃ p, t.Grown v p := by
  obtain ⟨p, position, hp, hv⟩ := insertAt_of_place h
  rw [Tree.link_of_insertAt hv]
  refine ⟨p, planted.grown wf ?_ position⟩
  rcases hp with ⟨_, rfl⟩ | ⟨_, hp⟩
  · exact attached
  · rw [Tree.Parent, planted.extends_.parents a (wf.lt_size_of_attached attached)] at hp
    exact wf.attached_of_parent attached hp

theorem not_alike_of_assign (wf : t.WellFormed) (wfu : u.WellFormed) {n : NodeRef}
    (attached : t.Attached n.elementId)
    (first : ∀ x index, n = .attribute x index →
      ∃ name e, t.element? x = some e ∧ IsFirst e name index)
    {value : String} (hne : t.stringValue n ≠ value) (h : assign t n value = .ok u) :
    ¬ u.Alike t := by
  cases n with
  | element x => exact Tree.not_alike_of_setText wf wfu attached h hne
  | «attribute» x index =>
    obtain ⟨name, e, he, first⟩ := first x index rfl
    simp only [assign] at h
    split at h
    · next a ha =>
      refine Tree.not_alike_of_setAttribute (x := x) wf wfu attached h ?_
      have hindex : e.attributes[index]? = some a := by
        rwa [Tree.attributeAt?, he] at ha
      rw [he, Option.bind_some, first.attribute? hindex]
      simpa [Tree.stringValue, ha] using hne
    · cases h

/-! ## Operations on the document -/

/-- What an operation finds as its only target is in the document. -/
theorem selected_of_selectOne (sound : s.registry.Sound) (wf : t.WellFormed) {key : String}
    {n : NodeRef} (h : s.selectOne t key = .ok n) :
    t.Attached n.elementId ∧ ∀ x index, n = .attribute x index →
      ∃ name e, t.element? x = some e ∧ IsFirst e name index := by
  have hselect := selectOne_eq_ok_iff.1 h
  obtain ⟨p, b, _, formed, reads⟩ := select_reads sound hselect
  obtain ⟨ordered, mem⟩ := (reads t wf).2 _ hselect
  refine ⟨ordered.attached n List.mem_cons_self, ?_⟩
  rintro x index rfl
  obtain ⟨_, name, e, _, _, he, first⟩ :=
    Selection.isFirst_of_leads formed.dropLast ⟨_, rfl⟩ ((mem _).1 List.mem_cons_self)
  exact ⟨name, e, he, first⟩

section Operations

variable (sound : s.registry.Sound) (wf : d.tree.WellFormed)
include sound wf

theorem set_changes (target value : String) :
    Ends (s.set target value) d
      (fun result d' => result = .applied → d'.tree.WellFormed → ¬ d'.tree.Alike d.tree)
      fun _ _ => True := by
  rw [ends_set]
  refine ⟨?_, fun _ _ => trivial⟩
  intro n hn
  refine ⟨?_, fun _ _ => trivial⟩
  intro v _
  refine ⟨by rintro _ ⟨⟩, ?_⟩
  intro hne
  rw [ends_change]
  refine ⟨?_, fun _ _ => trivial⟩
  intro u hu _ wfu
  obtain ⟨attached, first⟩ := selected_of_selectOne sound wf hn
  exact not_alike_of_assign wf wfu attached first hne hu

/-- A payload that was inserted is a new child in the document. -/
theorem insert_grows (target anchor : String) (payload : Payload) (placement : Placement) :
    Ends (s.insert target anchor payload placement) d
      (fun result d' => result = .applied →
        s.select d.tree target = .ok [] ∧ ∃ p, d.tree.Grown d'.tree p)
      fun _ _ => True := by
  rw [ends_insert]
  refine ⟨?_, fun _ _ => trivial⟩
  intro nodes hnodes
  refine ⟨by rintro _ ⟨⟩, ?_⟩
  rintro rfl
  refine ⟨?_, fun _ _ => trivial⟩
  intro a ha
  obtain ⟨_, attached⟩ := element_of_selectElement sound wf ha
  refine (prepare_ends sound wf payload (.insert target anchor payload placement)).mono ?_
    fun _ _ _ => trivial
  rintro node d' ⟨planted, _⟩
  rw [ends_change]
  refine ⟨?_, fun _ _ => trivial⟩
  intro v hv _
  exact ⟨hnodes, grown_of_place wf planted attached hv⟩

theorem ensurePath_grows (target anchor fragment : String) (placement : Placement) :
    Ends (s.ensurePath target anchor fragment placement) d
      (fun result d' => result = .applied → ∃ p, d.tree.Grown d'.tree p)
      fun _ _ => True := by
  rw [ends_ensurePath]
  refine ⟨?_, fun _ _ => trivial⟩
  intro nodes _
  refine ⟨by rintro _ ⟨⟩, ?_⟩
  rintro rfl
  refine ⟨?_, fun _ _ => trivial⟩
  intro a ha
  obtain ⟨_, attached⟩ := element_of_selectElement sound wf ha
  refine (instantiate_ends sound wf fragment
    (.ensurePath target anchor fragment placement)).mono ?_ fun _ _ _ => trivial
  intro node d' planted
  rw [ends_change]
  refine ⟨?_, fun _ _ => trivial⟩
  intro v hv
  refine ⟨fun reached _ => ⟨fun _ => trivial, fun _ _ => ?_⟩, fun _ _ => trivial⟩
  exact grown_of_place wf planted attached hv

theorem remove_changes (target : String) :
    Ends (s.remove target) d (fun result d' => result = .applied → ¬ d'.tree.Alike d.tree)
      fun _ _ => True := by
  rw [ends_remove]
  refine ⟨?_, fun _ _ => trivial⟩
  intro nodes hnodes
  refine ⟨by rintro _ ⟨⟩, ?_⟩
  intro hne _
  obtain ⟨p, b, _, formed, reads⟩ := select_reads sound hnodes
  obtain ⟨ordered, mem⟩ := (reads d.tree wf).2 _ hnodes
  refine not_alike_of_removeNodes wf hne ?_ ordered.attached
  intro n hn
  exact Selection.in_of_leads_document wf formed ((mem n).1 hn)

theorem ensureAttr_changes (target attr value : String) :
    Ends (s.ensureAttr target attr value) d
      (fun result d' => result = .applied → d'.tree.WellFormed → ¬ d'.tree.Alike d.tree)
      fun _ _ => True := by
  rw [ends_ensureAttr]
  refine ⟨?_, fun _ _ => trivial⟩
  intro x hx
  refine ⟨?_, fun _ => trivial⟩
  intro name _
  refine ⟨?_, fun _ _ => trivial⟩
  intro v _
  refine ⟨by rintro _ ⟨⟩, ?_⟩
  intro hne
  rw [ends_change]
  refine ⟨?_, fun _ _ => trivial⟩
  intro u hu _ wfu
  exact Tree.not_alike_of_setAttribute wf wfu (element_of_selectElement sound wf hx).2 hu hne

/-- An edit that is reported as applied leaves a document that is not alike. -/
theorem action_changes {action : Edit OperationResult} (h : s.action? operation = some action) :
    Ends action d
      (fun result d' => result = .applied → d'.tree.WellFormed → ¬ d'.tree.Alike d.tree)
      fun _ _ => True := by
  cases operation with
  | set target value =>
    rw [← Option.some.inj h]
    exact set_changes sound wf target value
  | insert target anchor payload placement =>
    rw [← Option.some.inj h]
    refine (insert_grows sound wf target anchor payload placement).mono ?_ fun _ _ _ => trivial
    intro result d' grows applied wf'
    obtain ⟨_, p, grown⟩ := grows applied
    exact grown.not_alike wf wf'
  | remove target =>
    rw [← Option.some.inj h]
    refine (remove_changes sound wf target).mono ?_ fun _ _ _ => trivial
    intro result d' changes applied _
    exact changes applied
  | ensurePath target anchor fragment placement =>
    rw [← Option.some.inj h]
    refine (ensurePath_grows sound wf target anchor fragment placement).mono ?_
      fun _ _ _ => trivial
    intro result d' grows applied wf'
    obtain ⟨p, grown⟩ := grows applied
    exact grown.not_alike wf wf'
  | ensurePart part fragment => cases h
  | ensureAttr target attr value =>
    rw [← Option.some.inj h]
    exact ensureAttr_changes sound wf target attr value

end Operations

/-! ## Operations on the package -/

theorem hasPart_createPart {package left : MemoryPackage} {spec : PartSpec} {body : Tree}
    {created : CreatedPart} (h : Package.createPart package spec body = (.ok created, left)) :
    left.hasPart spec.name = true := by
  simp only [Package.createPart, MemoryPackage.createPart] at h
  split at h
  · cases h
  · split at h
    · cases h
    · cases h
      rw [MemoryPackage.hasPart, Entries.contains, Entries.find?_insert, if_pos rfl]
      rfl

/-- A part whose creation is reported was not there before. -/
theorem ensurePart_reports {package left : MemoryPackage} {part fragment : String}
    {result : OperationResult}
    (h : s.ensurePart package part fragment = (.ok result, left)) :
    (result = .alreadyApplied → left = package) ∧
      (result = .applied → ∃ spec, s.registry.part? part = some spec ∧
        package.hasPart spec.name = false ∧ left.hasPart spec.name = true) := by
  unfold ensurePart at h
  split at h
  · cases h
  · next spec hspec =>
    split at h
    · cases h
      exact ⟨fun _ => rfl, by rintro ⟨⟩⟩
    · next habsent =>
      repeat' split at h
      all_goals cases h
      next hcreate =>
      refine ⟨by rintro ⟨⟩, fun _ => ⟨spec, hspec, Bool.eq_false_iff.2 habsent, ?_⟩⟩
      exact hasPart_createPart hcreate

/-! ## What is reported -/

/-- What an operation has done that is reported as applied. -/
def Changed (s : Session) (w left : Workspace MemoryPackage) : Operation → Prop
  | .ensurePart part _ => left.tree = w.tree ∧ ∃ spec, s.registry.part? part = some spec ∧
      w.package.hasPart spec.name = false ∧ left.package.hasPart spec.name = true
  | _ => ¬ left.tree.Alike w.tree

variable {w left : Workspace MemoryPackage} {result : OperationResult}

theorem changed_of_execute (sound : s.registry.Sound) (wf : w.tree.WellFormed)
    (h : s.execute w operation = (.ok .applied, left)) : s.Changed w left operation := by
  have wf' := wellFormed_of_execute sound wf h
  cases ha : s.action? operation with
  | none =>
    obtain ⟨part, fragment, rfl⟩ := ensurePart_of_action? ha
    obtain ⟨hpart, htree, _⟩ := execute_ensurePart h
    exact ⟨htree, (ensurePart_reports hpart).2 rfl⟩
  | some action =>
    rw [execute_eq_edit ha] at h
    have wfd : (Draft.mk w.tree w.ids).tree.WellFormed := wf
    have changes := (edit_ends (action_changes sound wfd ha) h).1 .applied rfl rfl wf'
    cases operation with
    | ensurePart part fragment => cases ha
    | _ => exact changes

theorem eq_of_execute_alreadyApplied
    (h : s.execute w operation = (.ok .alreadyApplied, left)) : left = w := by
  cases ha : s.action? operation with
  | none =>
    obtain ⟨part, fragment, rfl⟩ := ensurePart_of_action? ha
    obtain ⟨hpart, htree, hids⟩ := execute_ensurePart h
    exact Workspace.ext htree hids ((ensurePart_reports hpart).1 rfl)
  | some action =>
    rw [execute_eq_edit ha] at h
    have same := (edit_ends (eq_of_alreadyApplied ha _) h).1 .alreadyApplied rfl rfl
    exact Workspace.ext (congrArg Draft.tree same) (congrArg Draft.ids same)
      (package_of_edit h)

theorem applyOperation_reports (sound : s.registry.Sound) (wf : w.tree.WellFormed) {index : Nat}
    {record : OperationRecord} (h : s.applyOperation w index record = (.ok result, left)) :
    (result = .applied → s.Changed w left record.operation) ∧ (result ≠ .applied → left = w) := by
  rcases applyOperation_cases MemoryPackage.keepsNoTraces s w index record with
    ⟨result', left', hexecute, carried, h'⟩ | ⟨e, _, _, h'⟩ | ⟨e, h'⟩
  · cases h'.symm.trans h
    rcases carried with rfl | rfl
    · exact ⟨fun _ => changed_of_execute sound wf hexecute, fun hne => absurd rfl hne⟩
    · exact ⟨by rintro ⟨⟩, fun _ => eq_of_execute_alreadyApplied hexecute⟩
  · cases h'.symm.trans h
    exact ⟨by rintro ⟨⟩, fun _ => rfl⟩
  · cases h'.symm.trans h

/-- A run of operations none of which is reported as applied has changed nothing. -/
theorem eq_of_run_noop (sound : s.registry.Sound) (wf : w.tree.WellFormed)
    {records : List OperationRecord} {index : Nat} {outcomes : List OperationOutcome}
    (h : s.run w index records = (.ok outcomes, left))
    (noop : ∀ o ∈ outcomes, o.result ≠ .applied) : left = w := by
  induction records generalizing index outcomes with
  | nil =>
    cases h
    rfl
  | cons record records ih =>
    rcases ha : s.applyOperation w index record with ⟨error | result, w'⟩
    · rw [run_cons_error ha] at h
      cases h
    · rw [run_cons_ok ha] at h
      rcases hr : s.run w' (index + 1) records with ⟨error | rest, w''⟩
      · rw [hr] at h
        cases h
      · rw [hr] at h
        cases h
        obtain ⟨hfirst, hrest⟩ := List.forall_mem_cons.1 noop
        cases (applyOperation_reports sound wf ha).2 hfirst
        exact ih hr hrest

theorem alike_of_apply_noop (sound : s.registry.Sound) (wf : w.tree.WellFormed) {p : Patch}
    {report : PatchReport} (h : s.apply w p = (.ok report, left)) (noop : report.isNoop = true) :
    left.tree.Alike w.tree ∧ left.ids = w.ids ∧ left.package = w.package := by
  cases hv : s.versionMismatch? p with
  | some reason =>
    simp only [apply, hv] at h
    cases h
    exact ⟨⟨rfl, rfl⟩, rfl, rfl⟩
  | none =>
    rw [apply_eq_run hv] at h
    rcases hr : s.run w 0 p.operations with ⟨error | outcomes, w'⟩
    · rw [hr] at h
      cases h
    · rw [hr] at h
      cases h
      have hne : ∀ o ∈ outcomes, o.result ≠ .applied := by
        simpa [PatchReport.isNoop, PatchReport.applied, PatchReport.count] using noop
      cases eq_of_run_noop sound wf hr hne
      obtain ⟨_, m⟩ := wf.mirrors_compact .full
      exact ⟨m.alike.symm, rfl, rfl⟩

/-- An operation that is reported as applied has changed the document, or has created a part that
was not there; any other has left the workspace as it was. A patch of which nothing is reported as
applied leaves document, allocator and package as they were. The tree may be any well-formed one,
as are all that a session reaches, and the allocator may have served other trees before. -/
theorem report_tells_changes {document : Registry.Document}
    (compiled : Registry.compile document = .ok s.registry) (wf : w.tree.WellFormed) :
    (∀ index record result left, s.applyOperation w index record = (.ok result, left) →
      (result = .applied → s.Changed w left record.operation) ∧
        (result ≠ .applied → left = w)) ∧
    ∀ p report left, s.apply w p = (.ok report, left) → report.isNoop = true →
      left.tree.Alike w.tree ∧ left.ids = w.ids ∧ left.package = w.package := by
  have sound := Registry.sound_of_compile compiled
  exact ⟨fun _ _ _ _ h => applyOperation_reports sound wf h,
    fun _ _ _ h noop => alike_of_apply_noop sound wf h noop⟩

/-- The first operation of the patch is applied and the second is skipped, so that the patch of the
second alone changes nothing. -/
theorem report_tells_changes_fillGap :
    ¬ (itemList.applyOperation oneItem 0
      ⟨.insert "gap" "list" (.fragment "item") .append, false⟩).2.tree.Alike oneItem.tree ∧
    (itemList.apply oneItem ⟨⟨"", none, none⟩, [⟨.set "gap" "text", true⟩]⟩).2.tree.Alike
      oneItem.tree := by
  have wf : oneItem.tree.WellFormed := Xml.wellFormed_of_read read_oneItem
  obtain ⟨operations, noop⟩ := report_tells_changes (s := itemList) Registry.compile_itemList wf
  have applied : (itemList.applyOperation oneItem 0
      ⟨.insert "gap" "list" (.fragment "item") .append, false⟩).1 = .ok .applied := by cbv
  have skipped : (itemList.apply oneItem ⟨⟨"", none, none⟩, [⟨.set "gap" "text", true⟩]⟩).1 =
      .ok ⟨"", [⟨0, .set, ["gap"], .skipped "target 'gap' matched no nodes"⟩]⟩ := by cbv
  exact ⟨(operations _ _ _ _ (Prod.ext applied rfl)).1 rfl,
    (noop _ _ _ (Prod.ext skipped rfl) rfl).1⟩

end Session

end PartPatch
