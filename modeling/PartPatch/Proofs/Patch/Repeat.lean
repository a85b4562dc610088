import PartPatch.Proofs.Patch.Anew
import PartPatch.Proofs.Patch.Report

/-!
# Operations that are repeated

A removal takes away all that its target selects at the time. It has to be repeated only if a
comparison with the text of an element holds now that did not hold before. An insertion is guarded
by its target: it is not repeated if and only if what it has added makes the target select
something, and that is where `ensurePath` succeeds.
-/

namespace PartPatch.Session

set_option autoImplicit false

open Edit
open Selection (LeadsAnew)

variable {P : Type} [Package P] {s : Session} {w left : Workspace P} {t : Tree}
  {target : String} {nodes : List NodeRef} {operation : Operation} {result : OperationResult}

theorem applyOperation_carried_iff (carried : Carried result) {index : Nat}
    {record : OperationRecord} :
    s.applyOperation w index record = (.ok result, left) ↔
      s.execute w record.operation = (.ok result, left) := by
  rcases he : s.execute w record.operation with ⟨e | result', left'⟩
  · simp only [applyOperation, he]
    split
    · rcases carried with rfl | rfl <;> simp
    · simp
  · simp [applyOperation, he]

/-- An edit that can end in one way only. -/
theorem execute_of_ends {action : Edit OperationResult} (ha : s.action? operation = some action)
    {d : Draft} (h : Ends action ⟨w.tree, w.ids⟩ (fun r d' => r = result ∧ d' = d)
      fun _ _ => False) :
    s.execute w operation = (.ok result, { w with tree := d.tree, ids := d.ids }) := by
  rw [execute_eq_edit ha]
  rcases he : edit w action with ⟨e | r, left⟩
  · exact ((edit_ends h he).2 e rfl).elim
  · obtain ⟨rfl, rfl⟩ := (edit_ends h he).1 r rfl
    rw [← package_of_edit he]

/-! ## Removals -/

theorem execute_remove_of_nil (h : s.select w.tree target = .ok []) :
    s.execute w (.remove target) = (.ok .alreadyApplied, w) := by
  refine execute_of_ends (d := ⟨w.tree, w.ids⟩) rfl ?_
  rw [ends_remove, h]
  simp

theorem execute_remove_of_ne_nil (h : s.select w.tree target = .ok nodes) (hne : nodes ≠ []) :
    s.execute w (.remove target) =
      (.ok .applied, { w with tree := nodes.foldl removeNode w.tree }) := by
  refine execute_of_ends (d := ⟨nodes.foldl removeNode w.tree, w.ids⟩) rfl ?_
  rw [ends_remove, h]
  refine ⟨?_, by rintro _ ⟨⟩⟩
  rintro _ ⟨⟩
  exact ⟨fun hnil => absurd hnil hne, fun _ => ⟨rfl, rfl⟩⟩

/-- An applied removal has found something. -/
theorem exists_select_of_remove (h : s.execute w (.remove target) = (.ok .applied, left)) :
    ∃ nodes, s.select w.tree target = .ok nodes ∧ nodes ≠ [] ∧
      left = { w with tree := nodes.foldl removeNode w.tree } := by
  cases hnodes : s.select w.tree target with
  | error e =>
    have fails : Ends (s.remove target) ⟨w.tree, w.ids⟩ (fun _ _ => False) fun _ _ => True := by
      rw [ends_remove, hnodes]
      simp
    exact ((edit_ends fails h).1 .applied rfl).elim
  | ok nodes =>
    by_cases hne : nodes = []
    · rw [hne] at hnodes
      rw [execute_remove_of_nil hnodes] at h
      cases h
    · rw [execute_remove_of_ne_nil hnodes hne] at h
      cases h
      exact ⟨nodes, rfl, hne, rfl⟩

/-- What is selected in a tree is not gone. -/
theorem not_gone_of_kept {u : Tree} (wfu : u.WellFormed) {m n : NodeRef}
    (kept : NodeRef.Kept t u m n) (present : n.In u) (attached : u.Attached n.elementId) :
    ¬ m.GoneIn t u := by
  intro gone
  cases kept with
  | element _ =>
    obtain ⟨p, _, hp⟩ := Tree.above_iff.1 (wfu.above_of_attached attached present)
    cases gone.symm.trans hp
  | «attribute» ht hu =>
    obtain ⟨f, hf, ha⟩ := Option.bind_eq_some_iff.1 hu
    exact gone _ f ht hf _ (List.mem_of_getElem? ha) (QName.matches_self _)

/-- After a removal its target selects what it selects anew, and nothing else. -/
theorem select_removed (sound : s.registry.Sound) (wf : w.tree.WellFormed)
    (h : s.execute w (.remove target) = (.ok .applied, left)) :
    ∃ p b found, s.Evaluates target p b ∧ s.select left.tree target = .ok found ∧
      (∀ n, n ∈ found ↔
        LeadsAnew w.tree left.tree b p.path.steps (.element Tree.documentId) n) ∧
      w.tree.Pruned left.tree := by
  obtain ⟨nodes, hnodes, _, rfl⟩ := exists_select_of_remove h
  obtain ⟨p, b, evaluates, formed, reads⟩ := select_reads sound hnodes
  obtain ⟨ordered, mem⟩ := (reads w.tree wf).2 _ hnodes
  have wf' := wellFormed_removeNodes wf nodes
  have pruned := pruned_removeNodes wf nodes
  obtain ⟨⟨found, hfound⟩, spec⟩ := reads _ wf'
  obtain ⟨ordered', mem'⟩ := spec found hfound
  refine ⟨p, b, found, evaluates, hfound, ?_, pruned⟩
  intro n
  refine ⟨?_, fun anew => (mem' n).2 (Selection.leads_of_anew _ anew)⟩
  intro hn
  by_contra old
  have leads := (mem' n).1 hn
  obtain ⟨n', hn', kept⟩ := Selection.leads_of_not_anew (pruned.inherits wf wf') wf wf' _
    (.element (Or.inl rfl)) leads old
  have gone := gone_removeNodes wf
    (fun k hk l hl => Selection.eq_of_leads formed ((mem k).1 hk) ((mem l).1 hl))
    ((mem n').2 hn')
  exact not_gone_of_kept wf' kept (Selection.in_of_leads_document wf' formed leads)
    (ordered'.attached n hn) gone

/-- After a removal was applied, its target selects exactly what it selects owing to comparisons
with the texts of elements that the removal has changed. The same removal is applied again if and
only if that is anything; under a path without comparisons it is not. -/
theorem remove_again {document : Registry.Document}
    (compiled : Registry.compile document = .ok s.registry) (wf : w.tree.WellFormed) {index : Nat}
    {optional : Bool}
    (h : s.applyOperation w index ⟨.remove target, optional⟩ = (.ok .applied, left)) :
    ∃ p b found, s.Evaluates target p b ∧ s.select left.tree target = .ok found ∧
      (∀ n, n ∈ found ↔
        LeadsAnew w.tree left.tree b p.path.steps (.element Tree.documentId) n) ∧
      (∀ index optional,
        (found = [] → s.applyOperation left index ⟨.remove target, optional⟩ =
          (.ok .alreadyApplied, left)) ∧
        (found ≠ [] → (s.applyOperation left index ⟨.remove target, optional⟩).1 =
          .ok .applied)) ∧
      ((∀ inner name, ¬ (Step.predicate inner (some name)).Within p.path.steps) →
        found = []) := by
  have sound := Registry.sound_of_compile compiled
  obtain ⟨p, b, found, evaluates, hfound, mem, pruned⟩ :=
    select_removed sound wf ((applyOperation_carried_iff (Or.inl rfl)).1 h)
  refine ⟨p, b, found, evaluates, hfound, mem, ?_, ?_⟩
  · intro index optional
    refine ⟨?_, ?_⟩
    · rintro rfl
      exact (applyOperation_carried_iff (Or.inr rfl)).2 (execute_remove_of_nil hfound)
    · intro hne
      have again := execute_remove_of_ne_nil hfound hne
      rw [(applyOperation_carried_iff (Or.inl rfl)).2 again]
  · intro compares
    rw [List.eq_nil_iff_forall_not_mem]
    intro n hn
    have old : ∀ x, left.tree.isElement x = true → w.tree.isElement x = true := by
      intro x hx
      obtain ⟨f, hf⟩ := Option.isSome_iff_exists.1 hx
      obtain ⟨e, he, _⟩ := pruned.elements x f hf
      exact Option.isSome_iff_exists.2 ⟨e, he⟩
    obtain ⟨inner, name, within⟩ := Selection.compares_of_leadsAnew old _ ((mem n).1 hn)
    exact compares inner name within

def onesDocument : Registry.Document where
  metadata := ⟨"", none, none⟩
  namespaces := .empty
  elements := .ofList [("list", .short "list"), ("a", .short "a"), ("b", .short "b")]
  attributes := .empty
  identifiers := .empty
  values := .ofList [("v", "1")]
  paths := .ofList [("ones", "//a[b = $v]"), ("b", "/list/a/b")]
  fragments := .empty
  parts := .empty

def ones : Session where
  registry := onesDocument.resolved
  tokens := fun _ => none
  allOptional := false

/-- One `b` stands inside the other, whose text is `11` as long as it does. -/
def nestedOnes : Workspace MemoryPackage where
  tree := {
    nodes := #[⟨.document, none, [1]⟩, ⟨.element ⟨.plain "list", [], []⟩, some 0, [2]⟩,
      ⟨.element ⟨.plain "a", [], []⟩, some 1, [3]⟩,
      ⟨.element ⟨.plain "b", [], []⟩, some 2, [4, 5]⟩, ⟨.text "1", some 3, []⟩,
      ⟨.element ⟨.plain "a", [], []⟩, some 3, [6]⟩,
      ⟨.element ⟨.plain "b", [], []⟩, some 5, [7]⟩, ⟨.text "1", some 6, []⟩]
    header := none }
  ids := .empty
  package := .empty

def outerOne : Workspace MemoryPackage :=
  (ones.applyOperation nestedOnes 0 ⟨.remove "ones", false⟩).2

theorem compile_ones : Registry.compile onesDocument = .ok ones.registry := by
  rw [Registry.compile_eq_ok_iff]
  refine ⟨?_, rfl⟩
  cbv

theorem read_nestedOnes :
    Xml.read "<list><a><b>1<a><b>1</b></a></b></a></list>" = .ok nestedOnes.tree := by
  cbv

theorem applyOperation_nestedOnes :
    ones.applyOperation nestedOnes 0 ⟨.remove "ones", false⟩ = (.ok .applied, outerOne) := by
  have applied : (ones.applyOperation nestedOnes 0 ⟨.remove "ones", false⟩).1 =
      .ok .applied := by cbv
  exact Prod.ext applied rfl

theorem select_outerOne : ones.select outerOne.tree "ones" = .ok [.element 2] := by
  cbv

/-- Without the inner element the outer one compares as equal, so that the removal is applied
again. -/
theorem remove_applied_twice :
    Registry.compile onesDocument = .ok ones.registry ∧
    Xml.read "<list><a><b>1<a><b>1</b></a></b></a></list>" = .ok nestedOnes.tree ∧
    ones.applyOperation nestedOnes 0 ⟨.remove "ones", false⟩ = (.ok .applied, outerOne) ∧
    Xml.write outerOne.tree = "<list><a><b>1</b></a></list>" ∧
    ones.select outerOne.tree "ones" = .ok [.element 2] ∧
    (ones.applyOperation outerOne 1 ⟨.remove "ones", false⟩).1 = .ok .applied ∧
    Xml.write (ones.applyOperation outerOne 1 ⟨.remove "ones", false⟩).2.tree = "<list/>" := by
  have written : Xml.write outerOne.tree = "<list><a><b>1</b></a></list>" := by cbv
  have again : (ones.applyOperation outerOne 1 ⟨.remove "ones", false⟩).1 = .ok .applied := by cbv
  have empty : Xml.write (ones.applyOperation outerOne 1 ⟨.remove "ones", false⟩).2.tree =
      "<list/>" := by cbv
  exact ⟨compile_ones, read_nestedOnes, applyOperation_nestedOnes, written, select_outerOne,
    again, empty⟩

def withoutList : Workspace MemoryPackage :=
  (itemList.applyOperation oneItem 0 ⟨.remove "list", false⟩).2

theorem applyOperation_removeList :
    itemList.applyOperation oneItem 0 ⟨.remove "list", false⟩ = (.ok .applied, withoutList) := by
  have applied : (itemList.applyOperation oneItem 0 ⟨.remove "list", false⟩).1 =
      .ok .applied := by cbv
  exact Prod.ext applied rfl

theorem select_withoutList : itemList.select withoutList.tree "list" = .ok [] := by
  cbv

/-- The outer element is selected owing to its own text. A list that was removed is not found
again. -/
theorem remove_again_nestedOnes :
    (∃ p b, ones.Evaluates "ones" p b ∧
      LeadsAnew nestedOnes.tree outerOne.tree b p.path.steps (.element Tree.documentId)
        (.element 2)) ∧
    itemList.applyOperation withoutList 1 ⟨.remove "list", false⟩ =
      (.ok .alreadyApplied, withoutList) := by
  obtain ⟨p, b, found, evaluates, hfound, mem, _⟩ := remove_again compile_ones
    (Xml.wellFormed_of_read read_nestedOnes) applyOperation_nestedOnes
  obtain ⟨_, _, found', _, hfound', _, again, _⟩ :=
    remove_again (s := itemList) Registry.compile_itemList (Xml.wellFormed_of_read read_oneItem)
      applyOperation_removeList
  cases select_outerOne.symm.trans hfound
  have gone := Except.ok.inj (hfound'.symm.trans select_withoutList)
  exact ⟨⟨p, b, evaluates, (mem _).1 List.mem_cons_self⟩, (again 1 false).1 gone⟩

/-! ## Insertions -/

variable {anchor key : String} {payload : Payload} {placement : Placement}

theorem execute_insert_of_ne_nil (h : s.select w.tree target = .ok nodes) (hne : nodes ≠ []) :
    s.execute w (.insert target anchor payload placement) = (.ok .alreadyApplied, w) := by
  refine execute_of_ends (d := ⟨w.tree, w.ids⟩) rfl ?_
  rw [ends_insert, h]
  refine ⟨?_, by rintro _ ⟨⟩⟩
  rintro _ ⟨⟩
  exact ⟨fun _ => ⟨rfl, rfl⟩, fun hnil => absurd hnil hne⟩

theorem execute_insert_of_nil (h : s.select w.tree target = .ok []) :
    s.execute w (.insert target anchor payload placement) ≠ (.ok .alreadyApplied, left) := by
  have ends : Ends (s.insert target anchor payload placement) ⟨w.tree, w.ids⟩
      (fun result _ => result ≠ .alreadyApplied) fun _ _ => True := by
    rw [ends_insert, h]
    refine ⟨?_, fun _ _ => trivial⟩
    rintro _ ⟨⟩
    simp [ends_prepare, ends_instantiate, ends_change]
  intro happly
  exact (edit_ends ends happly).1 .alreadyApplied rfl rfl

/-- What an insertion of a fragment does, `ensurePath` does as well, and then it looks whether the
target selects anything. -/
theorem ensurePath_of_insert (d : Draft) :
    Ends (s.insert target anchor (.fragment key) placement) d
      (fun result d' => result = .applied →
        ∀ found, s.select d'.tree target = .ok found →
          Ends (s.ensurePath target anchor key placement) d
            (fun r d'' => found ≠ [] ∧ r = .applied ∧ d'' = d')
            fun e _ => found = [] ∧ e = .ensureFailed target key)
      fun _ _ => True := by
  rw [ends_insert]
  refine ⟨?_, fun _ _ => trivial⟩
  intro nodes hnodes
  refine ⟨by rintro _ ⟨⟩, ?_⟩
  rintro rfl
  refine ⟨?_, fun _ _ => trivial⟩
  intro a ha
  rw [ends_prepare]
  refine ⟨?_, by rintro _ ⟨⟩⟩
  rintro _ ⟨⟩
  rw [ends_instantiate]
  refine ⟨?_, fun _ _ => trivial⟩
  intro f hf
  refine ⟨?_, fun _ _ _ => trivial⟩
  intro made ids hmade
  rw [ends_change]
  refine ⟨?_, fun _ _ => trivial⟩
  intro v hv _ found hfound
  -- each step of the second edit gives what the same step of the first has given
  rw [ends_ensurePath, hnodes, ha]
  refine ⟨?_, by rintro _ ⟨⟩⟩
  rintro _ ⟨⟩
  refine ⟨fun hne => absurd rfl hne, fun _ => ⟨?_, by rintro _ ⟨⟩⟩⟩
  rintro _ ⟨⟩
  rw [ends_instantiate, hf]
  refine ⟨?_, by rintro _ ⟨⟩⟩
  rintro _ ⟨⟩
  rw [hmade]
  refine ⟨?_, by rintro _ _ ⟨⟩⟩
  rintro _ _ ⟨⟩
  rw [ends_change, hv]
  refine ⟨?_, by rintro _ ⟨⟩⟩
  rintro _ ⟨⟩
  rw [hfound]
  refine ⟨?_, by rintro _ ⟨⟩⟩
  rintro _ ⟨⟩
  exact ⟨fun hnil => ⟨hnil, rfl⟩, fun hne => ⟨hne, rfl, rfl⟩⟩

/-- After an insertion its target selects what it selects anew, and nothing else. -/
theorem select_inserted (sound : s.registry.Sound) (wf : w.tree.WellFormed)
    (h : s.execute w (.insert target anchor payload placement) = (.ok .applied, left)) :
    ∃ p b found, s.Evaluates target p b ∧ s.select left.tree target = .ok found ∧
      ∀ n, n ∈ found ↔
        LeadsAnew w.tree left.tree b p.path.steps (.element Tree.documentId) n := by
  have wf' := wellFormed_of_execute sound wf h
  have wfd : (Draft.mk w.tree w.ids).tree.WellFormed := wf
  obtain ⟨hnil, _, grown⟩ :=
    (edit_ends (insert_grows sound wfd target anchor payload placement) h).1 .applied rfl rfl
  obtain ⟨p, b, evaluates, _, reads⟩ := select_reads sound hnil
  obtain ⟨_, mem⟩ := (reads w.tree wf).2 _ hnil
  obtain ⟨⟨found, hfound⟩, spec⟩ := reads _ wf'
  obtain ⟨_, mem'⟩ := spec found hfound
  refine ⟨p, b, found, evaluates, hfound, ?_⟩
  intro n
  refine ⟨?_, fun anew => (mem' n).2 (Selection.leads_of_anew _ anew)⟩
  intro hn
  by_contra old
  obtain ⟨n', hn', _⟩ := Selection.leads_of_not_anew grown.extends_.inherits wf wf' _
    (.element (Or.inl rfl)) ((mem' n).1 hn) old
  cases (mem n').2 hn'

/-- After an insertion was applied, its target selects exactly what it selects owing to the elements
that are new and to comparisons with texts that the insertion has changed. The same insertion finds
that it was applied if and only if that is anything, and then `ensurePath` would have done the same;
otherwise `ensurePath` would have failed. -/
theorem insert_again {document : Registry.Document}
    (compiled : Registry.compile document = .ok s.registry) (wf : w.tree.WellFormed) {index : Nat}
    {optional : Bool}
    (h : s.applyOperation w index ⟨.insert target anchor payload placement, optional⟩ =
      (.ok .applied, left)) :
    ∃ p b found, s.Evaluates target p b ∧ s.select left.tree target = .ok found ∧
      (∀ n, n ∈ found ↔
        LeadsAnew w.tree left.tree b p.path.steps (.element Tree.documentId) n) ∧
      (∀ index optional,
        (found ≠ [] → s.applyOperation left index
          ⟨.insert target anchor payload placement, optional⟩ = (.ok .alreadyApplied, left)) ∧
        (found = [] → (s.applyOperation left index
          ⟨.insert target anchor payload placement, optional⟩).1 ≠ .ok .alreadyApplied)) ∧
      ∀ key, payload = .fragment key →
        (found ≠ [] → s.execute w (.ensurePath target anchor key placement) =
          (.ok .applied, left)) ∧
        (found = [] → (s.execute w (.ensurePath target anchor key placement)).1 =
          .error (.ensureFailed target key)) := by
  have sound := Registry.sound_of_compile compiled
  have hexecute := (applyOperation_carried_iff (Or.inl rfl)).1 h
  obtain ⟨p, b, found, evaluates, hfound, mem⟩ := select_inserted sound wf hexecute
  refine ⟨p, b, found, evaluates, hfound, mem, ?_, ?_⟩
  · intro index optional
    refine ⟨?_, ?_⟩
    · intro hne
      exact (applyOperation_carried_iff (Or.inr rfl)).2 (execute_insert_of_ne_nil hfound hne)
    · rintro rfl again
      have hagain := (applyOperation_carried_iff (Or.inr rfl)).1 (Prod.ext again rfl)
      exact execute_insert_of_nil hfound hagain
  · rintro key rfl
    have hinsert : edit w (s.insert target anchor (.fragment key) placement) =
        (.ok .applied, left) := (execute_eq_edit rfl).symm.trans hexecute
    have hensure : s.execute w (.ensurePath target anchor key placement) =
        edit w (s.ensurePath target anchor key placement) := execute_eq_edit rfl
    have ends := (edit_ends (ensurePath_of_insert ⟨w.tree, w.ids⟩) hinsert).1 .applied rfl rfl
      found hfound
    rw [hensure]
    rcases he : edit w (s.ensurePath target anchor key placement) with ⟨e | r, left'⟩
    · obtain ⟨hnil, rfl⟩ := (edit_ends ends he).2 e rfl
      exact ⟨fun hne => absurd hnil hne, fun _ => rfl⟩
    · obtain ⟨hne, rfl, same⟩ := (edit_ends ends he).1 r rfl
      refine ⟨fun _ => ?_, fun hnil => absurd hnil hne⟩
      have package := (package_of_edit he).trans (package_of_edit hinsert).symm
      exact Prod.ext rfl
        (Workspace.ext (congrArg Draft.tree same) (congrArg Draft.ids same) package)

def insertItem : OperationRecord :=
  ⟨.insert "gap" "list" (.fragment "item") .append, false⟩

def twoItems : Workspace MemoryPackage :=
  (itemList.applyOperation oneItem 0 insertItem).2

theorem applyOperation_oneItem :
    itemList.applyOperation oneItem 0 insertItem = (.ok .applied, twoItems) := by
  have applied : (itemList.applyOperation oneItem 0 insertItem).1 = .ok .applied := by cbv
  exact Prod.ext applied rfl

theorem select_twoItems : itemList.select twoItems.tree "gap" = .ok [] := by
  cbv

/-- The item that is added is not what the target looks for, so that another one follows. -/
theorem insert_applied_twice :
    Registry.compile Registry.itemList = .ok itemList.registry ∧
    Xml.read "<list><item id='1'/></list>" = .ok oneItem.tree ∧
    Patch.issuesAgainst ⟨⟨"", none, none⟩, [insertItem]⟩ itemList.registry = [] ∧
    itemList.applyOperation oneItem 0 insertItem = (.ok .applied, twoItems) ∧
    itemList.select twoItems.tree "gap" = .ok [] ∧
    (itemList.applyOperation twoItems 1 insertItem).1 = .ok .applied ∧
    Xml.write (itemList.applyOperation twoItems 1 insertItem).2.tree =
      "<list><item id=\"1\"/><item id=\"2\"/><item id=\"3\"/></list>" := by
  have suits : Patch.issuesAgainst ⟨⟨"", none, none⟩, [insertItem]⟩ itemList.registry = [] := by
    cbv
  have again : (itemList.applyOperation twoItems 1 insertItem).1 = .ok .applied := by cbv
  have written : Xml.write (itemList.applyOperation twoItems 1 insertItem).2.tree =
      "<list><item id=\"1\"/><item id=\"2\"/><item id=\"3\"/></list>" := by cbv
  exact ⟨Registry.compile_itemList, read_oneItem, suits, applyOperation_oneItem, select_twoItems,
    again, written⟩

def emptyPair : Workspace MemoryPackage where
  tree := {
    nodes := #[⟨.document, none, [1]⟩, ⟨.element ⟨.plain "list", [], []⟩, some 0, [2]⟩,
      ⟨.element ⟨.plain "a", [], []⟩, some 1, [3]⟩,
      ⟨.element ⟨.plain "b", [], []⟩, some 2, []⟩]
    header := none }
  ids := .empty
  package := .empty

theorem read_emptyPair : Xml.read "<list><a><b/></a></list>" = .ok emptyPair.tree := by
  cbv

def insertOne : OperationRecord :=
  ⟨.insert "ones" "b" (.text "1") .append, false⟩

def filledPair : Workspace MemoryPackage :=
  (ones.applyOperation emptyPair 0 insertOne).2

/-- Where the insertion would be repeated, `ensurePath` fails. The text that makes the pair what the
target looks for is inserted once. -/
theorem insert_again_oneItem :
    (itemList.execute oneItem (.ensurePath "gap" "list" "item" .append)).1 =
      .error (.ensureFailed "gap" "item") ∧
    ones.applyOperation filledPair 1 insertOne = (.ok .alreadyApplied, filledPair) := by
  refine ⟨?_, ?_⟩
  · obtain ⟨_, _, found, _, hfound, _, _, ensure⟩ :=
      insert_again (s := itemList) Registry.compile_itemList (Xml.wellFormed_of_read read_oneItem)
        applyOperation_oneItem
    exact (ensure "item" rfl).2 (Except.ok.inj (hfound.symm.trans select_twoItems))
  · have applied : (ones.applyOperation emptyPair 0 insertOne).1 = .ok .applied := by cbv
    have inserted : ones.applyOperation emptyPair 0 insertOne = (.ok .applied, filledPair) :=
      Prod.ext applied rfl
    have selected : ones.select filledPair.tree "ones" = .ok [.element 2] := by cbv
    obtain ⟨_, _, found, _, hfound, _, again, _⟩ :=
      insert_again compile_ones (Xml.wellFormed_of_read read_emptyPair) inserted
    cases selected.symm.trans hfound
    exact (again 1 false).1 (List.cons_ne_nil _ _)

end PartPatch.Session
