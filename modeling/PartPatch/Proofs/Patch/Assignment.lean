import PartPatch.Proofs.Patch.Deletion

/-!
# What an assignment changes

A path selects an attribute by its place in the element, but a value is written to the first
attribute of a name. Both are the same attribute, since a path selects only the first of those that
have one meaning. The text of an element takes the place of all that is below it, and attaching it
never fails. In the outline of the document nothing else changes.
-/

namespace PartPatch

set_option autoImplicit false

namespace Element

variable {e : Element} {name : QName} {index : Nat} {a : Attribute} {value : String}

/-- The place of the first attribute that means the same as the name, or the one behind all. -/
def indexOf (e : Element) (name : QName) : Nat :=
  e.attributes.findIdx fun a => a.name.Matches name.localName name.namespaceUri

/-- The element with another value at a place among its attributes. -/
def withValue (e : Element) (index : Nat) (value : String) : Element :=
  { e with attributes := e.attributes.modify index fun a => { a with value } }

/-- The element with the value for the name: in the first attribute that means the same, and else in
a new one behind all others. -/
def ensuring (e : Element) (name : QName) (value : String) : Element :=
  if e.indexOf name < e.attributes.length then e.withValue (e.indexOf name) value
  else { e with attributes := e.attributes ++ [⟨name, value⟩] }

theorem setValue_eq (e : Element) (name : QName) (value : String) :
    { e with attributes := setValue name value e.attributes } = e.ensuring name value := by
  have written : ∀ attributes : List Attribute, setValue name value attributes =
      if attributes.findIdx (fun a => a.name.Matches name.localName name.namespaceUri) <
          attributes.length then
        attributes.modify (attributes.findIdx fun a =>
          a.name.Matches name.localName name.namespaceUri) fun a => { a with value }
      else attributes ++ [⟨name, value⟩] := by
    intro attributes
    induction attributes with
    | nil => rfl
    | cons a rest ih =>
      rw [setValue, List.findIdx_cons]
      by_cases h : a.name.Matches name.localName name.namespaceUri
      · simp [h]
      · simp only [h, if_false, decide_false, cond_false, List.length_cons,
          Nat.add_lt_add_iff_right, List.modify_succ_cons, List.cons_append, ih]
        split <;> rfl
  rw [ensuring, indexOf, written]
  split
  · rfl
  · rfl

/-- The value is where it was to be written. -/
theorem value_ensuring (e : Element) (name : QName) (value : String) :
    ((e.ensuring name value).attributes[e.indexOf name]?).map Attribute.value = some value := by
  rw [ensuring]
  split
  · next h =>
    rw [withValue, List.getElem?_modify_eq, List.getElem?_eq_getElem h]
    rfl
  · next h =>
    have behind : e.indexOf name = e.attributes.length :=
      Nat.le_antisymm List.findIdx_le_length (Nat.not_lt.1 h)
    rw [behind, List.getElem?_concat_length]
    rfl

/-- An attribute that a path selects is the first of its own meaning. -/
theorem indexOf_of_isFirst {bound : BoundName} (first : Selection.IsFirst e bound index)
    (h : e.attributes[index]? = some a) : e.indexOf a.name = index := by
  obtain ⟨⟨_, hc, names⟩, before⟩ := first
  cases h.symm.trans hc
  obtain ⟨hlt, hget⟩ := List.getElem?_eq_some_iff.1 h
  rw [indexOf, List.findIdx_eq hlt]
  refine ⟨by simp [hget, QName.matches_self], ?_⟩
  intro i hi
  have other := before i hi _ (List.getElem?_eq_getElem (Nat.lt_trans hi hlt))
  simp only [decide_eq_false_iff_not]
  intro same
  exact other ⟨same.1.trans names.1, same.2.trans names.2⟩

theorem ensuring_of_isFirst {bound : BoundName} (first : Selection.IsFirst e bound index)
    (h : e.attributes[index]? = some a) : e.ensuring a.name value = e.withValue index value := by
  obtain ⟨hlt, _⟩ := List.getElem?_eq_some_iff.1 h
  rw [ensuring, indexOf_of_isFirst first h, if_pos hlt]

end Element

namespace Outline

/-- The outlines with one element, or what is below it, changed. -/
def amend (x : NodeId) (element : Element → Element) (below : List Outline → List Outline) :
    List Outline → List Outline :=
  editAll fun id e children =>
    if id = x then [.element id (element e) (below children)] else [.element id e children]

/-- The outlines with the text in the element, at the given node, or the value in the attribute. -/
def assign (n : NodeRef) (value : String) (fresh : NodeId) : List Outline → List Outline :=
  match n with
  | .element x => amend x id fun _ => if value = "" then [] else [.text fresh value]
  | .attribute x index => amend x (fun e => e.withValue index value) id

end Outline

namespace Tree

variable {t u : Tree} {x : NodeId} {name : QName} {value : String} {g : Element → Element}

/-- Only one element of the document is changed. -/
theorem WellFormed.outline_amend (wf : t.WellFormed) (wfu : u.WellFormed)
    (helement : t.isElement x = true) {below : List Outline → List Outline}
    (elsewhere : ∀ y < t.size, y ≠ x → u.kind? y = t.kind? y ∧ u.children y = t.children y)
    (there : ∀ e, t.kind? x = some (.element e) → u.kind? x = some (.element (g e)))
    (content : u.outlineBelow x = below ((t.children x).flatMap u.outlineAt)) :
    u.outline = Outline.amend x g below t.outline := by
  refine wf.outline_eq_editAll (fun y => [y]) ?_ ?_ ?_
  · intro y hy hleaf
    have hne : y ≠ x := by
      rintro rfl
      rw [helement] at hleaf
      cases hleaf
    rw [List.flatMap_singleton]
    exact wf.outlineAt_of_leaf wfu hleaf (elsewhere y (wf.lt_size_of_attached hy) hne).1
  · intro y e hy he
    rw [List.flatMap_singleton, List.flatMap_singleton']
    by_cases hyx : y = x
    · subst hyx
      rw [if_pos rfl, wfu.outlineAt_of_element (there e he), content]
    · obtain ⟨kind, children⟩ := elsewhere y (wf.lt_size_of_attached hy) hyx
      rw [if_neg hyx, wfu.outlineAt_of_element (kind.trans he), outlineBelow, children]
  · rw [List.flatMap_singleton']
    exact (elsewhere _ wf.documentId_lt fun e => kind?_ne_document wf helement e.symm).2

theorem outline_modifyElement (wf : t.WellFormed) {e : Element}
    (he : t.kind? x = some (.element e)) {f : Element → Element} (same : f e = g e) :
    (t.modifyElement x f).outline = Outline.amend x g id t.outline := by
  apply wf.outline_amend (wf.modifyElement x f) (isElement_iff.2 ⟨e, he⟩)
  · intro y _ hy
    rw [kind?_modifyElement, if_neg hy, children_modifyElement]
    exact ⟨rfl, rfl⟩
  · intro e' he'
    cases he.symm.trans he'
    rw [kind?_modifyElement, if_pos rfl, he, ← same]
    rfl
  · rw [outlineBelow, children_modifyElement]
    rfl

/-- A text that is set stands in a new node below the element, where nothing else is left. -/
theorem setText_spec (wf : t.WellFormed) {text : String} (h : t.setText x text = .ok u) :
    u.header = t.header ∧ (∀ y < t.size, u.kind? y = t.kind? y) ∧
      (∀ y, y ≠ x → u.children y = t.children y) ∧
      u.children x = (if text = "" then [] else [t.size]) ∧
      (text ≠ "" → u.kind? t.size = some (.text text)) := by
  have cleared := cut_clear wf x
  unfold setText at h
  split at h
  · next hx =>
    have hxlt : x < t.size := by
      obtain ⟨e, he⟩ := isElement_iff.1 hx
      exact lt_size_of_kind? he
    split at h
    · next blank =>
      cases h
      refine ⟨cleared.header, fun y _ => cleared.kinds y, ?_, ?_, fun hne => absurd blank hne⟩
      · intro y hy
        rw [children_clear, if_neg hy]
      · rw [children_clear, if_pos rfl, if_pos blank]
    · next filled =>
      have hpushed : x < ((t.clear x).push (.text text)).1.size := by
        rw [size_push, size_clear]
        exact Nat.lt_succ_of_lt hxlt
      obtain ⟨position, hu⟩ : ∃ position, u =
          ((t.clear x).push (.text text)).1.link x position (t.clear x).size :=
        ⟨_, link_of_insertAt h⟩
      rw [hu]
      refine ⟨cleared.header, ?_, ?_, ?_, ?_⟩
      · intro y hy
        rw [kind?_link, kind?_push, size_clear, if_neg (Nat.ne_of_lt hy), kind?_clear]
      · intro y hy
        rw [children_link hpushed, if_neg hy, children_push, children_clear, if_neg hy]
      · rw [children_link hpushed, if_pos rfl, children_push, children_clear, if_pos rfl,
          if_neg filled, List.length_nil, Nat.min_zero, List.insertIdx_zero, size_clear]
      · intro _
        rw [kind?_link, kind?_push, size_clear, if_pos rfl]
  · cases h

theorem outline_setText (wf : t.WellFormed) (wfu : u.WellFormed) {text : String}
    (h : t.setText x text = .ok u) :
    u.outline = Outline.assign (.element x) text t.size t.outline := by
  obtain ⟨_, kinds, others, below, written⟩ := setText_spec wf h
  obtain ⟨helement, _⟩ := eq_of_setText h
  apply wf.outline_amend wfu helement
  · intro y hy hne
    exact ⟨kinds y hy, others y hne⟩
  · intro e he
    rw [kinds x (lt_size_of_kind? he), he]
    rfl
  · rw [outlineBelow, below]
    by_cases hblank : text = ""
    · rw [if_pos hblank, if_pos hblank]
      rfl
    · rw [if_neg hblank, if_neg hblank, List.flatMap_singleton, wfu.outlineAt_eq, written hblank]

end Tree

namespace Session

open Edit
open Selection (IsFirst)

variable {t u : Tree} {n : NodeRef} {s : Session} {d d' : Draft} {v target value attr : String}

/-- What is assigned to a selected node comes to stand there, and all else is kept. -/
theorem outline_assign (wf : t.WellFormed)
    (first : ∀ x index, n = .attribute x index →
      ∃ name e, t.element? x = some e ∧ IsFirst e name index)
    (h : assign t n v = .ok u) :
    u.header = t.header ∧ u.outline = Outline.assign n v t.size t.outline := by
  cases n with
  | element x =>
    obtain ⟨header, _⟩ := Tree.setText_spec wf h
    exact ⟨header, Tree.outline_setText wf (wellFormed_of_assign wf h) h⟩
  | «attribute» x index =>
    obtain ⟨name, e, he, first⟩ := first x index rfl
    simp only [assign] at h
    split at h
    · next a ha =>
      have hindex : e.attributes[index]? = some a := by
        rwa [Tree.attributeAt?, he] at ha
      have same : { e with attributes := setValue a.name v e.attributes } =
          e.withValue index v := by
        rw [e.setValue_eq, Element.ensuring_of_isFirst first hindex]
      rw [Tree.eq_of_setAttribute h]
      exact ⟨rfl, Tree.outline_modifyElement wf (Tree.element?_eq_some_iff.1 he) same⟩
    · cases h

/-- From one draft to the other the document has changed in one place as the outline tells, and the
value is what the node says afterwards. -/
structure Rewritten (d d' : Draft) (n : NodeRef) (v : String) (outline : List Outline) : Prop where
  once : (Outline.idsAll d.tree.outline).count n.elementId = 1
  outline : d'.tree.outline = outline
  value : d'.tree.stringValue n = v
  header : d'.tree.header = d.tree.header
  ids : d'.ids = d.ids

section

variable (sound : s.registry.Sound) (wf : d.tree.WellFormed)
include sound wf

theorem set_rewrites (target value : String) :
    Ends (s.set target value) d
      (fun result d' => result = .applied →
        ∃ n v, s.select d.tree target = .ok [n] ∧ s.substitute value = .ok v ∧ n.In d.tree ∧
          Rewritten d d' n v (Outline.assign n v d.tree.size d.tree.outline))
      fun _ _ => True := by
  rw [ends_set]
  refine ⟨?_, fun _ _ => trivial⟩
  intro n hn
  refine ⟨?_, fun _ _ => trivial⟩
  intro v hv
  refine ⟨by rintro _ ⟨⟩, ?_⟩
  intro _
  rw [ends_change]
  refine ⟨?_, fun _ _ => trivial⟩
  intro u hu _
  obtain ⟨attached, first⟩ := selected_of_selectOne sound wf hn
  have present := in_of_selectOne sound wf hn
  obtain ⟨header, outline⟩ := outline_assign wf first hu
  refine ⟨n, v, selectOne_eq_ok_iff.1 hn, hv, present, ?_, outline,
    stringValue_assign wf first hu, header, rfl⟩
  exact wf.count_idsAll_outline attached (Tree.kind?_ne_document wf (Tree.isElement_of_in present))

theorem ensureAttr_rewrites (target attr value : String) :
    Ends (s.ensureAttr target attr value) d
      (fun result d' => result = .applied →
        ∃ x e name v, s.select d.tree target = .ok [.element x] ∧ d.tree.element? x = some e ∧
          s.registry.attribute? attr = some name ∧ s.substitute value = .ok v ∧
          Rewritten d d' (.attribute x (e.indexOf name)) v
            (Outline.amend x (fun e => e.ensuring name v) id d.tree.outline))
      fun _ _ => True := by
  rw [ends_ensureAttr]
  refine ⟨?_, fun _ _ => trivial⟩
  intro x hx
  refine ⟨?_, fun _ => trivial⟩
  intro name hname
  refine ⟨?_, fun _ _ => trivial⟩
  intro v hv
  refine ⟨by rintro _ ⟨⟩, ?_⟩
  intro _
  rw [ends_change]
  refine ⟨?_, fun _ _ => trivial⟩
  intro u hu _
  obtain ⟨helement, attached⟩ := element_of_selectElement sound wf hx
  obtain ⟨e, he⟩ := Option.isSome_iff_exists.1 helement
  rw [selectElement_eq_ok_iff, selectOne_eq_ok_iff] at hx
  cases Tree.eq_of_setAttribute hu
  have written : (d.tree.modifyElement x fun e =>
      { e with attributes := setValue name v e.attributes }).element? x =
        some (e.ensuring name v) := by
    rw [Tree.element?_modifyElement, if_pos rfl, he, ← e.setValue_eq]
    rfl
  refine ⟨x, e, name, v, hx, he, hname, hv, ?_, ?_, ?_, rfl, rfl⟩
  · exact wf.count_idsAll_outline attached (Tree.kind?_ne_document wf helement)
  · exact Tree.outline_modifyElement wf (Tree.element?_eq_some_iff.1 he) (e.setValue_eq name v)
  · obtain ⟨a, ha, hvalue⟩ := Option.map_eq_some_iff.1 (e.value_ensuring name v)
    rw [Tree.stringValue, Tree.attributeAt?, written, Option.bind_some, ha]
    exact hvalue

end

variable {P : Type} [Package P] {w : Workspace P}

/-- An applied `set` changes nothing but the only node that its path selects: an attribute has the
value in its place, an element the text for all that was below it. An applied `ensureAttr` changes
nothing but the first attribute of the registry's name in the only element that is selected, or it
adds one behind all others. The node has the value afterwards. -/
theorem outline_of_assignment {document : Registry.Document}
    (compiled : Registry.compile document = .ok s.registry) (reached : s.Reached w) :
    (∀ index optional target value left,
      s.applyOperation w index ⟨.set target value, optional⟩ = (.ok .applied, left) →
      left.package = w.package ∧
        ∃ n v, s.select w.tree target = .ok [n] ∧ s.substitute value = .ok v ∧ n.In w.tree ∧
          Rewritten ⟨w.tree, w.ids⟩ ⟨left.tree, left.ids⟩ n v
            (Outline.assign n v w.tree.size w.tree.outline)) ∧
    ∀ index optional target attr value left,
      s.applyOperation w index ⟨.ensureAttr target attr value, optional⟩ = (.ok .applied, left) →
      left.package = w.package ∧
        ∃ x e name v, s.select w.tree target = .ok [.element x] ∧ w.tree.element? x = some e ∧
          s.registry.attribute? attr = some name ∧ s.substitute value = .ok v ∧
          Rewritten ⟨w.tree, w.ids⟩ ⟨left.tree, left.ids⟩ (.attribute x (e.indexOf name)) v
            (Outline.amend x (fun e => e.ensuring name v) id w.tree.outline) := by
  have sound := Registry.sound_of_compile compiled
  have wf : (Draft.mk w.tree w.ids).tree.WellFormed := reached.wellFormed sound
  constructor
  · intro index optional target value left h
    have hexecute := (applyOperation_carried_iff (Or.inl rfl)).1 h
    rw [execute_eq_edit rfl] at hexecute
    have ends := edit_ends (set_rewrites sound wf target value) hexecute
    exact ⟨package_of_edit hexecute, ends.1 .applied rfl rfl⟩
  · intro index optional target attr value left h
    have hexecute := (applyOperation_carried_iff (Or.inl rfl)).1 h
    rw [execute_eq_edit rfl] at hexecute
    have ends := edit_ends (ensureAttr_rewrites sound wf target attr value) hexecute
    exact ⟨package_of_edit hexecute, ends.1 .applied rfl rfl⟩

def remarkedItem : Element :=
  { markedItem with attributes := [⟨.plain "a", "0"⟩, mark "p" "9", mark "q" "2"] }

/-- The second mark is kept when the first one is given a value, be it as the selected one or as the
first of its name. A text takes the place of the lists. -/
theorem outline_of_assignment_markedLists :
    (∃ left, marked.applyOperation markedLists 0 ⟨.set "mark" "9", false⟩ =
        (.ok .applied, left) ∧
      left.tree.outline = [.element 1 remarkedItem listsBelow] ∧
      left.tree.stringValue (.attribute 1 1) = "9") ∧
    (∃ left, marked.applyOperation markedLists 0 ⟨.set "item" "t", false⟩ =
        (.ok .applied, left) ∧
      left.tree.outline = [.element 1 markedItem [.text 7 "t"]] ∧
      left.tree.stringValue (.element 1) = "t") ∧
    ∃ left, marked.applyOperation markedLists 0 ⟨.ensureAttr "item" "mark" "9", false⟩ =
        (.ok .applied, left) ∧
      left.tree.outline = [.element 1 remarkedItem listsBelow] ∧
      left.tree.stringValue (.attribute 1 1) = "9" := by
  have reached : marked.Reached markedLists := .start MemoryPackage.empty read_markedLists
  have marks : marked.select markedLists.tree "mark" = .ok [.attribute 1 1] := by cbv
  have items : marked.select markedLists.tree "item" = .ok [.element 1] := by cbv
  have name : marked.registry.attribute? "mark" = some ⟨some "m", "mark", some "urn:m"⟩ := by cbv
  have nine : marked.substitute "9" = .ok "9" := by cbv
  have text : marked.substitute "t" = .ok "t" := by cbv
  have outline : markedLists.tree.outline = [.element 1 markedItem listsBelow] := rfl
  have place : markedItem.indexOf ⟨some "m", "mark", some "urn:m"⟩ = 1 := by cbv
  have setMark : (marked.applyOperation markedLists 0 ⟨.set "mark" "9", false⟩).1 =
      .ok .applied := by cbv
  have setItem : (marked.applyOperation markedLists 0 ⟨.set "item" "t", false⟩).1 =
      .ok .applied := by cbv
  have ensured : (marked.applyOperation markedLists 0 ⟨.ensureAttr "item" "mark" "9", false⟩).1 =
      .ok .applied := by cbv
  obtain ⟨sets, ensures⟩ := outline_of_assignment compile_marked reached
  refine ⟨?_, ?_, ?_⟩
  · obtain ⟨_, n, v, hn, hv, _, rewritten⟩ := sets _ _ _ _ _ (Prod.ext setMark rfl)
    cases hn.symm.trans marks
    cases hv.symm.trans nine
    refine ⟨_, Prod.ext setMark rfl, ?_, rewritten.value⟩
    rw [rewritten.outline, outline]
    rfl
  · obtain ⟨_, n, v, hn, hv, _, rewritten⟩ := sets _ _ _ _ _ (Prod.ext setItem rfl)
    cases hn.symm.trans items
    cases hv.symm.trans text
    refine ⟨_, Prod.ext setItem rfl, ?_, rewritten.value⟩
    rw [rewritten.outline, outline]
    rfl
  · obtain ⟨_, x, e, q, v, hx, he, hq, hv, rewritten⟩ :=
      ensures _ _ _ _ _ _ (Prod.ext ensured rfl)
    cases hx.symm.trans items
    cases he
    cases hq.symm.trans name
    cases hv.symm.trans nine
    rw [place] at rewritten
    refine ⟨_, Prod.ext ensured rfl, ?_, rewritten.value⟩
    rw [rewritten.outline, outline]
    rfl

end Session

end PartPatch
