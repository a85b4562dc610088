import PartPatch.Proofs.Patch.Converge
import PartPatch.Proofs.Tree.Outline

/-!
# What a removal leaves

A removal goes through the selected nodes while it takes them away. So an element may be below one
that is gone already, and an attribute is looked up by its place in a list from which others were
taken. But no two of the nodes belong to one element. Therefore each is what it was when it was
selected, and what is left does not depend on the order.
-/

namespace PartPatch

set_option autoImplicit false

/-- Whether the node is an attribute of the element that has the same meaning. -/
def NodeRef.strikes (n : NodeRef) (id : NodeId) (e : Element) (b : Attribute) : Bool :=
  match n with
  | .element _ => false
  | .attribute owner index => owner == id && (e.attributes[index]?).any fun a =>
      decide (b.name.Matches a.name.localName a.name.namespaceUri)

/-- The element without its attributes that have the meaning of a selected one. -/
def Element.without (e : Element) (id : NodeId) (nodes : List NodeRef) : Element :=
  { e with attributes := e.attributes.filter fun b => !nodes.any fun n => n.strikes id e b }

def NodeKind.without (kind : NodeKind) (id : NodeId) (nodes : List NodeRef) : NodeKind :=
  match kind with
  | .element e => .element (e.without id nodes)
  | kind => kind

/-- The outlines without the selected elements and attributes. -/
def Outline.without (nodes : List NodeRef) : List Outline → List Outline :=
  editAll fun id e below =>
    if .element id ∈ nodes then [] else [.element id (e.without id nodes) below]

section

variable {e : Element} {id : NodeId} {n : NodeRef} {nodes order : List NodeRef} {kind : NodeKind}

theorem NodeRef.strikes_of_ne (h : n.elementId ≠ id) (b : Attribute) :
    n.strikes id e b = false := by
  cases n with
  | element x => rfl
  | «attribute» x index =>
    have hne : (x == id) = false := beq_false_of_ne h
    rw [NodeRef.strikes, hne, Bool.false_and]

theorem any_strikes_of_notMem (h : id ∉ nodes.map NodeRef.elementId) (b : Attribute) :
    (nodes.any fun n => n.strikes id e b) = false := by
  rw [List.any_eq_false]
  intro n hn
  have hne : n.elementId ≠ id := fun same => h (List.mem_map.2 ⟨n, hn, same⟩)
  rw [NodeRef.strikes_of_ne hne]
  exact Bool.false_ne_true

/-- An element that no node belongs to is kept as it is. -/
theorem Element.without_of_notMem (h : id ∉ nodes.map NodeRef.elementId) :
    e.without id nodes = e := by
  have all : e.attributes.filter (fun b => !nodes.any fun n => n.strikes id e b) =
      e.attributes := by
    rw [List.filter_eq_self]
    intro b _
    rw [any_strikes_of_notMem h]
    rfl
  rw [Element.without, all]

/-- What is taken away for one node after the other is what is taken away for all of them. -/
theorem Element.without_cons (h : n.elementId ∉ nodes.map NodeRef.elementId) :
    (e.without id [n]).without id nodes = e.without id (n :: nodes) := by
  by_cases hid : n.elementId = id
  · subst hid
    rw [Element.without_of_notMem h]
    simp only [Element.without, List.any_cons, any_strikes_of_notMem h, List.any_nil]
  · have single : id ∉ [n].map NodeRef.elementId := by
      intro hmem
      exact hid (List.mem_singleton.1 hmem).symm
    rw [Element.without_of_notMem single]
    simp only [Element.without, List.any_cons, NodeRef.strikes_of_ne hid, Bool.false_or]

theorem Element.without_congr (h : ∀ n, n ∈ order ↔ n ∈ nodes) :
    e.without id order = e.without id nodes := by
  have same : ∀ b, (order.any fun n => n.strikes id e b) = nodes.any fun n => n.strikes id e b := by
    intro b
    rw [Bool.eq_iff_iff, List.any_eq_true, List.any_eq_true]
    simp only [h]
  simp only [Element.without, same]

/-- Of an attribute all of its meaning are taken away. -/
theorem Element.without_attribute {index : Nat} {a : Attribute}
    (h : e.attributes[index]? = some a) :
    e.without id [.attribute id index] = { e with
      attributes := e.attributes.filter fun b =>
        ¬ b.name.Matches a.name.localName a.name.namespaceUri } := by
  simp [Element.without, NodeRef.strikes, h]

/-- Without the attribute nothing is taken away. -/
theorem Element.without_missing {index : Nat} (h : e.attributes[index]? = none) :
    e.without id [.attribute id index] = e := by
  simp [Element.without, NodeRef.strikes, h]

theorem Element.without_element {x : NodeId} : e.without id [.element x] = e := by
  simp [Element.without, NodeRef.strikes]

theorem NodeKind.without_of_notMem (h : id ∉ nodes.map NodeRef.elementId) :
    kind.without id nodes = kind := by
  cases kind with
  | element e => rw [NodeKind.without, Element.without_of_notMem h]
  | _ => rfl

theorem NodeKind.without_cons (h : n.elementId ∉ nodes.map NodeRef.elementId) :
    (kind.without id [n]).without id nodes = kind.without id (n :: nodes) := by
  cases kind with
  | element e => exact congrArg NodeKind.element (Element.without_cons h)
  | _ => rfl

theorem NodeKind.without_congr (h : ∀ n, n ∈ order ↔ n ∈ nodes) :
    kind.without id order = kind.without id nodes := by
  cases kind with
  | element e => exact congrArg NodeKind.element (Element.without_congr h)
  | _ => rfl

end

namespace Tree

variable {t u v : Tree} {n : NodeRef} {nodes order : List NodeRef} {x : NodeId}

/-- Nothing but these fields makes up a tree. -/
theorem eq_of_fields (header : u.header = t.header) (kinds : ∀ x, u.kind? x = t.kind? x)
    (parents : ∀ x, u.parent? x = t.parent? x) (children : ∀ x, u.children x = t.children x) :
    u = t := by
  have nodes : u.nodes = t.nodes := by
    apply Array.ext_getElem?
    intro x
    have hkind := kinds x
    have hparent := parents x
    have hchildren := children x
    simp only [kind?, parent?, children_eq, node?] at hkind hparent hchildren
    cases hu : u.nodes[x]? with
    | none =>
      cases ht : t.nodes[x]? with
      | none => rfl
      | some m =>
        rw [hu, ht] at hkind
        cases hkind
    | some k =>
      cases ht : t.nodes[x]? with
      | none =>
        rw [hu, ht] at hkind
        cases hkind
      | some m =>
        rw [hu, ht] at hkind hparent hchildren
        obtain ⟨_, _, _⟩ := k
        obtain ⟨_, _, _⟩ := m
        cases hkind
        cases hparent
        cases hchildren
        rfl
  cases u
  cases t
  cases nodes
  cases header
  rfl

/-- A node of which nothing is taken away. -/
theorem map_without_eq (h : ∀ e, t.kind? x = some (.element e) → e.without x nodes = e) :
    t.kind? x = (t.kind? x).map fun kind => kind.without x nodes := by
  cases hkind : t.kind? x with
  | none => rfl
  | some kind =>
    cases kind with
    | element e =>
      rw [Option.map_some, NodeKind.without, h e hkind]
    | _ => rfl

/-- The second tree is the first without the nodes; no node of the tree has got another name. -/
structure Removed (t : Tree) (nodes : List NodeRef) (u : Tree) : Prop where
  header : u.header = t.header
  kinds : ∀ x, u.kind? x = (t.kind? x).map fun kind => kind.without x nodes
  parents : ∀ x, u.parent? x = if .element x ∈ nodes then none else t.parent? x
  children : ∀ x, u.children x = (t.children x).filter fun c => .element c ∉ nodes

namespace Removed

theorem nil (t : Tree) : t.Removed [] t where
  header := rfl
  kinds x := by simp [NodeKind.without_of_notMem]
  parents x := by simp
  children x := by simp

theorem cons (h : t.Removed [n] v) (h' : v.Removed nodes u)
    (alone : n.elementId ∉ nodes.map NodeRef.elementId) : t.Removed (n :: nodes) u where
  header := h'.header.trans h.header
  kinds x := by
    rw [h'.kinds, h.kinds, Option.map_map]
    congr 1
    funext kind
    exact NodeKind.without_cons alone
  parents x := by
    rw [h'.parents, h.parents]
    simp only [List.mem_cons, List.not_mem_nil, or_false]
    by_cases hn : NodeRef.element x = n
    · simp [hn]
    · simp [hn]
  children x := by
    rw [h'.children, h.children, List.filter_filter]
    apply List.filter_congr
    intro c _
    simp [Bool.and_comm, not_or]

/-- What is left depends on nothing but which nodes are removed. -/
theorem unique (h : t.Removed nodes u) (h' : t.Removed order v)
    (same : ∀ n, n ∈ order ↔ n ∈ nodes) : v = u := by
  apply eq_of_fields
  · rw [h.header, h'.header]
  · intro x
    rw [h.kinds, h'.kinds]
    congr 1
    funext kind
    exact NodeKind.without_congr same
  · intro x
    simp only [h.parents, h'.parents, same]
  · intro x
    simp only [h.children, h'.children, same]

/-! ## The outline of what is left -/

theorem flatMap_children (h : t.Removed nodes u) (x : NodeId) :
    u.children x = (t.children x).flatMap fun c => if .element c ∈ nodes then [] else [c] := by
  rw [h.children]
  induction t.children x with
  | nil => rfl
  | cons c cs ih =>
    rw [List.filter_cons, List.flatMap_cons, ih]
    by_cases hc : NodeRef.element c ∈ nodes
    · simp [hc]
    · simp [hc]

theorem outline (h : t.Removed nodes u) (present : ∀ n ∈ nodes, n.In t) (wf : t.WellFormed)
    (wfu : u.WellFormed) : u.outline = Outline.without nodes t.outline := by
  refine wf.outline_eq_editAll (fun x => if .element x ∈ nodes then [] else [x]) ?_ ?_
    (h.flatMap_children documentId)
  · intro x _ hleaf
    have hx : .element x ∉ nodes := by
      intro hmem
      have helement : t.isElement x = true := present _ hmem
      rw [hleaf] at helement
      cases helement
    rw [if_neg hx, List.flatMap_singleton]
    apply wf.outlineAt_of_leaf wfu hleaf
    rw [h.kinds, ← map_without_eq]
    intro e he
    rw [isElement_iff.2 ⟨e, he⟩] at hleaf
    cases hleaf
  · intro x e _ he
    by_cases hx : .element x ∈ nodes
    · simp only [if_pos hx, List.flatMap_nil]
    · have kept : u.kind? x = some (.element (e.without x nodes)) := by
        rw [h.kinds, he]
        rfl
      simp only [if_neg hx, List.flatMap_singleton]
      rw [wfu.outlineAt_of_element kept, outlineBelow, h.flatMap_children x]

end Removed

end Tree

namespace Session

variable {P : Type} [Package P] {s : Session} {w left : Workspace P} {t u : Tree} {n : NodeRef}
  {nodes : List NodeRef} {target : String}

theorem removed_detach (wf : t.WellFormed) (x : NodeId) : t.Removed [.element x] (t.detach x) where
  header := (Tree.cut_detach wf x).header
  kinds y := by
    rw [Tree.kind?_detach]
    apply Tree.map_without_eq
    intro e _
    exact Element.without_element
  parents y := by
    rw [Tree.parent?_detach]
    simp
  children y := by
    rw [Tree.children_detach wf]
    simp

theorem without_elsewhere {x y index : Nat} (h : y ≠ x) (e : Element) :
    e.without y [.attribute x index] = e := by
  apply Element.without_of_notMem
  intro hmem
  exact h (List.mem_singleton.1 hmem)

theorem removed_of_missing {x index : Nat} (h : t.attributeAt? x index = none) :
    t.Removed [.attribute x index] t := by
  refine ⟨rfl, ?_, by simp, by simp⟩
  intro y
  apply Tree.map_without_eq
  intro e he
  by_cases hy : y = x
  · subst hy
    apply Element.without_missing
    rwa [Tree.attributeAt?, Tree.element?_eq_some_iff.2 he] at h
  · exact without_elsewhere hy e

theorem removed_removeAttribute {x index : Nat} {a : Attribute}
    (h : t.attributeAt? x index = some a) :
    t.Removed [.attribute x index]
      (t.removeAttribute x a.name.localName a.name.namespaceUri).1 := by
  obtain ⟨e, he, hindex⟩ := Option.bind_eq_some_iff.1 h
  simp only [Tree.removeAttribute, he]
  refine ⟨rfl, ?_, by simp [Tree.parent?_modifyElement], by simp [Tree.children_modifyElement]⟩
  intro y
  rw [Tree.kind?_modifyElement]
  by_cases hy : y = x
  · subst hy
    rw [if_pos rfl, Tree.element?_eq_some_iff.1 he]
    exact congrArg (fun e => some (NodeKind.element e)) (Element.without_attribute hindex).symm
  · rw [if_neg hy]
    apply Tree.map_without_eq
    intro e _
    exact without_elsewhere hy e

theorem removed_removeNode (wf : t.WellFormed) (n : NodeRef) :
    t.Removed [n] (removeNode t n) := by
  cases n with
  | element x => exact removed_detach wf x
  | «attribute» x index =>
    simp only [removeNode]
    split
    · next a ha => exact removed_removeAttribute ha
    · next ha => exact removed_of_missing ha

/-- Each of the nodes is removed as it was selected, since none of those before it belongs to the
same element. -/
theorem removed_removeNodes (wf : t.WellFormed) (alone : (nodes.map NodeRef.elementId).Nodup) :
    t.Removed nodes (nodes.foldl removeNode t) := by
  induction nodes generalizing t with
  | nil => exact .nil t
  | cons n nodes ih =>
    obtain ⟨hn, alone⟩ := List.nodup_cons.1 alone
    exact (removed_removeNode wf n).cons (ih (wellFormed_removeNode wf n) alone) hn

/-- An applied removal leaves the document without all of the selected elements, also those inside
one another, and without the attributes that have the meaning of a selected one. In whatever order
the nodes are removed, the tree that is left is the same. -/
theorem outline_of_removal {document : Registry.Document}
    (compiled : Registry.compile document = .ok s.registry) (reached : s.Reached w) {index : Nat}
    {optional : Bool}
    (h : s.applyOperation w index ⟨.remove target, optional⟩ = (.ok .applied, left)) :
    ∃ nodes, s.select w.tree target = .ok nodes ∧ nodes ≠ [] ∧
      left.tree.outline = Outline.without nodes w.tree.outline ∧
      left.tree.header = w.tree.header ∧ left.ids = w.ids ∧ left.package = w.package ∧
      ∀ order : List NodeRef, order.Perm nodes → order.foldl removeNode w.tree = left.tree := by
  have sound := Registry.sound_of_compile compiled
  have wf := reached.wellFormed sound
  obtain ⟨nodes, hnodes, hne, rfl⟩ :=
    exists_select_of_remove ((applyOperation_carried_iff (Or.inl rfl)).1 h)
  obtain ⟨p, b, _, formed, reads⟩ := select_reads sound hnodes
  obtain ⟨ordered, mem⟩ := (reads w.tree wf).2 _ hnodes
  have alone : (nodes.map NodeRef.elementId).Nodup := by
    apply List.Nodup.map_on _ ordered.nodup
    intro m hm n hn same
    exact Selection.eq_of_leads formed ((mem m).1 hm) ((mem n).1 hn) same
  have present : ∀ n ∈ nodes, n.In w.tree := by
    intro n hn
    exact Selection.in_of_leads_document wf formed ((mem n).1 hn)
  have removed := removed_removeNodes wf alone
  refine ⟨nodes, hnodes, hne, removed.outline present wf (wellFormed_removeNodes wf nodes),
    removed.header, rfl, rfl, ?_⟩
  intro order perm
  have alone' := (perm.map NodeRef.elementId).nodup_iff.2 alone
  exact removed.unique (removed_removeNodes wf alone') fun n => perm.mem_iff

/-! ## Attributes of one name -/

def markedDocument : Registry.Document where
  metadata := ⟨"", none, none⟩
  namespaces := .ofList [("m", "urn:m")]
  elements := .ofList [("list", .short "list"), ("item", .short "item")]
  attributes := .ofList [("mark", .short "m:mark")]
  identifiers := .empty
  values := .empty
  paths := .ofList [("list", "//list"), ("item", "//item"), ("mark", "//item/@mark")]
  fragments := .empty
  parts := .empty

def marks : Registry where
  document := markedDocument
  elements := .ofList [("list", .plain "list"), ("item", .plain "item")]
  attributes := .ofList [("mark", ⟨some "m", "mark", some "urn:m"⟩)]
  identifiers := .empty
  paths := .ofList [("list", ⟨"list", "//list", ⟨[.element .descendant (.named "list")]⟩⟩),
    ("item", ⟨"item", "//item", ⟨[.element .descendant (.named "item")]⟩⟩),
    ("mark", ⟨"mark", "//item/@mark",
      ⟨[.element .descendant (.named "item"), .attribute "mark"]⟩⟩)]
  fragments := .empty

def marked : Session where
  registry := marks
  tokens := fun _ => none
  allOptional := false

theorem resolved_markedDocument : markedDocument.resolved = marks := by
  cbv

theorem compile_marked : Registry.compile markedDocument = .ok marked.registry := by
  rw [Registry.compile_eq_ok_iff]
  refine ⟨?_, resolved_markedDocument⟩
  cbv

def mark (qualifier value : String) : Attribute :=
  ⟨⟨some qualifier, "mark", some "urn:m"⟩, value⟩

/-- An item with two marks under different prefixes, in which lists stand inside one another. -/
def markedItem : Element where
  name := .plain "item"
  attributes := [⟨.plain "a", "0"⟩, mark "p" "1", mark "q" "2"]
  declarations := [⟨some "p", "urn:m"⟩, ⟨some "q", "urn:m"⟩]

def markedLists : Workspace MemoryPackage where
  tree := {
    nodes := #[⟨.document, none, [1]⟩, ⟨.element markedItem, some 0, [2, 3, 6]⟩,
      ⟨.text "x", some 1, []⟩, ⟨.element ⟨.plain "list", [], []⟩, some 1, [4, 5]⟩,
      ⟨.text "y", some 3, []⟩, ⟨.element ⟨.plain "list", [], []⟩, some 3, []⟩,
      ⟨.text "z", some 1, []⟩]
    header := none }
  ids := .empty
  package := .empty

def listsBelow : List Outline :=
  [.text 2 "x", .element 3 ⟨.plain "list", [], []⟩ [.text 4 "y",
    .element 5 ⟨.plain "list", [], []⟩ []], .text 6 "z"]

theorem read_markedLists :
    Xml.read ("<item a='0' p:mark='1' q:mark='2' xmlns:p='urn:m' xmlns:q='urn:m'>" ++
      "x<list>y<list/></list>z</item>") = .ok markedLists.tree := by
  cbv

/-- The inner list goes with the outer one, and both marks go though one of them is selected. -/
theorem outline_of_removal_markedLists :
    (∃ left, marked.applyOperation markedLists 0 ⟨.remove "list", false⟩ = (.ok .applied, left) ∧
      left.tree.outline = [.element 1 markedItem [.text 2 "x", .text 6 "z"]] ∧
      [.element 5, .element 3].foldl removeNode markedLists.tree = left.tree) ∧
    ∃ left, marked.applyOperation markedLists 0 ⟨.remove "mark", false⟩ = (.ok .applied, left) ∧
      left.tree.outline =
        [.element 1 { markedItem with attributes := [⟨.plain "a", "0"⟩] } listsBelow] := by
  have reached : marked.Reached markedLists := .start MemoryPackage.empty read_markedLists
  have lists : marked.select markedLists.tree "list" = .ok [.element 3, .element 5] := by cbv
  have marks : marked.select markedLists.tree "mark" = .ok [.attribute 1 1] := by cbv
  have unlisted : (marked.applyOperation markedLists 0 ⟨.remove "list", false⟩).1 =
      .ok .applied := by cbv
  have unmarked : (marked.applyOperation markedLists 0 ⟨.remove "mark", false⟩).1 =
      .ok .applied := by cbv
  constructor
  · obtain ⟨nodes, hnodes, _, outline, _, _, _, order⟩ :=
      outline_of_removal compile_marked reached (Prod.ext unlisted rfl)
    cases hnodes.symm.trans lists
    exact ⟨_, Prod.ext unlisted rfl, outline, order _ (List.Perm.swap _ _ _)⟩
  · obtain ⟨nodes, hnodes, _, outline, _⟩ :=
      outline_of_removal compile_marked reached (Prod.ext unmarked rfl)
    cases hnodes.symm.trans marks
    exact ⟨_, Prod.ext unmarked rfl, outline⟩

end Session

end PartPatch
