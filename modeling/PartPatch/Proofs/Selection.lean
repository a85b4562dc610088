import Mathlib
import PartPatch.Proofs.Tree.Order
import PartPatch.Proofs.Xml.Reader
import PartPatch.Selection

/-!
# What a path selects

A path relates nodes to nodes: a child step relates a node to its child elements, a descendant step
to all elements below it, an attribute step an element to the first attribute of the name, and a
predicate a node to itself if its own path leads somewhere. Evaluation goes from step to step with
a whole list of nodes. It gives the nodes that the document is related to, in document order.
-/

namespace PartPatch

set_option autoImplicit false

/-- The place of a node among those of one element: the element, then its attributes. -/
def NodeRef.place : NodeRef → Nat
  | .element _ => 0
  | .attribute _ index => index + 1

/-- The first node precedes the second in document order. -/
def NodeRef.Before (t : Tree) (m n : NodeRef) : Prop :=
  t.position m.elementId < t.position n.elementId ∨
    m.elementId = n.elementId ∧ m.place < n.place

/-- The step has a value in the binding wherever it has a symbol or variable. -/
def Binding.Binds (b : Binding) : Step → Prop
  | .element _ (.named symbol) => ∃ name, b.element? symbol = some name
  | .attribute symbol => ∃ name, b.attribute? symbol = some name
  | .predicate _ (some name) => ∃ value, b.value? name = some value
  | _ => True

/-- All symbols and variables of the steps have values, those inside predicates included. -/
def Binding.BindsAll (b : Binding) (path : List Step) : Prop :=
  ∀ s ∈ Step.nestedAll path, b.Binds s

namespace Selection

/-- The axis leads from the first node to the second. -/
def Along (t : Tree) : Axis → NodeId → NodeId → Prop
  | .child => t.Parent
  | .descendant => t.Above

/-- The element has the name that the test asks for. -/
def Passes (b : Binding) (e : Element) : NameTest → Prop
  | .any => True
  | .named symbol => ∃ name, b.element? symbol = some name ∧ name.Names e.name

/-- The first attribute of the name stands at the place. -/
def IsFirst (e : Element) (name : BoundName) (index : Nat) : Prop :=
  (∃ a, e.attributes[index]? = some a ∧ name.Names a.name) ∧
    ∀ i < index, ∀ a, e.attributes[i]? = some a → ¬ name.Names a.name

mutual

/-- The step relates the first node to the second. -/
def StepLeads (t : Tree) (b : Binding) : Step → NodeRef → NodeRef → Prop
  | .element axis test, m, n =>
    ∃ x y e, m = .element x ∧ n = .element y ∧ Along t axis x y ∧ t.element? y = some e ∧
      Passes b e test
  | .attribute symbol, m, n =>
    ∃ x e name index, m = .element x ∧ n = .attribute x index ∧ t.element? x = some e ∧
      b.attribute? symbol = some name ∧ IsFirst e name index
  | .predicate path equals, m, n =>
    n = m ∧ ∃ k, Leads t b path m k ∧
      ∀ name, equals = some name → b.value? name = some (t.stringValue k)

/-- The steps relate the first node to the second, one after the other. -/
def Leads (t : Tree) (b : Binding) : List Step → NodeRef → NodeRef → Prop
  | [], m, n => n = m
  | s :: path, m, n => ∃ k, StepLeads t b s m k ∧ Leads t b path k n

end

/-- The nodes stand in document order, none of them twice, below the document. -/
structure Ordered (t : Tree) (nodes : List NodeRef) : Prop where
  attached : ∀ n ∈ nodes, t.Attached n.elementId
  increasing : nodes.Pairwise (NodeRef.Before t)

theorem Ordered.sublist {t : Tree} {nodes kept : List NodeRef} (h : Ordered t nodes)
    (sub : kept.Sublist nodes) : Ordered t kept :=
  ⟨fun n hn => h.attached n (sub.subset hn), h.increasing.sublist sub⟩

theorem ordered_singleton {t : Tree} {n : NodeRef} (h : t.Attached n.elementId) :
    Ordered t [n] := by
  refine ⟨?_, List.pairwise_singleton _ _⟩
  intro m hm
  rwa [List.mem_singleton.1 hm]

theorem not_before_self (t : Tree) (n : NodeRef) : ¬ n.Before t n := by
  rintro (h | ⟨_, h⟩)
  · exact Nat.lt_irrefl _ h
  · exact Nat.lt_irrefl _ h

theorem Ordered.nodup {t : Tree} {nodes : List NodeRef} (h : Ordered t nodes) :
    nodes.Nodup := by
  apply List.Pairwise.imp _ h.increasing
  intro m n hb e
  rw [e] at hb
  exact not_before_self t n hb

/-- The context in which a path is evaluated on a tree. -/
def contextOf (t : Tree) (b : Binding) : Context :=
  ⟨t, t.attachedNodes, b⟩

variable {t : Tree} {b : Binding} {nodes : List NodeRef}

theorem mem_elementIds {x : NodeId} :
    x ∈ nodes.filterMap NodeRef.element? ↔ .element x ∈ nodes := by
  rw [List.mem_filterMap]
  constructor
  · rintro ⟨n, hn, e⟩
    cases n with
    | element y =>
      rw [← Option.some.inj e]
      exact hn
    | «attribute» y i => simp [NodeRef.element?] at e
  · intro h
    exact ⟨_, h, rfl⟩

/-! ## Element steps -/

theorem mem_along_iff (wf : t.WellFormed) {axis : Axis} {x y : NodeId} :
    y ∈ (contextOf t b).along axis x ↔ Along t axis x y ∧ t.isElement y = true := by
  cases axis with
  | child =>
    rw [Along, Tree.Parent, ← wf.mem_children_iff]
    exact Tree.mem_childElements_iff
  | descendant => exact wf.mem_descendantElements_iff

theorem attached_of_along (wf : t.WellFormed) {axis : Axis} {x y : NodeId} (hx : t.Attached x)
    (h : Along t axis x y) : t.Attached y := by
  cases axis with
  | child => exact wf.attached_of_mem_children hx ((wf.mem_children_iff x y).2 h)
  | descendant => exact Relation.ReflTransGen.trans hx (Tree.Above.atOrAbove h)

theorem wanted_eq_ok {axis : Axis} {test : NameTest} (h : b.Binds (.element axis test)) :
    ∃ wanted, (contextOf t b).wanted test = .ok wanted ∧ ∀ y,
      (contextOf t b).admits wanted y = true ↔
        ∃ e, t.element? y = some e ∧ Passes b e test := by
  cases test with
  | any =>
    refine ⟨none, rfl, fun y => ?_⟩
    cases he : t.element? y <;> simp [Context.admits, contextOf, he, Passes]
  | named symbol =>
    obtain ⟨name, hname⟩ := h
    refine ⟨some name, ?_, fun y => ?_⟩
    · simp [Context.wanted, contextOf, hname]
    · cases he : t.element? y <;> simp [Context.admits, contextOf, he, Passes, hname]

theorem elementStep_spec (wf : t.WellFormed) {axis : Axis} {test : NameTest}
    (h : b.Binds (.element axis test)) (ordered : Ordered t nodes) :
    ∃ reached, (contextOf t b).elementStep axis test nodes = .ok reached ∧ Ordered t reached ∧
      ∀ n, n ∈ reached ↔ ∃ m ∈ nodes, StepLeads t b (.element axis test) m n := by
  obtain ⟨wanted, hw, admits⟩ := wanted_eq_ok (t := t) h
  let found := (nodes.filterMap NodeRef.element?).flatMap fun x =>
    ((contextOf t b).along axis x).filter ((contextOf t b).admits wanted)
  have mem_found : ∀ y, y ∈ found ↔ ∃ x, .element x ∈ nodes ∧ Along t axis x y ∧
      ∃ e, t.element? y = some e ∧ Passes b e test := by
    intro y
    simp only [found, List.mem_flatMap, mem_elementIds, List.mem_filter, admits]
    refine exists_congr fun x => and_congr_right fun _ => ?_
    rw [mem_along_iff wf]
    constructor
    · rintro ⟨⟨ha, _⟩, he⟩
      exact ⟨ha, he⟩
    · rintro ⟨ha, e, he, hp⟩
      exact ⟨⟨ha, Option.isSome_iff_exists.2 ⟨e, he⟩⟩, e, he, hp⟩
  refine ⟨(t.attachedNodes.filter found.contains).map .element, ?_, ⟨?_, ?_⟩, ?_⟩
  · rw [Context.elementStep, hw]
    rfl
  · intro n hn
    obtain ⟨y, hy, rfl⟩ := List.mem_map.1 hn
    rw [List.mem_filter, wf.attachedNodes_eq, wf.mem_preorder_iff] at hy
    exact hy.1
  · rw [List.pairwise_map, wf.attachedNodes_eq]
    exact (wf.pairwise_position.imp fun hlt => Or.inl hlt).filter _
  · intro n
    simp only [List.mem_map, List.mem_filter, List.contains_iff_mem, mem_found,
      wf.attachedNodes_eq, wf.mem_preorder_iff]
    constructor
    · rintro ⟨y, ⟨_, x, hx, ha, e, he, hp⟩, rfl⟩
      exact ⟨_, hx, x, y, e, rfl, rfl, ha, he, hp⟩
    · rintro ⟨_, hx, x, y, e, rfl, rfl, ha, he, hp⟩
      exact ⟨y, ⟨attached_of_along wf (ordered.attached _ hx) ha, x, hx, ha, e, he, hp⟩, rfl⟩

/-! ## Attribute steps -/

theorem findIdx?_eq_some_iff {e : Element} {name : BoundName} {index : Nat} :
    (e.attributes.findIdx? fun a => name.Names a.name) = some index ↔ IsFirst e name index := by
  rw [List.findIdx?_eq_some_iff_getElem]
  constructor
  · rintro ⟨hlt, hfound, hbefore⟩
    refine ⟨⟨_, List.getElem?_eq_getElem hlt, of_decide_eq_true hfound⟩, ?_⟩
    intro i hi a ha hname
    obtain ⟨hi', rfl⟩ := List.getElem?_eq_some_iff.1 ha
    exact hbefore i hi (decide_eq_true hname)
  · rintro ⟨⟨a, ha, hname⟩, hbefore⟩
    obtain ⟨hlt, rfl⟩ := List.getElem?_eq_some_iff.1 ha
    refine ⟨hlt, decide_eq_true hname, ?_⟩
    intro i hi hfound
    exact hbefore i hi _ (List.getElem?_eq_getElem _) (of_decide_eq_true hfound)

theorem position_lt_of_before {x y : NodeId}
    (h : (NodeRef.element x).Before t (.element y)) : t.position x < t.position y := by
  rcases h with h | ⟨_, h⟩
  · exact h
  · exact absurd h (Nat.lt_irrefl _)

theorem attributeStep_spec {symbol : String} (h : b.Binds (.attribute symbol))
    (ordered : Ordered t nodes) :
    ∃ reached, (contextOf t b).attributeStep symbol nodes = .ok reached ∧ Ordered t reached ∧
      ∀ n, n ∈ reached ↔ ∃ m ∈ nodes, StepLeads t b (.attribute symbol) m n := by
  obtain ⟨name, hname⟩ := h
  let first : NodeId → Option NodeRef := fun x => do
    let e ← t.element? x
    let index ← e.attributes.findIdx? fun a => name.Names a.name
    return .attribute x index
  have first_iff : ∀ x n, first x = some n ↔
      ∃ e index, t.element? x = some e ∧ IsFirst e name index ∧ n = .attribute x index := by
    intro x n
    simp only [first, Option.bind_eq_bind, Option.bind_eq_some_iff, findIdx?_eq_some_iff,
      Option.pure_def, Option.some.injEq]
    constructor
    · rintro ⟨e, he, index, hindex, rfl⟩
      exact ⟨e, index, he, hindex, rfl⟩
    · rintro ⟨e, index, he, hindex, rfl⟩
      exact ⟨e, he, index, hindex, rfl⟩
  refine ⟨(nodes.filterMap NodeRef.element?).filterMap first, ?_, ⟨?_, ?_⟩, ?_⟩
  · rw [Context.attributeStep, contextOf, hname]
  · intro n hn
    obtain ⟨x, hx, hfirst⟩ := List.mem_filterMap.1 hn
    obtain ⟨e, index, _, _, rfl⟩ := (first_iff x n).1 hfirst
    exact ordered.attached (.element x) (mem_elementIds.1 hx)
  · rw [List.pairwise_filterMap, List.pairwise_filterMap]
    apply List.Pairwise.imp _ ordered.increasing
    rintro m n hb x hx y hy k hk l hl
    obtain ⟨_, i, _, _, rfl⟩ := (first_iff x k).1 hk
    obtain ⟨_, j, _, _, rfl⟩ := (first_iff y l).1 hl
    cases m with
    | «attribute» _ _ => simp [NodeRef.element?] at hx
    | element _ =>
      cases n with
      | «attribute» _ _ => simp [NodeRef.element?] at hy
      | element _ =>
        rw [← Option.some.inj hx, ← Option.some.inj hy]
        exact Or.inl (position_lt_of_before hb)
  · intro n
    simp only [List.mem_filterMap (f := first), mem_elementIds, first_iff]
    constructor
    · rintro ⟨x, hx, e, index, he, hfirst, rfl⟩
      exact ⟨_, hx, x, e, name, index, rfl, rfl, he, hname, hfirst⟩
    · rintro ⟨_, hx, x, e, name', index, rfl, rfl, he, hname', hfirst⟩
      rw [Option.some.inj (hname.symm.trans hname')]
      exact ⟨x, hx, e, index, he, hfirst, rfl⟩

/-! ## Predicates, and whole paths -/

theorem filterAuxM_eq_ok {α ε : Type} {f : α → Except ε Bool} {p : α → Bool} {xs : List α}
    (h : ∀ x ∈ xs, f x = .ok (p x)) (acc : List α) :
    xs.filterAuxM f acc = .ok ((xs.filter p).reverse ++ acc) := by
  induction xs generalizing acc with
  | nil => rfl
  | cons x xs ih =>
    have hx := h x List.mem_cons_self
    have hxs := ih fun y hy => h y (List.mem_cons_of_mem x hy)
    rw [List.filterAuxM, hx]
    change xs.filterAuxM f (cond (p x) (x :: acc) acc) = _
    rw [hxs]
    cases hp : p x <;> simp [hp]

theorem filterM_eq_ok {α ε : Type} {f : α → Except ε Bool} {p : α → Bool} {xs : List α}
    (h : ∀ x ∈ xs, f x = .ok (p x)) : xs.filterM f = .ok (xs.filter p) := by
  rw [List.filterM, filterAuxM_eq_ok h]
  simp [pure, Except.pure, bind, Except.bind]

theorem satisfied_eq_ok {path : List Step} {equals : Option String} (selected : List NodeRef)
    (h : b.Binds (.predicate path equals)) :
    ∃ answer, (contextOf t b).satisfied equals selected = .ok answer ∧
      (answer = true ↔ ∃ k ∈ selected,
        ∀ name, equals = some name → b.value? name = some (t.stringValue k)) := by
  cases equals with
  | none =>
    refine ⟨!selected.isEmpty, rfl, ?_⟩
    cases selected <;> simp
  | some name =>
    obtain ⟨value, hvalue⟩ := h
    refine ⟨selected.any fun k => t.stringValue k == value, ?_, ?_⟩
    · simp [Context.satisfied, contextOf, hvalue]
    · simp [hvalue, eq_comm (a := value)]

theorem bindsAll_cons {s : Step} {path : List Step} :
    b.BindsAll (s :: path) ↔ (∀ s' ∈ s.nested, b.Binds s') ∧ b.BindsAll path := by
  simp only [Binding.BindsAll, Step.nestedAll, List.forall_mem_append]

mutual

theorem step_spec (wf : t.WellFormed) : ∀ (s : Step) {nodes : List NodeRef},
    (∀ s' ∈ s.nested, b.Binds s') → Ordered t nodes →
    ∃ reached, (contextOf t b).step s nodes = .ok reached ∧ Ordered t reached ∧
      ∀ n, n ∈ reached ↔ ∃ m ∈ nodes, StepLeads t b s m n
  | .element axis test, nodes, h, ordered => by
    rw [Context.step]
    exact elementStep_spec wf (h _ List.mem_cons_self) ordered
  | .attribute symbol, nodes, h, ordered => by
    rw [Context.step]
    exact attributeStep_spec (h _ List.mem_cons_self) ordered
  | .predicate path equals, nodes, h, ordered => by
    have hpath : b.BindsAll path := fun s' hs' => h s' (List.mem_cons_of_mem _ hs')
    have holds : ∀ m ∈ nodes, ∃ answer,
        (do (contextOf t b).satisfied equals (← (contextOf t b).walk path [m])) = .ok answer ∧
          (answer = true ↔ ∃ k, Leads t b path m k ∧
            ∀ name, equals = some name → b.value? name = some (t.stringValue k)) := by
      intro m hm
      obtain ⟨selected, hwalk, _, mem⟩ :=
        walk_spec wf path hpath (ordered_singleton (ordered.attached m hm))
      obtain ⟨answer, hanswer, iff⟩ :=
        satisfied_eq_ok (t := t) selected (h _ List.mem_cons_self)
      refine ⟨answer, by rw [hwalk]; exact hanswer, ?_⟩
      simpa [mem] using iff
    choose! answer hanswer iff using holds
    refine ⟨nodes.filter answer, ?_, ordered.sublist List.filter_sublist, ?_⟩
    · rw [Context.step]
      exact filterM_eq_ok hanswer
    · intro n
      simp only [List.mem_filter, StepLeads]
      constructor
      · rintro ⟨hn, hholds⟩
        exact ⟨n, hn, rfl, (iff n hn).1 hholds⟩
      · rintro ⟨m, hm, rfl, hholds⟩
        exact ⟨hm, (iff _ hm).2 hholds⟩

theorem walk_spec (wf : t.WellFormed) : ∀ (path : List Step) {nodes : List NodeRef},
    b.BindsAll path → Ordered t nodes →
    ∃ reached, (contextOf t b).walk path nodes = .ok reached ∧ Ordered t reached ∧
      ∀ n, n ∈ reached ↔ ∃ m ∈ nodes, Leads t b path m n
  | [], nodes, _, ordered => by
    refine ⟨nodes, by rw [Context.walk], ordered, ?_⟩
    simp [Leads]
  | s :: path, [], _, ordered => by
    refine ⟨[], by simp [Context.walk], ordered, ?_⟩
    simp
  | s :: path, m :: nodes, h, ordered => by
    obtain ⟨hs, hpath⟩ := bindsAll_cons.1 h
    obtain ⟨between, hstep, ordered', mem⟩ := step_spec wf s hs ordered
    obtain ⟨reached, hwalk, ordered'', mem'⟩ := walk_spec wf path hpath ordered'
    refine ⟨reached, ?_, ordered'', ?_⟩
    · rw [Context.walk, hstep]
      exact hwalk
    · intro n
      rw [mem']
      constructor
      · rintro ⟨k, hk, hkn⟩
        obtain ⟨m', hm', hmk⟩ := (mem k).1 hk
        exact ⟨m', hm', k, hmk, hkn⟩
      · rintro ⟨m', hm', k, hmk, hkn⟩
        exact ⟨k, (mem k).2 ⟨m', hm', hmk⟩, hkn⟩

end

theorem select_eq_ok (p : NamedPath) (wf : t.WellFormed) (h : b.BindsAll p.path.steps) :
    ∃ selected, p.select t b = .ok selected ∧ Ordered t selected ∧
      ∀ n, n ∈ selected ↔ Leads t b p.path.steps (.element Tree.documentId) n := by
  obtain ⟨selected, hwalk, ordered, mem⟩ :=
    walk_spec wf p.path.steps h
      (ordered_singleton (n := .element Tree.documentId) t.attached_document)
  refine ⟨selected, ?_, ordered, ?_⟩
  · rw [contextOf] at hwalk
    rw [NamedPath.select, hwalk]
    rfl
  · intro n
    simp [mem]

/-- What a path selects is what its steps lead to from the document, in document order and without
repetition. -/
theorem select_spec (p : NamedPath) (wf : t.WellFormed) (h : b.BindsAll p.path.steps) :
    ∃ selected, p.select t b = .ok selected ∧
      (∀ n, n ∈ selected ↔ Leads t b p.path.steps (.element Tree.documentId) n) ∧
      selected.Pairwise (NodeRef.Before t) ∧ selected.Nodup := by
  obtain ⟨selected, hselect, ordered, mem⟩ := select_eq_ok p wf h
  exact ⟨selected, hselect, mem, ordered.increasing, ordered.nodup⟩

def nestedItems : Tree where
  nodes := #[⟨.document, none, [1]⟩, ⟨.element ⟨.plain "root", [], []⟩, some 0, [2, 4]⟩,
    ⟨.element ⟨.plain "item", [], []⟩, some 1, [3]⟩,
    ⟨.element ⟨.plain "item", [⟨.plain "id", "1"⟩], []⟩, some 2, []⟩,
    ⟨.element ⟨.plain "item", [], []⟩, some 1, []⟩]
  header := none

/-- Descendants of elements that lie within each other, of which a predicate keeps some. -/
def itemBelowAny : NamedPath where
  name := "item"
  source := "//*//item[@id = $wanted]"
  path := ⟨[.element .descendant .any, .element .descendant (.named "item"),
    .predicate [.attribute "id"] (some "wanted")]⟩

def wantedItem : Binding where
  elements := [("item", ⟨"item", ""⟩)]
  attributes := [("id", ⟨"id", ""⟩)]
  values := [("wanted", "1")]
  pending := []

theorem select_spec_nested : nestedItems.WellFormed ∧
    wantedItem.BindsAll itemBelowAny.path.steps ∧
    itemBelowAny.select nestedItems wantedItem = .ok [.element 3] ∧
    ∀ n, n ∈ [NodeRef.element 3] ↔
      Leads nestedItems wantedItem itemBelowAny.path.steps (.element Tree.documentId) n := by
  have read : Xml.read "<root><item><item id='1'/></item><item/></root>" = .ok nestedItems := by
    cbv
  have wf := Xml.wellFormed_of_read read
  have binds : wantedItem.BindsAll itemBelowAny.path.steps := by
    simp [Binding.BindsAll, Binding.Binds, itemBelowAny, wantedItem, Step.nestedAll, Step.nested,
      Binding.element?, Binding.attribute?, Binding.value?]
  have hselect : itemBelowAny.select nestedItems wantedItem = .ok [.element 3] := by cbv
  obtain ⟨selected, h, mem, _⟩ := select_spec itemBelowAny wf binds
  cases h.symm.trans hselect
  exact ⟨wf, binds, hselect, mem⟩

end Selection

end PartPatch
