import PartPatch.Patch.Session
import PartPatch.Proofs.Selection
import PartPatch.Proofs.Tree.MirrorEdit

/-!
# What operations find in trees that mirror one another

A path selects paired nodes, or fails for the same reason, whatever the nodes are called in the two
trees. The numbers of identifiers are the same in both, so a fragment gets the same values.
-/

namespace PartPatch

set_option autoImplicit false

variable {v : View} {twin : NodeId → NodeId → Prop} {t u : Tree} {x y : NodeId}

/-- Paired elements, or attributes at the same place of paired elements. -/
inductive NodeRef.Twin (twin : NodeId → NodeId → Prop) : NodeRef → NodeRef → Prop where
  | element {x y : NodeId} (h : twin x y) : Twin twin (.element x) (.element y)
  | attribute {x y : NodeId} (h : twin x y) (index : Nat) :
    Twin twin (.attribute x index) (.attribute y index)

theorem View.names_attr (v : View) (name : BoundName) (a : Attribute) :
    name.Names (v.attr a).name ↔ name.Names a.name :=
  v.matches_name a.name _ _

namespace Tree.Mirrors

variable (m : t.Mirrors v twin u)
include m

theorem map_attributeAt? (h : twin x y) (index : Nat) :
    (t.attributeAt? x index).map v.attr = (u.attributeAt? y index).map v.attr := by
  rw [attributeAt?, attributeAt?]
  rcases m.element?_cases h with ⟨ht, hu⟩ | ⟨e, f, ht, hu, hv⟩
  · rw [ht, hu]
  · rw [ht, hu, Option.bind_some, Option.bind_some, ← List.getElem?_map, ← List.getElem?_map,
      v.map_attr_eq hv]

theorem map_attribute? (h : twin x y) (localName : String) (namespaceUri : Option String) :
    ((t.element? x).bind fun e => e.attribute? localName namespaceUri).map v.attr =
      ((u.element? y).bind fun f => f.attribute? localName namespaceUri).map v.attr := by
  have first : ∀ e : Element, (e.attribute? localName namespaceUri).map v.attr =
      (e.attributes.map v.attr).find? fun a => a.name.Matches localName namespaceUri := by
    intro e
    rw [Element.attribute?, List.find?_map]
    congr 2
    funext a
    exact (decide_eq_decide.2 (v.matches_name a.name _ _)).symm
  rcases m.element?_cases h with ⟨ht, hu⟩ | ⟨e, f, ht, hu, hv⟩
  · rw [ht, hu]
  · rw [ht, hu, Option.bind_some, Option.bind_some, first, first, v.map_attr_eq hv]

theorem value_attribute? (h : twin x y) (localName : String) (namespaceUri : Option String) :
    ((t.element? x).bind fun e => e.attribute? localName namespaceUri).map Attribute.value =
      ((u.element? y).bind fun f => f.attribute? localName namespaceUri).map Attribute.value := by
  have hvalue := congrArg (Option.map Attribute.value) (m.map_attribute? h localName namespaceUri)
  rwa [Option.map_map, Option.map_map] at hvalue

theorem stringValue {r r' : NodeRef} (h : NodeRef.Twin twin r r') :
    t.stringValue r = u.stringValue r' := by
  cases h with
  | element h => exact m.text h
  | «attribute» h index =>
    have value : ∀ (t : Tree) x, t.stringValue (.attribute x index) =
        (((t.attributeAt? x index).map v.attr).map Attribute.value).getD "" := by
      intro t x
      rw [Tree.stringValue]
      cases t.attributeAt? x index <;> rfl
    rw [value, value, m.map_attributeAt? h]

end Tree.Mirrors

/-! ## Selection -/

theorem isEmpty_eq_of_forall₂ {α β : Type} {R : α → β → Prop} {as : List α} {bs : List β}
    (h : List.Forall₂ R as bs) : as.isEmpty = bs.isEmpty := by
  cases h with
  | nil => rfl
  | cons _ _ => rfl

namespace Selection

variable {b : Binding} {nodes nodes' : List NodeRef}

section

variable (m : t.Mirrors v twin u)
include m

theorem along_mirrors (axis : Axis) (h : twin x y) :
    List.Forall₂ twin ((contextOf t b).along axis x) ((contextOf u b).along axis y) := by
  cases axis with
  | child => exact m.childElements h
  | descendant => exact m.descendantElements h

theorem admits_mirrors (wanted : Option BoundName) (h : twin x y) :
    (contextOf t b).admits wanted x = (contextOf u b).admits wanted y := by
  simp only [Context.admits, contextOf]
  rcases m.element?_cases h with ⟨ht, hu⟩ | ⟨e, f, ht, hu, hv⟩
  · rw [ht, hu]
  · rw [ht, hu]
    cases wanted with
    | none => rfl
    | some name =>
      have hname : v.name e.name = v.name f.name := congrArg Element.name hv
      exact decide_eq_decide.2 (View.matches_congr hname _ _)

omit m in
theorem elementIds_mirrors (h : List.Forall₂ (NodeRef.Twin twin) nodes nodes') :
    List.Forall₂ twin (nodes.filterMap NodeRef.element?) (nodes'.filterMap NodeRef.element?) := by
  refine List.rel_filterMap ?_ h
  intro r r' hr
  cases hr with
  | element h => exact .some h
  | «attribute» h index => exact .none

theorem elementStep_mirrors (axis : Axis) (test : NameTest)
    (h : List.Forall₂ (NodeRef.Twin twin) nodes nodes') :
    Agree (List.Forall₂ (NodeRef.Twin twin)) ((contextOf t b).elementStep axis test nodes)
      ((contextOf u b).elementStep axis test nodes') := by
  rw [Context.elementStep, Context.elementStep]
  refine Agree.of_eq.bind ?_
  rintro wanted _ _ _ rfl
  have reached : List.Forall₂ twin
      ((nodes.filterMap NodeRef.element?).flatMap fun x =>
        ((contextOf t b).along axis x).filter ((contextOf t b).admits wanted))
      ((nodes'.filterMap NodeRef.element?).flatMap fun y =>
        ((contextOf u b).along axis y).filter ((contextOf u b).admits wanted)) := by
    refine List.rel_flatMap (elementIds_mirrors h) ?_
    intro x y hxy
    refine List.rel_filter ?_ (along_mirrors m axis hxy)
    intro c d hcd
    exact Eq.congr_left (admits_mirrors m wanted hcd)
  refine List.rel_map (fun x y hxy => .element hxy) (List.rel_filter ?_ m.attachedNodes)
  intro x y hxy
  exact List.contains_iff_mem.trans ((m.mem_iff reached hxy).trans List.contains_iff_mem.symm)

theorem attributeStep_mirrors (symbol : String)
    (h : List.Forall₂ (NodeRef.Twin twin) nodes nodes') :
    Agree (List.Forall₂ (NodeRef.Twin twin)) ((contextOf t b).attributeStep symbol nodes)
      ((contextOf u b).attributeStep symbol nodes') := by
  simp only [Context.attributeStep, contextOf]
  cases b.attribute? symbol with
  | none => rfl
  | some name =>
    refine List.rel_filterMap ?_ (elementIds_mirrors h)
    intro x y hxy
    rcases m.element?_cases hxy with ⟨ht, hu⟩ | ⟨e, f, ht, hu, hv⟩
    · simp only [ht, hu]
      exact .none
    · have first : ∀ as : List Attribute,
          as.findIdx? (fun a => name.Names a.name) =
            (as.map v.attr).findIdx? fun a => name.Names a.name := by
        intro as
        rw [List.findIdx?_map]
        congr 1
        funext a
        exact (decide_eq_decide.2 (v.names_attr name a)).symm
      simp only [ht, hu, Option.bind_eq_bind, Option.bind_some]
      rw [first e.attributes, first f.attributes, v.map_attr_eq hv]
      cases (f.attributes.map v.attr).findIdx? fun a => name.Names a.name with
      | none => exact .none
      | some index => exact .some (.attribute hxy index)

theorem satisfied_mirrors (equals : Option String)
    (h : List.Forall₂ (NodeRef.Twin twin) nodes nodes') :
    Agree Eq ((contextOf t b).satisfied equals nodes) ((contextOf u b).satisfied equals nodes') := by
  simp only [Context.satisfied, contextOf]
  cases equals with
  | none => exact congrArg not (isEmpty_eq_of_forall₂ h)
  | some name =>
    simp only
    cases b.value? name with
    | none => rfl
    | some expected =>
      change List.any _ _ = List.any _ _
      induction h with
      | nil => rfl
      | cons hr _ ih => rw [List.any_cons, List.any_cons, ih, m.stringValue hr]

end

mutual

theorem step_mirrors (m : t.Mirrors v twin u) : ∀ (s : Step) {nodes nodes' : List NodeRef},
    List.Forall₂ (NodeRef.Twin twin) nodes nodes' →
    Agree (List.Forall₂ (NodeRef.Twin twin)) ((contextOf t b).step s nodes)
      ((contextOf u b).step s nodes')
  | .element axis test, nodes, nodes', h => by
    rw [Context.step, Context.step]
    exact elementStep_mirrors m axis test h
  | .attribute symbol, nodes, nodes', h => by
    rw [Context.step, Context.step]
    exact attributeStep_mirrors m symbol h
  | .predicate path equals, nodes, nodes', h => by
    rw [Context.step, Context.step]
    refine Agree.filterM ?_ h
    intro r r' hr
    refine (walk_mirrors m path (.cons hr .nil)).bind ?_
    intro selected selected' _ _ hselected
    exact satisfied_mirrors m equals hselected

theorem walk_mirrors (m : t.Mirrors v twin u) : ∀ (path : List Step) {nodes nodes' : List NodeRef},
    List.Forall₂ (NodeRef.Twin twin) nodes nodes' →
    Agree (List.Forall₂ (NodeRef.Twin twin)) ((contextOf t b).walk path nodes)
      ((contextOf u b).walk path nodes')
  | [], nodes, nodes', h => by
    rw [Context.walk, Context.walk]
    exact h
  | s :: path, [], [], .nil => by
    rw [Context.walk, Context.walk]
    exact .nil
  | s :: path, r :: nodes, r' :: nodes', h => by
    have hstep := step_mirrors m s h
    simp only [Context.walk, List.isEmpty_cons, Bool.false_eq_true, if_false]
    generalize (contextOf t b).step s (r :: nodes) = reached at hstep
    generalize (contextOf u b).step s (r' :: nodes') = reached' at hstep
    cases reached with
    | error e =>
      cases reached' with
      | error e' => exact hstep
      | ok nodes' => exact hstep.elim
    | ok nodes =>
      cases reached' with
      | error e' => exact hstep.elim
      | ok nodes' => exact walk_mirrors m path hstep

end

end Selection

namespace Session

variable (m : t.Mirrors v twin u) (s : Session)
include m

theorem select_mirrors (key : String) :
    Agree (List.Forall₂ (NodeRef.Twin twin)) (s.select t key) (s.select u key) := by
  rw [select, select]
  cases s.registry.path? key with
  | none => rfl
  | some p =>
    refine Agree.of_eq.bind ?_
    rintro b _ _ _ rfl
    refine Agree.of_eq.bind ?_
    rintro b _ _ _ rfl
    exact ((Selection.walk_mirrors m p.path.steps
      (.cons (.element m.document) .nil)).mapError _).mapError _

theorem selectOne_mirrors (key : String) :
    Agree (NodeRef.Twin twin) (s.selectOne t key) (s.selectOne u key) := by
  refine (select_mirrors m s key).bind ?_
  intro nodes nodes' _ _ h
  cases h with
  | nil => rfl
  | cons hr hrest =>
    cases hrest with
    | nil => exact hr
    | cons _ hrest =>
      simp only [List.length_cons, hrest.length_eq]
      rfl

theorem selectElement_mirrors (key : String) :
    Agree twin (s.selectElement t key) (s.selectElement u key) := by
  refine (selectOne_mirrors m s key).bind ?_
  intro r r' _ _ h
  cases h with
  | element h => exact h
  | «attribute» h index => rfl

end Session

/-! ## Identifiers -/

theorem View.covers_attr (v : View) (space : IdentifierSpace) (a : Attribute) :
    space.covers (v.attr a) = space.covers a := by
  rw [IdentifierSpace.covers, IdentifierSpace.covers]
  congr 1
  funext name
  exact decide_eq_decide.2 (v.matches_name a.name _ _)

/-- All attributes of the document look the same. -/
theorem Tree.Mirrors.attributes (m : t.Mirrors v twin u) :
    (((t.descendantElements documentId).filterMap t.element?).flatMap
        Element.attributes).map v.attr =
      (((u.descendantElements documentId).filterMap u.element?).flatMap
        Element.attributes).map v.attr := by
  have h := m.descendantElements m.document
  generalize t.descendantElements documentId = xs at h
  generalize u.descendantElements documentId = ys at h
  induction h with
  | nil => rfl
  | cons hxy _ ih =>
    rcases m.element?_cases hxy with ⟨ht, hu⟩ | ⟨e, f, ht, hu, hv⟩
    · rw [List.filterMap_cons_none ht, List.filterMap_cons_none hu, ih]
    · rw [List.filterMap_cons_some ht, List.filterMap_cons_some hu, List.flatMap_cons,
        List.flatMap_cons, List.map_append, List.map_append, ih, v.map_attr_eq hv]

theorem Tree.Mirrors.numbersIn (m : t.Mirrors v twin u) (space : IdentifierSpace) :
    space.numbersIn t = space.numbersIn u := by
  have seen : ∀ as : List Attribute,
      (as.filter space.covers).filterMap (fun a => space.parse? a.value) =
        ((as.map v.attr).filter space.covers).filterMap fun a => space.parse? a.value := by
    intro as
    have hcovers : space.covers ∘ v.attr = space.covers := funext (v.covers_attr space)
    rw [List.filter_map, hcovers, List.filterMap_map]
    rfl
  rw [IdentifierSpace.numbersIn, IdentifierSpace.numbersIn, seen, m.attributes, ← seen]

namespace Fragment

variable (m : t.Mirrors v twin u)
include m

theorem allocateAll_mirrors (r : Registry) (fragment : String)
    (identifiers : List (String × String)) (a : Allocator) :
    allocateAll r fragment t identifiers a = allocateAll r fragment u identifiers a := by
  have allocate : ∀ (a : Allocator) (space : IdentifierSpace),
      a.allocate space t = a.allocate space u := by
    intro a space
    rw [Allocator.allocate, Allocator.allocate, Allocator.previous, Allocator.previous,
      IdentifierSpace.greatestIn, IdentifierSpace.greatestIn, m.numbersIn]
  induction identifiers generalizing a with
  | nil => rfl
  | cons i rest ih => simp only [allocateAll, allocate, ih]

theorem values_mirrors (f : Fragment) (tokens : Token.Resolver) (a : Allocator) (r : Registry) :
    f.values tokens t a r = f.values tokens u a r := by
  simp only [values, allocateAll_mirrors m]

end Fragment

end PartPatch
