import PartPatch.Proofs.Fragment.Rendering
import PartPatch.Proofs.Patch.Converge
import PartPatch.Proofs.Tree.Outline

/-!
# What an insertion adds

The anchor of an insertion is an element that a path has selected, but its place is counted among
all nodes below its parent, texts and comments included. So it has to be shown that the new node
comes to stand right beside the anchor, or as first or last of what is below it. In the outline of
the document nothing else changes.
-/

namespace PartPatch

set_option autoImplicit false

namespace Placement

section

variable {α β : Type}

/-- What stands in the place of the anchor: the anchor, with the new beside it or not. -/
def around : Placement → α → α → List α
  | .before, new, anchor => [new, anchor]
  | .after, new, anchor => [anchor, new]
  | .prepend, _, anchor | .append, _, anchor => [anchor]

/-- What stands below the anchor: what stood there, with the new among it or not. -/
def inside : Placement → α → List α → List α
  | .before, _, below | .after, _, below => below
  | .prepend, new, below => new :: below
  | .append, new, below => below ++ [new]

theorem flatMap_around {g : α → List β} {node anchor : α} {new old : β} (hnode : g node = [new])
    (hanchor : g anchor = [old]) (placement : Placement) :
    (placement.around node anchor).flatMap g = placement.around new old := by
  cases placement <;> simp [around, hnode, hanchor]

theorem flatMap_inside {g : α → List β} {node : α} {new : β} (hnode : g node = [new])
    (placement : Placement) (below : List α) :
    (placement.inside node below).flatMap g = placement.inside new (below.flatMap g) := by
  cases placement <;> simp [inside, hnode]

end

variable {node anchor x : NodeId} {xs : List NodeId} {placement : Placement}

/-- What stands in the place of a node once the new one was placed. -/
def stand (placement : Placement) (node anchor x : NodeId) : List NodeId :=
  if x = anchor then placement.around node x else [x]

theorem stand_of_ne (h : x ≠ anchor) : placement.stand node anchor x = [x] :=
  if_neg h

theorem flatMap_stand_of_notMem (h : anchor ∉ xs) :
    xs.flatMap (placement.stand node anchor) = xs := by
  have single : ∀ x ∈ xs, placement.stand node anchor x = [x] := by
    intro x hx
    apply stand_of_ne
    rintro rfl
    exact h hx
  rw [List.flatMap_congr single, List.flatMap_singleton']

/-- Nothing comes to stand beside the anchor. -/
theorem flatMap_stand_below (h : placement = .prepend ∨ placement = .append) (xs : List NodeId) :
    xs.flatMap (placement.stand node anchor) = xs := by
  have single : placement.stand node anchor = fun x => [x] := by
    funext x
    rcases h with rfl | rfl
    · exact ite_self [x]
    · exact ite_self [x]
  rw [single, List.flatMap_singleton']

/-- The places that are counted from the anchor are those beside it. -/
theorem insertIdx_idxOf? (distinct : xs.Nodup) {position : Nat}
    (h : xs.idxOf? anchor = some position) (node : NodeId) :
    xs.insertIdx position node = xs.flatMap (stand .before node anchor) ∧
      xs.insertIdx (position + 1) node = xs.flatMap (stand .after node anchor) := by
  induction xs generalizing position with
  | nil => cases h
  | cons x xs ih =>
    obtain ⟨hx, distinct⟩ := List.nodup_cons.1 distinct
    rw [List.idxOf?_cons] at h
    by_cases e : x = anchor
    · subst e
      rw [if_pos (beq_self_eq_true x)] at h
      cases h
      simp [stand, around, flatMap_stand_of_notMem hx]
    · rw [if_neg (by simpa using e)] at h
      obtain ⟨before, hbefore, rfl⟩ := Option.map_eq_some_iff.1 h
      obtain ⟨first, second⟩ := ih distinct hbefore
      rw [List.flatMap_cons, List.flatMap_cons, stand_of_ne e, stand_of_ne e,
        List.insertIdx_succ_cons, List.insertIdx_succ_cons, first, second]
      exact ⟨rfl, rfl⟩

end Placement

/-- The outlines with a new one at its place relative to the anchor. -/
def Outline.insert (placement : Placement) (anchor : NodeId) (new : Outline) :
    List Outline → List Outline :=
  editAll fun id e below =>
    if id = anchor then placement.around new (.element id e (placement.inside new below))
    else [.element id e below]

/-! ## Placing a node -/

namespace Session

open Edit

variable {t u v : Tree} {a node p : NodeId} {placement : Placement}

theorem link_of_place (h : place u a node placement = .ok v) :
    ∃ p position, v = u.link p position node := by
  obtain ⟨p, position, _, h⟩ := insertAt_of_place h
  exact ⟨p, position, Tree.link_of_insertAt h⟩

theorem place?_eq_some {position : Nat} (h : u.place? a = some (p, position)) :
    u.Parent p a ∧ (u.children p).idxOf? a = some position := by
  unfold Tree.place? at h
  split at h
  · cases h
  · next q hq =>
    obtain ⟨_, hposition, e⟩ := Option.map_eq_some_iff.1 h
    cases e
    exact ⟨hq, hposition⟩

/-- The children of the parent are those with the new node beside the anchor, and no other node has
the anchor as its child. -/
theorem children_beside (wfu : u.WellFormed) (hp : u.Parent p a) {position : Nat}
    (h : (u.children p).insertIdx (min position (u.children p).length) node =
      (u.children p).flatMap (placement.stand node a)) (x : NodeId) :
    (u.link p position node).children x = (u.children x).flatMap (placement.stand node a) := by
  rw [Tree.children_link (wfu.lt_size_of_parent hp)]
  split
  · next hx => rw [hx, h]
  · next hx =>
    symm
    apply Placement.flatMap_stand_of_notMem
    intro hmem
    exact hx (Tree.parent_unique ((wfu.mem_children_iff x a).1 hmem) hp)

theorem children_place (wfu : u.WellFormed) (ha : a < u.size)
    (h : place u a node placement = .ok v) (x : NodeId) :
    v.children x = if x = a then placement.inside node
        ((u.children x).flatMap (placement.stand node a))
      else (u.children x).flatMap (placement.stand node a) := by
  cases placement with
  | before =>
    simp only [place, Tree.insertBefore] at h
    split at h
    · cases h
    · next p position hplace =>
      obtain ⟨hp, hposition⟩ := place?_eq_some hplace
      obtain ⟨hlt, _⟩ := List.idxOf?_eq_some_iff.1 hposition
      rw [Tree.link_of_insertAt h, Placement.inside, ite_self]
      apply children_beside wfu hp
      rw [Nat.min_eq_left (Nat.le_of_lt hlt)]
      exact (Placement.insertIdx_idxOf? (wfu.nodup_children p) hposition node).1
  | after =>
    simp only [place, Tree.insertAfter] at h
    split at h
    · cases h
    · next p position hplace =>
      obtain ⟨hp, hposition⟩ := place?_eq_some hplace
      obtain ⟨hlt, _⟩ := List.idxOf?_eq_some_iff.1 hposition
      rw [Tree.link_of_insertAt h, Placement.inside, ite_self]
      apply children_beside wfu hp
      rw [Nat.min_eq_left hlt]
      exact (Placement.insertIdx_idxOf? (wfu.nodup_children p) hposition node).2
  | prepend =>
    rw [Tree.link_of_insertAt h, Tree.children_link ha,
      Placement.flatMap_stand_below (Or.inl rfl), Nat.zero_min, List.insertIdx_zero]
    rfl
  | append =>
    rw [Tree.link_of_insertAt h, Tree.children_link ha,
      Placement.flatMap_stand_below (Or.inr rfl)]
    split
    · next hx => rw [hx, Nat.min_self, List.insertIdx_length_self, Placement.inside]
    · rfl

/-- What is old has kept its kind, and the children are those it had, with the new node at its
place. -/
theorem extends_of_place (wf : t.WellFormed) (planted : t.Planted u node)
    (attached : t.Attached a) (h : place u a node placement = .ok v) :
    t.Extends v ∧ ∀ x < t.size, v.children x =
      if x = a then placement.inside node ((t.children x).flatMap (placement.stand node a))
      else (t.children x).flatMap (placement.stand node a) := by
  constructor
  · obtain ⟨p, position, rfl⟩ := link_of_place h
    exact planted.extends_.link planted.top_lt (Nat.le_of_eq planted.top_eq.symm) p position
  · intro x hx
    have hau := Nat.lt_of_lt_of_le (wf.lt_size_of_attached attached) planted.extends_.size_le
    rw [children_place planted.wellFormed hau h, planted.children x hx]

section Placed

variable (wf : t.WellFormed) (planted : t.Planted u node) (helement : t.isElement a = true)
  (attached : t.Attached a) (h : place u a node placement = .ok v)
include wf planted helement attached h

theorem wellFormed_of_place : v.WellFormed := by
  rcases place_cases wf planted helement attached placement with ⟨_, _, _, fails⟩ | ⟨v', hv, wfv⟩
  · cases h.symm.trans fails
  · cases h.symm.trans hv
    exact wfv

/-- The new node takes along what is below it. -/
theorem contentAt_place : v.contentAt node = u.contentAt node := by
  have wfv := wellFormed_of_place wf planted helement attached h
  have ha := wf.lt_size_of_attached attached
  have away : ¬ u.AtOrAbove node a := by
    intro above
    have hnode := Nat.le_of_eq planted.top_eq.symm
    exact Nat.not_le.2 ha (planted.extends_.size_le_of_atOrAbove wf hnode above)
  apply planted.wellFormed.contentAt_congr wfv
  intro y hy
  constructor
  · obtain ⟨p, position, rfl⟩ := link_of_place h
    exact Tree.kind?_link ..
  · have hne : y ≠ a := by
      rintro rfl
      exact away hy
    rw [children_place planted.wellFormed (Nat.lt_of_lt_of_le ha planted.extends_.size_le) h,
      if_neg hne]
    apply Placement.flatMap_stand_of_notMem
    intro hmem
    exact away (hy.tail ((planted.wellFormed.mem_children_iff y a).1 hmem))

/-- All that comes with the new node is new. -/
theorem size_le_of_place {new : Outline} (hnew : v.outlineAt node = [new]) :
    ∀ id ∈ new.ids, t.size ≤ id := by
  have wfv := wellFormed_of_place wf planted helement attached h
  obtain ⟨ext, _⟩ := extends_of_place wf planted attached h
  obtain ⟨p, position, e⟩ := link_of_place h
  have parent : v.Parent p node := by
    rw [e, Tree.Parent, Tree.parent?_link planted.top_lt, if_pos rfl]
  have names := wfv.idsAll_outlineAt parent
  rw [hnew, Outline.idsAll, Outline.idsAll, List.append_nil] at names
  intro id hid
  rw [names, wfv.mem_subtree_iff] at hid
  exact ext.size_le_of_atOrAbove wf (Nat.le_of_eq planted.top_eq.symm) hid

/-- In the outline of the document the new node stands at its place, and nothing else changes. -/
theorem outline_place {c : Content} (hc : u.contentAt node = [c]) :
    ∃ new : Outline, new.content = c ∧ (∀ id ∈ new.ids, t.size ≤ id) ∧
      v.outline = Outline.insert placement a new t.outline := by
  have wfv := wellFormed_of_place wf planted helement attached h
  obtain ⟨ext, children⟩ := extends_of_place wf planted attached h
  obtain ⟨new, hnew, content⟩ := wfv.exists_outline
    ((contentAt_place wf planted helement attached h).trans hc)
  refine ⟨new, content, size_le_of_place wf planted helement attached h hnew, ?_⟩
  refine wf.outline_eq_editAll (placement.stand node a) ?_ ?_ ?_
  · intro x hx hleaf
    have hne : x ≠ a := by
      rintro rfl
      rw [helement] at hleaf
      cases hleaf
    rw [Placement.stand_of_ne hne, List.flatMap_singleton]
    exact wf.outlineAt_of_leaf wfv hleaf (ext.kinds x (wf.lt_size_of_attached hx))
  · intro x e hx he
    have hlt := wf.lt_size_of_attached hx
    have shown := wfv.outlineAt_of_element ((ext.kinds x hlt).trans he)
    rw [Tree.outlineBelow, children x hlt] at shown
    split
    · next hxa =>
      rw [if_pos hxa, Placement.flatMap_inside hnew] at shown
      rw [Placement.stand, if_pos hxa, Placement.flatMap_around hnew shown]
    · next hxa =>
      rw [if_neg hxa] at shown
      rw [Placement.stand_of_ne hxa, List.flatMap_singleton, shown]
  · rw [children _ wf.documentId_lt,
      if_neg (fun e => Tree.kind?_ne_document wf helement e.symm)]

end Placed

/-! ## What is placed -/

variable {s : Session} {d d' : Draft} {c : Content} {ids : Allocator} {payload : Payload}
  {target anchor key : String} {operation : Operation}

/-- The content that a payload stands for, and the allocator that is left once it was made. -/
inductive Renders (s : Session) (d : Draft) : Payload → Content → Allocator → Prop where
  | text {value written : String} (h : s.substitute value = .ok written) :
    Renders s d (.text value) (.text written) d.ids
  | fragment {key : String} {f : Fragment} {made : Fragment.Instance} {ids : Allocator}
    (found : s.fragment key = .ok f)
    (h : f.instantiate s.tokens d.tree d.ids s.registry = (.ok made, ids))
    (texts : ∀ template ∈ f.root.texts,
      template.Says s.tokens made.values.identifiers (made.values.render template)) :
    Renders s d (.fragment key) (f.root.render made.values) ids

theorem Renders.eq_text {value : String} (h : s.Renders d (.text value) c ids) :
    ∃ written, s.substitute value = .ok written ∧ c = .text written := by
  cases h with
  | text h => exact ⟨_, h, rfl⟩

/-- The payload is in the tree, detached, at the node. -/
structure Ready (s : Session) (d : Draft) (payload : Payload) (node : NodeId) (d' : Draft) :
    Prop where
  planted : d.tree.Planted d'.tree node
  header : d'.tree.header = d.tree.header
  renders : ∃ c, s.Renders d payload c d'.ids ∧ d'.tree.contentAt node = [c]

theorem instantiate_prepares (wf : d.tree.WellFormed) (key : String) :
    Ends (s.instantiate key) d (fun node d' => s.Ready d (.fragment key) node d')
      fun _ _ => True := by
  rw [ends_instantiate]
  refine ⟨?_, fun _ _ => trivial⟩
  intro f hf
  refine ⟨?_, fun _ _ _ => trivial⟩
  intro made ids hmade
  have hplant := Fragment.plant_of_instantiate hmade
  obtain ⟨u, node, hu, planted⟩ := Tree.plant_spec (f.root.render made.values) wf
  cases hu.symm.trans hplant
  obtain ⟨header, content⟩ := Tree.content_of_plant _ wf hplant
  exact ⟨planted, header, _, .fragment hf hmade (Fragment.says_of_instantiate hmade), content⟩

theorem prepare_prepares (wf : d.tree.WellFormed) (payload : Payload) :
    Ends (s.prepare payload) d (fun node d' => s.Ready d payload node d') fun _ _ => True := by
  rw [ends_prepare]
  refine ⟨?_, ?_⟩
  · rintro key rfl
    exact instantiate_prepares wf key
  · rintro value rfl
    refine ⟨?_, fun _ _ => trivial⟩
    intro v hv
    obtain ⟨header, content⟩ := Tree.content_of_plant (.text v) wf rfl
    exact ⟨Tree.planted_push wf (by simp), header, _, .text hv, content⟩

/-! ## The operations that add something -/

/-- From one draft to the other the document has got one new subtree, rendered from the payload, at
its place relative to the only element that the anchor selects, and is else unchanged. -/
structure Addition (s : Session) (anchor : String) (payload : Payload) (placement : Placement)
    (d d' : Draft) (x : NodeId) (new : Outline) : Prop where
  selected : s.select d.tree anchor = .ok [.element x]
  once : (Outline.idsAll d.tree.outline).count x = 1
  renders : s.Renders d payload new.content d'.ids
  fresh : ∀ id ∈ new.ids, d.tree.size ≤ id
  outline : d'.tree.outline = Outline.insert placement x new d.tree.outline
  header : d'.tree.header = d.tree.header

theorem adds_of_place (sound : s.registry.Sound) (wf : d.tree.WellFormed)
    (selected : s.selectElement d.tree anchor = .ok a) (prepared : s.Ready d payload node d')
    (h : place d'.tree a node placement = .ok v) :
    ∃ new, s.Addition anchor payload placement d { d' with tree := v } a new := by
  obtain ⟨helement, attached⟩ := element_of_selectElement sound wf selected
  obtain ⟨planted, header, c, renders, content⟩ := prepared
  obtain ⟨new, rfl, fresh, outline⟩ := outline_place wf planted helement attached h content
  obtain ⟨p, position, rfl⟩ := link_of_place h
  rw [selectElement_eq_ok_iff, selectOne_eq_ok_iff] at selected
  exact ⟨new, selected,
    wf.count_idsAll_outline attached (Tree.kind?_ne_document wf helement), renders, fresh,
    outline, header⟩

theorem insert_adds (sound : s.registry.Sound) (wf : d.tree.WellFormed) (target anchor : String)
    (payload : Payload) (placement : Placement) :
    Ends (s.insert target anchor payload placement) d
      (fun result d' => result = .applied →
        ∃ x new, s.Addition anchor payload placement d d' x new)
      fun _ _ => True := by
  rw [ends_insert]
  refine ⟨?_, fun _ _ => trivial⟩
  intro nodes _
  refine ⟨by rintro _ ⟨⟩, ?_⟩
  intro _
  refine ⟨?_, fun _ _ => trivial⟩
  intro x hx
  refine (prepare_prepares wf payload).mono ?_ fun _ _ _ => trivial
  intro node d' prepared
  rw [ends_change]
  refine ⟨?_, fun _ _ => trivial⟩
  intro v hv _
  exact ⟨x, adds_of_place sound wf hx prepared hv⟩

/-- Its target is looked for again in the end. -/
theorem ensurePath_adds (sound : s.registry.Sound) (wf : d.tree.WellFormed)
    (target anchor key : String) (placement : Placement) :
    Ends (s.ensurePath target anchor key placement) d
      (fun result d' => result = .applied →
        (∃ x new, s.Addition anchor (.fragment key) placement d d' x new) ∧
          ∃ nodes, s.select d'.tree target = .ok nodes ∧ nodes ≠ [])
      fun _ _ => True := by
  rw [ends_ensurePath]
  refine ⟨?_, fun _ _ => trivial⟩
  intro nodes _
  refine ⟨by rintro _ ⟨⟩, ?_⟩
  intro _
  refine ⟨?_, fun _ _ => trivial⟩
  intro x hx
  refine (instantiate_prepares wf key).mono ?_ fun _ _ _ => trivial
  intro node d' prepared
  rw [ends_change]
  refine ⟨?_, fun _ _ => trivial⟩
  intro v hv
  refine ⟨?_, fun _ _ => trivial⟩
  intro reached hreached
  refine ⟨fun _ => trivial, ?_⟩
  intro hne _
  exact ⟨⟨x, adds_of_place sound wf hx prepared hv⟩, reached, hreached, hne⟩

end Session

/-- The operation adds the payload at this place, if the target selects nothing. -/
inductive Operation.AddsAt (target anchor : String) (placement : Placement) :
    Payload → Operation → Prop where
  | insert (payload : Payload) :
    AddsAt target anchor placement payload (.insert target anchor payload placement)
  | ensurePath (key : String) :
    AddsAt target anchor placement (.fragment key) (.ensurePath target anchor key placement)

namespace Session

open Edit

variable {P : Type} [Package P] {s : Session} {w left : Workspace P} {target anchor : String}
  {payload : Payload} {placement : Placement} {record : OperationRecord} {index : Nat}

/-- An insertion that is applied adds one subtree to the document at the declared place, and nothing
else. Where the target has to be reached, it is reached afterwards. -/
theorem outline_of_addition {document : Registry.Document}
    (compiled : Registry.compile document = .ok s.registry) (reached : s.Reached w)
    (adds : record.operation.AddsAt target anchor placement payload)
    (h : s.applyOperation w index record = (.ok .applied, left)) :
    (∃ x new, s.Addition anchor payload placement ⟨w.tree, w.ids⟩ ⟨left.tree, left.ids⟩ x new) ∧
      left.package = w.package ∧
      (record.operation.kind = .ensurePath →
        ∃ nodes, s.select left.tree target = .ok nodes ∧ nodes ≠ []) := by
  have sound := Registry.sound_of_compile compiled
  have wf : (Draft.mk w.tree w.ids).tree.WellFormed := reached.wellFormed sound
  have hexecute := (applyOperation_carried_iff (Or.inl rfl)).1 h
  obtain ⟨operation, optional⟩ := record
  cases adds with
  | insert payload =>
    rw [execute_eq_edit rfl] at hexecute
    have ends := edit_ends (insert_adds sound wf target anchor payload placement) hexecute
    exact ⟨ends.1 .applied rfl rfl, package_of_edit hexecute, by rintro ⟨⟩⟩
  | ensurePath key =>
    rw [execute_eq_edit rfl] at hexecute
    have ends := edit_ends (ensurePath_adds sound wf target anchor key placement) hexecute
    obtain ⟨added, found⟩ := ends.1 .applied rfl rfl
    exact ⟨added, package_of_edit hexecute, fun _ => found⟩

/-- A list between two texts. -/
def listInText : Workspace MemoryPackage where
  tree := {
    nodes := #[⟨.document, none, [1]⟩, ⟨.element ⟨.plain "item", [], []⟩, some 0, [2, 3, 4]⟩,
      ⟨.text "x", some 1, []⟩, ⟨.element ⟨.plain "list", [], []⟩, some 1, []⟩,
      ⟨.text "y", some 1, []⟩]
    header := none }
  ids := .empty
  package := .empty

theorem read_listInText : Xml.read "<item>x<list/>y</item>" = .ok listInText.tree := by
  cbv

def insertText : OperationRecord :=
  ⟨.insert "gap" "list" (.text "z") .before, false⟩

def ensureGap : OperationRecord :=
  ⟨.ensurePath "gap" "list" "gap" .append, false⟩

/-- The text comes to stand between another one and the list, the gap behind the item. -/
theorem outline_of_addition_goals :
    (∃ left new, goals.applyOperation listInText 0 insertText = (.ok .applied, left) ∧
      new.content = .text "z" ∧
      left.tree.outline = [.element 1 ⟨.plain "item", [], []⟩ [.text 2 "x", new,
        .element 3 ⟨.plain "list", [], []⟩ [], .text 4 "y"]]) ∧
    ∃ left new nodes, goals.applyOperation oneItem 0 ensureGap = (.ok .applied, left) ∧
      left.tree.outline = [.element 1 ⟨.plain "list", [], []⟩
        [.element 2 ⟨.plain "item", [⟨.plain "id", "1"⟩], []⟩ [], new]] ∧
      goals.select left.tree "gap" = .ok nodes ∧ nodes ≠ [] := by
  have inserted : (goals.applyOperation listInText 0 insertText).1 = .ok .applied := by cbv
  have ensured : (goals.applyOperation oneItem 0 ensureGap).1 = .ok .applied := by cbv
  have inText : goals.select listInText.tree "list" = .ok [.element 3] := by cbv
  have atRoot : goals.select oneItem.tree "list" = .ok [.element 1] := by cbv
  have mixed : goals.Reached listInText := .start MemoryPackage.empty read_listInText
  have single : goals.Reached oneItem := .start MemoryPackage.empty read_oneItem
  constructor
  · obtain ⟨⟨x, new, added⟩, _, _⟩ := outline_of_addition compile_goals mixed
      (.insert (.text "z")) (Prod.ext inserted rfl)
    cases added.selected.symm.trans inText
    obtain ⟨written, hwritten, content⟩ := added.renders.eq_text
    have plain : goals.substitute "z" = .ok "z" := by cbv
    cases hwritten.symm.trans plain
    exact ⟨_, new, Prod.ext inserted rfl, content, added.outline⟩
  · obtain ⟨⟨x, new, added⟩, _, found⟩ := outline_of_addition compile_goals single
      (.ensurePath "gap") (Prod.ext ensured rfl)
    cases added.selected.symm.trans atRoot
    obtain ⟨nodes, selected, hne⟩ := found rfl
    exact ⟨_, new, nodes, Prod.ext ensured rfl, added.outline, selected, hne⟩

end Session

end PartPatch
