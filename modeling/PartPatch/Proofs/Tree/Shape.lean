import PartPatch.Proofs.Tree.Pairing

/-!
# Changes that a document shows

Trees of the same content have their nodes at the same places. So a tree in which children or
attributes were left out, or to which a child was added, is not alike to what it was before.
-/

namespace PartPatch

set_option autoImplicit false

/-- The second element is the first one without the attributes of some names. -/
structure Element.Stripped (e f : Element) : Prop where
  name : f.name = e.name
  attributes : ∃ keep : String → Option String → Bool,
    f.attributes = e.attributes.filter fun a => keep a.name.localName a.name.namespaceUri

theorem Element.Stripped.refl (e : Element) : e.Stripped e :=
  ⟨rfl, fun _ _ => true, by simp⟩

theorem Element.Stripped.trans {e f g : Element} (h : e.Stripped f) (h' : f.Stripped g) :
    e.Stripped g := by
  obtain ⟨keep, hkeep⟩ := h.attributes
  obtain ⟨keep', hkeep'⟩ := h'.attributes
  refine ⟨h'.name.trans h.name, fun l n => keep' l n && keep l n, ?_⟩
  rw [hkeep', hkeep, List.filter_filter]

namespace Tree

variable {t u v : Tree} {p x y : NodeId}

theorem Alike.symm (h : t.Alike u) : u.Alike t :=
  ⟨h.1.symm, h.2.symm⟩

/-! ## Nodes that keep their places -/

/-- If nothing is added on the way down to a node, it has its old place in a tree that is alike. -/
theorem Alike.paired_self (h : t.Alike u) (wf : t.WellFormed) (wfu : u.WellFormed)
    (hx : t.Attached x)
    (sub : ∀ p c, t.Parent p c → t.AtOrAbove c x → (u.children p).Sublist (t.children p)) :
    t.Paired u x x := by
  have content : View.full.contents t.content = View.full.contents u.content := by rw [h.2]
  induction hx with
  | refl => exact .document
  | @tail a c _ hc ih =>
    have above : t.Paired u a a := ih fun p d hd hda => sub p d hd (hda.tail hc)
    have children := above.children wf wfu content
    have same : u.children a = t.children a :=
      (sub a c hc Relation.ReflTransGen.refl).eq_of_length children.length_eq.symm
    have self := List.forall₂_same.1 (same ▸ children)
    exact self c ((wf.mem_children_iff a c).2 hc)

/-- Nodes that keep their places show everything that is seen of them. -/
theorem Alike.same_of_paired (h : t.Alike u) (wf : t.WellFormed) (wfu : u.WellFormed)
    (hx : t.Paired u x x) :
    t.element? x = u.element? x ∧ t.text x = u.text x ∧
      (t.children x).length = (u.children x).length := by
  have m := mirrors_paired (v := .full) wf wfu (by rw [h.2]) h.1
  refine ⟨?_, m.text hx, (m.children hx).length_eq⟩
  rcases m.element?_cases hx with ⟨ht, hu⟩ | ⟨e, f, ht, hu, hv⟩
  · rw [ht, hu]
  · rw [View.element_full, View.element_full] at hv
    rw [ht, hu, hv]

theorem WellFormed.attached_of_parent (wf : t.WellFormed) (hx : t.Attached x)
    (hp : t.Parent p x) : t.Attached p := by
  rcases atOrAbove_iff.1 hx with e | above
  · exact absurd e (wf.ne_document_of_parent hp)
  · obtain ⟨q, hq, hqx⟩ := above_iff.1 above
    rwa [parent_unique hp hqx]

/-! ## Something is left out -/

/-- The second tree is the first without some nodes and without the attributes of some names. -/
structure Pruned (t u : Tree) : Prop where
  children : ∀ x, (u.children x).Sublist (t.children x)
  elements : ∀ x f, u.element? x = some f → ∃ e, t.element? x = some e ∧ e.Stripped f

namespace Pruned

theorem refl (t : Tree) : t.Pruned t :=
  ⟨fun _ => List.Sublist.refl _, fun _ f hf => ⟨f, hf, .refl f⟩⟩

theorem trans (h : t.Pruned u) (h' : u.Pruned v) : t.Pruned v where
  children x := (h'.children x).trans (h.children x)
  elements x g hg := by
    obtain ⟨f, hf, hfg⟩ := h'.elements x g hg
    obtain ⟨e, he, hef⟩ := h.elements x f hf
    exact ⟨e, he, hef.trans hfg⟩

theorem parent (h : t.Pruned u) (wf : t.WellFormed) (wfu : u.WellFormed) (hx : u.Parent p x) :
    t.Parent p x :=
  (wf.mem_children_iff p x).1 ((h.children p).subset ((wfu.mem_children_iff p x).2 hx))

/-- A tree that is alike although it was pruned has the same children and elements. -/
theorem same_of_alike (h : t.Pruned u) (wf : t.WellFormed) (wfu : u.WellFormed)
    (alike : t.Alike u) (hx : t.Attached x) :
    t.element? x = u.element? x ∧ u.children x = t.children x := by
  have paired := alike.paired_self wf wfu hx fun p _ _ _ => h.children p
  obtain ⟨element, _, length⟩ := alike.same_of_paired wf wfu paired
  exact ⟨element, (h.children x).eq_of_length length.symm⟩

end Pruned

theorem pruned_detach (wf : t.WellFormed) (x : NodeId) : t.Pruned (t.detach x) where
  children y := by
    rw [children_detach wf]
    exact List.filter_sublist
  elements y f hf := by
    rw [element?_eq_some_iff, kind?_detach, ← element?_eq_some_iff] at hf
    exact ⟨f, hf, .refl f⟩

theorem pruned_removeAttribute (t : Tree) (x : NodeId) (localName : String)
    (namespaceUri : Option String) : t.Pruned (t.removeAttribute x localName namespaceUri).1 := by
  unfold removeAttribute
  split
  · exact .refl t
  · constructor
    · intro y
      rw [children_modifyElement]
    · intro y f hf
      rw [element?_modifyElement] at hf
      split at hf
      · obtain ⟨e, he, rfl⟩ := Option.map_eq_some_iff.1 hf
        refine ⟨e, he, rfl, fun l n => ¬ (l = localName ∧ n = namespaceUri), ?_⟩
        simp [QName.Matches]
      · exact ⟨f, hf, .refl f⟩

/-! ## Something is added -/

/-- The second tree is the first with one more child, which is new, below the node. -/
structure Grown (t u : Tree) (p : NodeId) : Prop where
  extends_ : t.Extends u
  attached : t.Attached p
  more : (u.children p).length = (t.children p).length + 1
  children : ∀ x, (t.children x).Sublist (u.children x)

theorem Grown.not_alike (h : t.Grown u p) (wf : t.WellFormed) (wfu : u.WellFormed) :
    ¬ u.Alike t := by
  intro alike
  have attached : u.Attached p := by
    refine Relation.ReflTransGen.mono ?_ _ _ h.attached
    intro a c hc
    exact (wfu.mem_children_iff a c).1 ((h.children a).subset ((wf.mem_children_iff a c).2 hc))
  have paired := alike.paired_self wfu wf attached fun p _ _ _ => h.children p
  have length := (alike.same_of_paired wfu wf paired).2.2
  rw [h.more] at length
  omega

/-- A new node has been linked below a node of the document. -/
theorem Planted.grown {top : NodeId} (planted : t.Planted u top) (wf : t.WellFormed)
    (attached : t.Attached p) (position : Nat) : t.Grown (u.link p position top) p := by
  have hp : p < t.size := wf.lt_size_of_attached attached
  have hpu : p < u.size := Nat.lt_of_lt_of_le hp planted.extends_.size_le
  refine ⟨planted.extends_.link planted.top_lt (Nat.le_of_eq planted.top_eq.symm) p position,
    attached, ?_, ?_⟩
  · rw [children_link hpu, if_pos rfl, planted.children p hp,
      List.length_insertIdx_of_le_length (Nat.min_le_right _ _)]
  · intro x
    rw [children_link hpu]
    by_cases hx : x < t.size
    · rw [planted.children x hx]
      split
      · exact List.sublist_insertIdx _ _ _
      · exact List.Sublist.refl _
    · rw [children_of_size_le (Nat.not_lt.1 hx)]
      exact List.nil_sublist _

/-! ## Texts and values are changed -/

theorem link_of_insertAt {position : Nat} {child : NodeId}
    (h : t.insertAt p position child = .ok u) : u = t.link p position child := by
  unfold insertAt at h
  split_ifs at h
  repeat' split at h
  all_goals cases h
  all_goals rfl

theorem text_of_isElement (h : t.isElement x = true) :
    t.text x = Content.textOfAll (t.contentBelow x) := by
  obtain ⟨e, he⟩ := isElement_iff.1 h
  rw [Tree.text, he]

theorem text_of_text_child (wf : t.WellFormed) (hx : t.isElement x = true) {text : String}
    (children : t.children x = [y]) (hy : t.kind? y = some (.text text)) : t.text x = text := by
  rw [text_of_isElement hx, contentBelow_eq, children, List.flatMap_singleton, wf.contentAt_eq, hy]
  simp [Content.textOfAll, Content.textOf]

/-- An element whose text was set has that text, and all other nodes have the children they had. -/
theorem text_setText (wf : t.WellFormed) {text : String} (h : t.setText x text = .ok u) :
    u.text x = text ∧ ∀ y, y ≠ x → u.children y = t.children y := by
  unfold setText at h
  split at h
  · next hx =>
    have wfc := wf.clear x
    have hxc : (t.clear x).isElement x = true := by
      rwa [isElement_eq_of_kind? (kind?_clear t x x)]
    split at h
    · next blank =>
      cases h
      refine ⟨?_, fun y hy => by rw [children_clear, if_neg hy]⟩
      rw [text_of_isElement hxc, contentBelow_eq, children_clear, if_pos rfl, blank]
      rfl
    · have planted := planted_push wfc (by simp : NodeKind.text text ≠ .document)
      have fits := planted.fits wfc (Or.inr hxc)
      have hx' : x < _ := fits.parent_lt planted.wellFormed
      rcases insertAt_eq planted.wellFormed fits
        (((t.clear x).push (.text text)).1.children x).length with ⟨root, _⟩ | ⟨root, heq⟩
      · exact absurd root.1 (kind?_ne_document wfc hxc)
      · cases heq.symm.trans h
        refine ⟨text_of_text_child (y := (t.clear x).size)
          (fits.wellFormed_link planted.wellFormed root _) ?_ ?_ ?_, ?_⟩
        · rw [isElement_eq_of_kind? (kind?_link _ _ _ _ x)]
          exact planted.extends_.isElement hxc
        · rw [children_link hx', if_pos rfl, children_push, children_clear, if_pos rfl]
          rfl
        · rw [kind?_link, kind?_push, if_pos rfl]
        · intro y hy
          rw [children_link hx', if_neg hy, children_push, children_clear, if_neg hy]
  · cases h

/-- An element whose text was set has no children left but a new text, if it is not empty. -/
theorem eq_of_setText {text : String} (h : t.setText x text = .ok u) :
    t.isElement x = true ∧ (u = t.clear x ∨ ∃ position,
      u = ((t.clear x).push (.text text)).1.link x position (t.clear x).size) := by
  unfold setText at h
  split at h
  · next hx =>
    refine ⟨hx, ?_⟩
    split at h
    · cases h
      exact Or.inl rfl
    · exact Or.inr ⟨_, link_of_insertAt h⟩
  · cases h

/-- A text that is set changes the kind of no node. -/
theorem kind?_setText {text : String} (h : t.setText x text = .ok u) {kind : NodeKind}
    (hy : t.kind? y = some kind) : u.kind? y = some kind := by
  have cleared : (t.clear x).kind? y = some kind := by rw [kind?_clear, hy]
  obtain ⟨_, rfl | ⟨position, rfl⟩⟩ := eq_of_setText h
  · exact cleared
  · rw [kind?_link, kind?_push, if_neg (Nat.ne_of_lt (lt_size_of_kind? cleared)), cleared]

/-- No element is changed by a text that is set. -/
theorem element?_setText {text : String} (h : t.setText x text = .ok u) (y : NodeId) :
    u.element? y = t.element? y := by
  have cleared : (t.clear x).element? y = t.element? y := by rw [element?, element?, kind?_clear]
  obtain ⟨_, rfl | ⟨position, rfl⟩⟩ := eq_of_setText h
  · exact cleared
  · rw [← cleared, element?, element?, kind?_link, kind?_push]
    by_cases hy : y = (t.clear x).size
    · rw [if_pos hy, hy, kind?_size]
    · rw [if_neg hy]

/-- The children of an element whose text was set are no elements. -/
theorem isElement_of_setText {text : String} (h : t.setText x text = .ok u) {c : NodeId}
    (hc : c ∈ u.children x) : u.isElement c = false := by
  obtain ⟨hx, rfl | ⟨position, rfl⟩⟩ := eq_of_setText h
  · rw [children_clear, if_pos rfl] at hc
    cases hc
  · have hxc : x < (t.clear x).size := by
      obtain ⟨e, he⟩ := isElement_iff.1 hx
      rw [← kind?_clear t x x] at he
      exact lt_size_of_kind? he
    have hxp : x < ((t.clear x).push (.text text)).1.size := by
      rw [size_push]
      exact Nat.lt_succ_of_lt hxc
    rw [children_link hxp, if_pos rfl, children_push, children_clear, if_pos rfl] at hc
    have hnew : c = (t.clear x).size := by simpa using hc
    rw [isElement, element?, kind?_link, kind?_push, if_pos hnew]
    rfl

/-- The text of an element cannot be changed without changing the document. -/
theorem not_alike_of_setText (wf : t.WellFormed) (wfu : u.WellFormed) (hx : t.Attached x)
    {text : String} (h : t.setText x text = .ok u) (hne : t.text x ≠ text) : ¬ u.Alike t := by
  intro alike
  obtain ⟨htext, others⟩ := text_setText wf h
  have paired : t.Paired u x x := by
    refine alike.symm.paired_self wf wfu hx ?_
    intro p c hc hcx
    have hpx : p ≠ x := by
      rintro rfl
      exact wf.above_irrefl p (above_iff_child.2 ⟨c, hc, hcx⟩)
    rw [others p hpx]
  rw [(alike.symm.same_of_paired wf wfu paired).2.1] at hne
  exact hne htext

theorem eq_of_setAttribute {name : QName} {value : String}
    (h : t.setAttribute x name value = .ok u) :
    u = t.modifyElement x fun e => { e with attributes := setValue name value e.attributes } := by
  unfold setAttribute at h
  split at h
  · cases h
    rfl
  · cases h

theorem value_setValue (name : QName) (value : String) (attributes : List Attribute) :
    ((setValue name value attributes).find? fun a =>
      a.name.Matches name.localName name.namespaceUri).map Attribute.value = some value := by
  induction attributes with
  | nil => simp [setValue, QName.matches_self]
  | cons a attributes ih =>
    rw [setValue]
    split
    · next h => simp [h]
    · next h => simp [h, ih]

/-- The value of an attribute cannot be changed without changing the document. -/
theorem not_alike_of_setAttribute (wf : t.WellFormed) (wfu : u.WellFormed) (hx : t.Attached x)
    {name : QName} {value : String} (h : t.setAttribute x name value = .ok u)
    (hne : ((t.element? x).bind fun e =>
      e.attribute? name.localName name.namespaceUri).map Attribute.value ≠ some value) :
    ¬ u.Alike t := by
  intro alike
  unfold setAttribute at h
  split at h
  · next helement =>
    cases h
    have paired := alike.symm.paired_self wf wfu hx fun p _ _ _ => by rw [children_modifyElement]
    have same := (alike.symm.same_of_paired wf wfu paired).1
    obtain ⟨e, he⟩ := Option.isSome_iff_exists.1 helement
    rw [same, element?_modifyElement, if_pos rfl, he] at hne
    exact hne (value_setValue name value e.attributes)
  · cases h

end Tree

end PartPatch
