import Mathlib.Data.List.InsertIdx
import Mathlib.Data.List.Perm.Basic
import PartPatch.Proofs.Tree.WellFormed

/-!
# Changes that keep a tree well formed

Adding a node and changing an element leave parents and children as they are. Detaching and
clearing cut nodes from their parents. Attaching links a node that fits below its new parent, and
then only a second root can stand in the way.
-/

namespace PartPatch.Tree

set_option autoImplicit false

variable {t u : Tree} {a b c p x y id parent child : NodeId}

theorem isElement_eq_of_kind? (h : u.kind? x = t.kind? x) : u.isElement x = t.isElement x := by
  simp only [isElement, element?, h]

theorem kind?_ne_document (wf : t.WellFormed) (h : t.isElement x = true) : x ≠ documentId := by
  obtain ⟨e, he⟩ := isElement_iff.1 h
  intro hx
  rw [(wf.document_iff x).2 hx] at he
  cases he

/-- An element of the document stands below the document node. -/
theorem WellFormed.above_of_attached (wf : t.WellFormed) (hx : t.Attached x)
    (helement : t.isElement x = true) : t.Above documentId x :=
  (atOrAbove_iff.1 hx).resolve_left (kind?_ne_document wf helement)

/-- The second tree is the first with some nodes cut from their parents. -/
structure Cut (t : Tree) (gone : NodeId → Bool) (u : Tree) : Prop where
  header : u.header = t.header
  kinds : ∀ x, u.kind? x = t.kind? x
  parents : ∀ x, u.parent? x = if gone x then none else t.parent? x
  children : ∀ x, u.children x = (t.children x).filter (!gone ·)

namespace WellFormed

/-- Parents and children may be kept while nodes are added and elements are changed. -/
theorem of_same_links (wf : t.WellFormed) (parents : ∀ x, u.parent? x = t.parent? x)
    (children : ∀ x, u.children x = t.children x)
    (document : ∀ x, u.kind? x = some .document ↔ t.kind? x = some .document)
    (elements : ∀ x < t.size, u.isElement x = t.isElement x) : u.WellFormed where
  document_iff x := (document x).trans (wf.document_iff x)
  document_top := by rw [parents, wf.document_top]
  mem_children_iff p c := by rw [children, parents, wf.mem_children_iff]
  nodup_children p := by
    rw [children]
    exact wf.nodup_children p
  holder p c h := by
    rw [children] at h
    rw [elements p (lt_size_of_mem_children h)]
    exact wf.holder p c h
  one_root := by
    have h : u.childElements documentId = t.childElements documentId := by
      rw [childElements, childElements, children]
      apply List.filter_congr
      intro c hc
      exact elements c (lt_size_of_parent? ((wf.mem_children_iff _ c).1 hc))
    rw [h]
    exact wf.one_root
  grounded := by
    have h : u.Parent = t.Parent := by
      funext p c
      rw [Parent, Parent, parents]
    rw [h]
    exact wf.grounded

/-- Some nodes are cut from their parents. -/
theorem cut (wf : t.WellFormed) {gone : NodeId → Bool} (h : t.Cut gone u) : u.WellFormed where
  document_iff x := by rw [h.kinds, wf.document_iff]
  document_top := by rw [h.parents, wf.document_top, ite_self]
  mem_children_iff p c := by
    rw [h.children, h.parents, List.mem_filter, wf.mem_children_iff]
    cases gone c <;> simp
  nodup_children p := by
    rw [h.children]
    exact (wf.nodup_children p).filter _
  holder p c hc := by
    rw [h.children] at hc
    rw [isElement_eq_of_kind? (h.kinds p)]
    exact wf.holder p c (List.mem_of_mem_filter hc)
  one_root := by
    have hsub : (u.childElements documentId).Sublist (t.childElements documentId) := by
      have he : u.isElement = t.isElement := funext fun x => isElement_eq_of_kind? (h.kinds x)
      rw [childElements, childElements, h.children, he]
      exact List.filter_sublist.filter _
    exact hsub.length_le.trans wf.one_root
  grounded := by
    refine Subrelation.wf ?_ wf.grounded
    intro p c hp
    rw [Parent, h.parents] at hp
    split at hp
    · cases hp
    · exact hp

end WellFormed

/-! ## Nodes are added, elements are changed -/

theorem isElement_push (h : x < t.size) (kind : NodeKind) :
    (t.push kind).1.isElement x = t.isElement x := by
  apply isElement_eq_of_kind?
  rw [kind?_push, if_neg (Nat.ne_of_lt h)]

theorem WellFormed.push (wf : t.WellFormed) {kind : NodeKind} (h : kind ≠ .document) :
    (t.push kind).1.WellFormed := by
  refine wf.of_same_links (parent?_push t kind) (children_push t kind) ?_
    fun x hx => isElement_push hx kind
  intro x
  rw [kind?_push]
  split
  · next hx =>
    rw [hx, kind?_size]
    simp [h]
  · rfl

theorem kind?_modifyElement (t : Tree) (id : NodeId) (f : Element → Element) (x : NodeId) :
    (t.modifyElement id f).kind? x =
      if x = id then (t.kind? x).map fun
        | .element e => .element (f e)
        | kind => kind
      else t.kind? x := by
  simp only [kind?, modifyElement, node?_modifyNode]
  split
  · cases t.node? x with
    | none => rfl
    | some node =>
      obtain ⟨kind, parent, children⟩ := node
      cases kind with
      | element e => rfl
      | document => rfl
      | text text => rfl
      | comment text => rfl
  · rfl

theorem parent?_modifyElement (t : Tree) (id : NodeId) (f : Element → Element) (x : NodeId) :
    (t.modifyElement id f).parent? x = t.parent? x := by
  apply parent?_modifyNode
  intro node
  split <;> rfl

theorem children_modifyElement (t : Tree) (id : NodeId) (f : Element → Element) (x : NodeId) :
    (t.modifyElement id f).children x = t.children x := by
  apply children_modifyNode
  intro node
  split <;> rfl

theorem element?_modifyElement (t : Tree) (id : NodeId) (f : Element → Element) (x : NodeId) :
    (t.modifyElement id f).element? x =
      if x = id then (t.element? x).map f else t.element? x := by
  simp only [element?, kind?_modifyElement]
  by_cases hx : x = id
  · rw [if_pos hx, if_pos hx]
    cases t.kind? x with
    | none => rfl
    | some kind => cases kind <;> rfl
  · rw [if_neg hx, if_neg hx]

theorem isElement_modifyElement (t : Tree) (id : NodeId) (f : Element → Element) (x : NodeId) :
    (t.modifyElement id f).isElement x = t.isElement x := by
  rw [isElement, isElement, element?_modifyElement]
  split
  · rw [Option.isSome_map]
  · rfl

theorem WellFormed.modifyElement (wf : t.WellFormed) (id : NodeId) (f : Element → Element) :
    (t.modifyElement id f).WellFormed := by
  refine wf.of_same_links (parent?_modifyElement t id f) (children_modifyElement t id f) ?_
    fun x _ => isElement_modifyElement t id f x
  intro x
  rw [kind?_modifyElement]
  split
  · cases t.kind? x with
    | none => simp
    | some kind => cases kind <;> simp
  · rfl

theorem setAttribute_cases (wf : t.WellFormed) (x : NodeId) (name : QName) (value : String) :
    (t.isElement x = false ∧ t.setAttribute x name value = .error (.notAnElement x)) ∨
      ∃ u, t.setAttribute x name value = .ok u ∧ u.WellFormed := by
  unfold setAttribute
  split
  · exact Or.inr ⟨_, rfl, wf.modifyElement _ _⟩
  · next hx => exact Or.inl ⟨by simpa using hx, rfl⟩

theorem WellFormed.removeAttribute (wf : t.WellFormed) (x : NodeId) (localName : String)
    (namespaceUri : Option String) : (t.removeAttribute x localName namespaceUri).1.WellFormed := by
  unfold Tree.removeAttribute
  split
  · exact wf
  · exact wf.modifyElement _ _

/-! ## Nodes are taken from their parents -/

theorem parent?_detach (t : Tree) (id x : NodeId) :
    (t.detach id).parent? x = if x = id then none else t.parent? x := by
  unfold detach
  split
  · next h =>
    split
    · next hx => rw [hx, h]
    · rfl
  · next p h =>
    rw [parent?_setChildren _ _ (List.filter _), parent?_setParent none (lt_size_of_parent? h)]

theorem kind?_detach (t : Tree) (id x : NodeId) : (t.detach id).kind? x = t.kind? x := by
  unfold detach
  split
  · rfl
  · rw [kind?_setChildren _ _ (List.filter _), kind?_setParent]

theorem children_detach (wf : t.WellFormed) (id x : NodeId) :
    (t.detach id).children x = (t.children x).filter (· ≠ id) := by
  have keep : t.parent? id ≠ some x → t.children x = (t.children x).filter (· ≠ id) := by
    intro h
    symm
    rw [List.filter_eq_self]
    intro c hc
    rw [decide_eq_true_iff]
    intro e
    rw [e] at hc
    exact h ((wf.mem_children_iff x id).1 hc)
  unfold detach
  split
  · next h => exact keep (by simp [h])
  · next p h =>
    have hp := wf.lt_size_of_parent h
    rw [children_setChildren (List.filter _) (by rwa [size_modifyNode]), children_setParent]
    split
    · rfl
    · next hx =>
      apply keep
      rw [h, Ne, Option.some.injEq]
      exact fun e => hx e.symm

theorem cut_detach (wf : t.WellFormed) (id : NodeId) :
    t.Cut (fun x => decide (x = id)) (t.detach id) where
  header := by
    unfold detach
    split <;> rfl
  kinds := kind?_detach t id
  parents x := by simp [parent?_detach]
  children x := by simp [children_detach wf]

theorem WellFormed.detach (wf : t.WellFormed) (id : NodeId) : (t.detach id).WellFormed :=
  wf.cut (cut_detach wf id)

theorem parent?_clearEach (ids : List NodeId) (h : ∀ c ∈ ids, c < t.size) (x : NodeId) :
    (ids.foldl (fun t child => t.modifyNode child fun node => { node with parent := none }) t).parent?
      x = if x ∈ ids then none else t.parent? x := by
  induction ids generalizing t with
  | nil => simp
  | cons c ids ih =>
    have hc := h c List.mem_cons_self
    have hids : ∀ c' ∈ ids, c' < (t.modifyNode c fun node => { node with parent := none }).size := by
      intro c' hc'
      rw [size_modifyNode]
      exact h c' (List.mem_cons_of_mem c hc')
    rw [List.foldl_cons, ih hids, parent?_setParent none hc]
    by_cases hx : x ∈ ids
    · simp [hx]
    · by_cases hxc : x = c
      · simp [hxc]
      · simp [hx, hxc]

theorem kind?_clearEach (ids : List NodeId) (x : NodeId) :
    (ids.foldl (fun t child => t.modifyNode child fun node => { node with parent := none }) t).kind?
      x = t.kind? x := by
  induction ids generalizing t with
  | nil => rfl
  | cons c ids ih => rw [List.foldl_cons, ih, kind?_setParent]

theorem children_clearEach (ids : List NodeId) (x : NodeId) :
    (ids.foldl (fun t child => t.modifyNode child fun node => { node with parent := none })
      t).children x = t.children x := by
  induction ids generalizing t with
  | nil => rfl
  | cons c ids ih => rw [List.foldl_cons, ih, children_setParent]

theorem header_clearEach (ids : List NodeId) :
    (ids.foldl (fun t child => t.modifyNode child fun node => { node with parent := none })
      t).header = t.header := by
  induction ids generalizing t with
  | nil => rfl
  | cons c ids ih => rw [List.foldl_cons, ih, header_modifyNode]

theorem size_clear (t : Tree) (id : NodeId) : (t.clear id).size = t.size := by
  have each : ∀ (ids : List NodeId) (t : Tree),
      (ids.foldl (fun t child => t.modifyNode child fun node => { node with parent := none })
        t).size = t.size := by
    intro ids
    induction ids with
    | nil => exact fun _ => rfl
    | cons c ids ih =>
      intro t
      rw [List.foldl_cons, ih, size_modifyNode]
  rw [clear, each, size_modifyNode]

theorem parent?_clear (wf : t.WellFormed) (id x : NodeId) :
    (t.clear id).parent? x = if x ∈ t.children id then none else t.parent? x := by
  rw [clear, parent?_clearEach, parent?_setChildren _ _ fun _ => []]
  intro c hc
  rw [size_modifyNode]
  exact lt_size_of_parent? ((wf.mem_children_iff id c).1 hc)

theorem kind?_clear (t : Tree) (id x : NodeId) : (t.clear id).kind? x = t.kind? x := by
  rw [clear, kind?_clearEach, kind?_setChildren _ _ fun _ => []]

theorem children_clear (t : Tree) (id x : NodeId) :
    (t.clear id).children x = if x = id then [] else t.children x := by
  rw [clear, children_clearEach]
  by_cases h : id < t.size
  · exact children_setChildren (fun _ => []) h x
  · rw [children_eq, node?_modifyNode, children_eq]
    split
    · next hx =>
      rw [hx, node?_eq_none_iff.2 (Nat.not_lt.1 h)]
      rfl
    · rfl

theorem cut_clear (wf : t.WellFormed) (id : NodeId) :
    t.Cut (fun x => decide (x ∈ t.children id)) (t.clear id) where
  header := by rw [clear, header_clearEach, header_modifyNode]
  kinds := kind?_clear t id
  parents x := by simp [parent?_clear wf]
  children x := by
    rw [children_clear]
    symm
    split
    · next hx => simp [hx]
    · next hx =>
      rw [List.filter_eq_self]
      intro c hc
      rw [Bool.not_eq_true', decide_eq_false_iff_not, wf.mem_children_iff,
        (wf.mem_children_iff x c).1 hc]
      exact fun e => hx (Option.some.inj e)

theorem WellFormed.clear (wf : t.WellFormed) (id : NodeId) : (t.clear id).WellFormed :=
  wf.cut (cut_clear wf id)

/-! ## A node is attached -/

/-- The child can be attached below the parent, unless it is a second root. -/
structure Fits (t : Tree) (parent child : NodeId) : Prop where
  present : child < t.size
  ne_document : child ≠ documentId
  free : t.parent? child = none
  holder : parent = documentId ∨ t.isElement parent = true
  acyclic : ¬ t.AtOrAbove child parent

/-- The child would be a second root below the document. -/
def SecondRoot (t : Tree) (parent child : NodeId) : Prop :=
  parent = documentId ∧ t.isElement child = true ∧ t.root?.isSome = true

theorem insertAt_eq (wf : t.WellFormed) (fits : t.Fits parent child) (position : Nat) :
    (t.SecondRoot parent child ∧ t.insertAt parent position child = .error .multipleRoots) ∨
      ¬ t.SecondRoot parent child ∧
        t.insertAt parent position child = .ok (t.link parent position child) := by
  have hacyclic : child ∉ t.lineage parent := fun h => fits.acyclic (wf.mem_lineage_iff.1 h)
  unfold insertAt
  rw [if_neg fits.ne_document, fits.free]
  rcases fits.holder with rfl | hp
  · rw [(wf.document_iff documentId).2 rfl]
    by_cases h : t.isElement child = true ∧ t.root?.isSome = true
    · exact Or.inl ⟨⟨rfl, h⟩, by simp [h.1, h.2]⟩
    · refine Or.inr ⟨fun h' => h h'.2, ?_⟩
      rw [← Bool.and_eq_true_iff] at h
      simp [h, hacyclic]
  · obtain ⟨e, he⟩ := isElement_iff.1 hp
    refine Or.inr ⟨fun h => kind?_ne_document wf hp h.1, ?_⟩
    simp [he, hacyclic]

theorem kind?_link (t : Tree) (parent : NodeId) (position : Nat) (child x : NodeId) :
    (t.link parent position child).kind? x = t.kind? x := by
  rw [link, kind?_setParent]
  apply kind?_modifyNode
  intro node
  rfl

theorem size_link (t : Tree) (parent : NodeId) (position : Nat) (child : NodeId) :
    (t.link parent position child).size = t.size := by
  rw [link, size_modifyNode, size_modifyNode]

theorem parent?_link (hc : child < t.size) (position : Nat) (x : NodeId) :
    (t.link parent position child).parent? x = if x = child then some parent else t.parent? x := by
  rw [link, parent?_setParent _ (by rwa [size_modifyNode])]
  split
  · rfl
  · apply parent?_modifyNode
    intro node
    rfl

theorem children_link (hp : parent < t.size) (position : Nat) (x : NodeId) :
    (t.link parent position child).children x =
      if x = parent then
        (t.children x).insertIdx (min position (t.children x).length) child
      else t.children x := by
  rw [link, children_setParent]
  exact children_setChildren (fun cs => cs.insertIdx (min position cs.length) child) hp x

namespace Fits

variable (wf : t.WellFormed) (fits : t.Fits parent child)
include wf fits

theorem parent_lt : parent < t.size := by
  rcases fits.holder with rfl | h
  · exact wf.documentId_lt
  · obtain ⟨e, he⟩ := isElement_iff.1 h
    exact lt_size_of_kind? he

theorem children_perm (position : Nat) :
    ((t.link parent position child).children parent).Perm (child :: t.children parent) := by
  rw [children_link (fits.parent_lt wf), if_pos rfl]
  exact List.perm_insertIdx _ _ (Nat.min_le_right _ _)

theorem mem_children_link_iff (position : Nat) :
    a ∈ (t.link parent position child).children x ↔
      a ∈ t.children x ∨ x = parent ∧ a = child := by
  by_cases hx : x = parent
  · rw [hx, (fits.children_perm wf position).mem_iff, List.mem_cons]
    simp [or_comm]
  · rw [children_link (fits.parent_lt wf), if_neg hx]
    simp [hx]

/-- Above the linked node are the new parent and what is above that, and elsewhere nothing has
changed. -/
theorem grounded_link (position : Nat) :
    WellFounded (t.link parent position child).Parent := by
  have step : ∀ {a b}, (t.link parent position child).Parent a b →
      (b = child ∧ a = parent) ∨ t.Parent a b := by
    intro a b h
    rw [Parent, parent?_link fits.present] at h
    split at h
    · next hb => exact Or.inl ⟨hb, (Option.some.inj h).symm⟩
    · exact Or.inr h
  have outside : ∀ b, ¬ t.AtOrAbove child b → Acc (t.link parent position child).Parent b := by
    intro b
    induction b using wf.grounded.induction with
    | _ b ih =>
      intro hb
      constructor
      intro a ha
      rcases step ha with ⟨rfl, _⟩ | ha
      · exact absurd Relation.ReflTransGen.refl hb
      · exact ih a ha fun h => hb (h.tail ha)
  constructor
  intro b
  induction b using wf.grounded.induction with
  | _ b ih =>
    constructor
    intro a ha
    rcases step ha with ⟨_, rfl⟩ | ha
    · exact outside _ fits.acyclic
    · exact ih a ha

theorem wellFormed_link (root : ¬ t.SecondRoot parent child) (position : Nat) :
    (t.link parent position child).WellFormed where
  document_iff x := by rw [kind?_link, wf.document_iff]
  document_top := by
    rw [parent?_link fits.present, if_neg fits.ne_document.symm, wf.document_top]
  mem_children_iff p c := by
    rw [fits.mem_children_link_iff wf, parent?_link fits.present, wf.mem_children_iff]
    split
    · next hc =>
      rw [hc, fits.free]
      simp [eq_comm]
    · next hc => simp [hc]
  nodup_children p := by
    by_cases hp : p = parent
    · rw [hp, (fits.children_perm wf position).nodup_iff, List.nodup_cons, wf.mem_children_iff,
        fits.free]
      exact ⟨by simp, wf.nodup_children parent⟩
    · rw [children_link (fits.parent_lt wf), if_neg hp]
      exact wf.nodup_children p
  holder p c h := by
    rw [isElement_eq_of_kind? (kind?_link t parent position child p)]
    rcases (fits.mem_children_link_iff wf position).1 h with h | ⟨rfl, _⟩
    · exact wf.holder p c h
    · exact fits.holder
  one_root := by
    have he : (t.link parent position child).isElement = t.isElement :=
      funext fun x => isElement_eq_of_kind? (kind?_link t parent position child x)
    rw [childElements, he]
    by_cases hp : documentId = parent
    · rw [← hp] at root fits ⊢
      rw [((fits.children_perm wf position).filter _).length_eq, List.filter_cons]
      split
      · next hc =>
        have hroot : t.root? = none := by
          rw [← Option.not_isSome_iff_eq_none]
          exact fun h => root ⟨rfl, hc, h⟩
        rw [root?, List.head?_eq_none_iff, childElements] at hroot
        rw [hroot]
        exact Nat.le_refl 1
      · exact wf.one_root
    · rw [children_link (fits.parent_lt wf), if_neg hp]
      exact wf.one_root
  grounded := fits.grounded_link wf position

end Fits

end PartPatch.Tree
