import PartPatch.Proofs.Tree.Content
import PartPatch.Proofs.Tree.Order

/-!
# Outlines

An outline is the content of a document together with the names of the nodes that it stands at. So
it also tells which nodes of a changed document are the old ones. What an operation does to a tree
is an edit of the outline: something takes the place of an element, and all else is kept.
-/

namespace PartPatch

set_option autoImplicit false

inductive Outline where
  | element (id : NodeId) (element : Element) (children : List Outline)
  | text (id : NodeId) (text : String)
  | comment (id : NodeId) (text : String)
deriving Repr

namespace Outline

mutual

/-- What stands there, without the names of the nodes. -/
def content : Outline → Content
  | element _ e children => .element e (contents children)
  | text _ s => .text s
  | comment _ s => .comment s

def contents : List Outline → List Content
  | [] => []
  | o :: os => content o :: contents os

end

mutual

/-- The names of the nodes in document order. -/
def ids : Outline → List NodeId
  | element id _ children => id :: idsAll children
  | text id _ => [id]
  | comment id _ => [id]

def idsAll : List Outline → List NodeId
  | [] => []
  | o :: os => ids o ++ idsAll os

end

mutual

/-- Puts in the place of each element what `f` makes of it, once that was done below the element. -/
def edit (f : NodeId → Element → List Outline → List Outline) : Outline → List Outline
  | element id e children => f id e (editAll f children)
  | text id s => [text id s]
  | comment id s => [comment id s]

def editAll (f : NodeId → Element → List Outline → List Outline) : List Outline → List Outline
  | [] => []
  | o :: os => edit f o ++ editAll f os

end

theorem contents_eq_map (os : List Outline) : contents os = os.map content := by
  induction os with
  | nil => rfl
  | cons o os ih => rw [contents, List.map_cons, ih]

theorem idsAll_eq_flatMap (os : List Outline) : idsAll os = os.flatMap ids := by
  induction os with
  | nil => rfl
  | cons o os ih => rw [idsAll, List.flatMap_cons, ih]

theorem editAll_eq_flatMap (f : NodeId → Element → List Outline → List Outline)
    (os : List Outline) : editAll f os = os.flatMap (edit f) := by
  induction os with
  | nil => rfl
  | cons o os ih => rw [editAll, List.flatMap_cons, ih]

end Outline

namespace Tree

/-- The outline of what stands at the node, looking at most `fuel` levels down. -/
def outlineUpTo (t : Tree) : Nat → NodeId → List Outline
  | 0, _ => []
  | fuel + 1, id =>
    match t.kind? id with
    | some (.element e) => [.element id e ((t.children id).flatMap (t.outlineUpTo fuel))]
    | some (.text s) => [.text id s]
    | some (.comment s) => [.comment id s]
    | _ => []

def outlineAt (t : Tree) : NodeId → List Outline :=
  t.outlineUpTo t.size

def outlineBelow (t : Tree) (id : NodeId) : List Outline :=
  (t.children id).flatMap t.outlineAt

/-- The outline of the document. -/
def outline (t : Tree) : List Outline :=
  t.outlineBelow documentId

variable {t u : Tree} {x p : NodeId} {e : Element}

/-- Nothing stands below a node that is no element. -/
theorem WellFormed.children_of_not_isElement (wf : t.WellFormed) (hx : t.isElement x = false)
    (hdocument : x ≠ documentId) : t.children x = [] := by
  rw [List.eq_nil_iff_forall_not_mem]
  intro c hc
  rw [wf.isElement_of_holder hc hdocument] at hx
  cases hx

namespace WellFormed

variable (wf : t.WellFormed)
include wf

/-- The recursive form of the outline of a node. -/
theorem outlineAt_eq (x : NodeId) :
    t.outlineAt x = match t.kind? x with
      | some (.element e) => [.element x e (t.outlineBelow x)]
      | some (.text s) => [.text x s]
      | some (.comment s) => [.comment x s]
      | _ => [] := by
  obtain ⟨n, hn⟩ := Nat.exists_eq_succ_of_ne_zero (Nat.ne_of_gt wf.documentId_lt)
  have step : ∀ k m x, (∀ c ∈ t.children x, t.outlineUpTo k c = t.outlineUpTo m c) →
      t.outlineUpTo (k + 1) x = t.outlineUpTo (m + 1) x := by
    intro k m x h
    rw [outlineUpTo, outlineUpTo, List.flatMap_congr h]
  have below : (t.children x).flatMap (t.outlineUpTo n) = t.outlineBelow x := by
    apply List.flatMap_congr
    intro c hc
    have hp := (wf.mem_children_iff x c).1 hc
    have hpos := wf.length_lineage_pos x
    have hlength : (t.lineage c).length = (t.lineage x).length + 1 := by
      rw [wf.lineage_of_parent hp, List.length_cons]
    exact wf.levels_stable step (lt_size_of_parent? hp) (by omega) (by omega)
  rw [outlineAt, hn, outlineUpTo, below]

theorem outlineAt_of_element (h : t.kind? x = some (.element e)) :
    t.outlineAt x = [.element x e (t.outlineBelow x)] := by
  rw [wf.outlineAt_eq, h]

/-- The outline of a node that is no element depends on nothing but the node. -/
theorem outlineAt_of_leaf (wfu : u.WellFormed) (hx : t.isElement x = false)
    (h : u.kind? x = t.kind? x) : u.outlineAt x = t.outlineAt x := by
  rw [wfu.outlineAt_eq, wf.outlineAt_eq, h]
  split
  · next e he =>
    rw [isElement_iff.2 ⟨e, he⟩] at hx
    cases hx
  · rfl
  · rfl
  · rfl

theorem contents_outlineAt (x : NodeId) : Outline.contents (t.outlineAt x) = t.contentAt x := by
  induction x using wf.descend with
  | step x ih =>
    have below : Outline.contents (t.outlineBelow x) = t.contentBelow x := by
      rw [Outline.contents_eq_map, outlineBelow, List.map_flatMap, contentBelow_eq]
      apply List.flatMap_congr
      intro c hc
      rw [← Outline.contents_eq_map, ih c hc]
    rw [wf.outlineAt_eq, wf.contentAt_eq]
    cases t.kind? x with
    | none => rfl
    | some kind =>
      cases kind with
      | document => rfl
      | element e => exact congrArg (fun cs => [Content.element e cs]) below
      | text s => rfl
      | comment s => rfl

/-- Without the names an outline is the content of the document. -/
theorem contents_outline : Outline.contents t.outline = t.content := by
  rw [Outline.contents_eq_map, outline, outlineBelow, List.map_flatMap, content, contentBelow_eq]
  apply List.flatMap_congr
  intro c _
  rw [← Outline.contents_eq_map, wf.contents_outlineAt]

/-- A node with a content has an outline of this content. -/
theorem exists_outline {c : Content} (h : t.contentAt x = [c]) :
    ∃ o, t.outlineAt x = [o] ∧ o.content = c := by
  rw [← wf.contents_outlineAt, Outline.contents_eq_map, List.map_eq_singleton_iff] at h
  exact h

theorem idsAll_outlineAt (hx : t.Parent p x) : Outline.idsAll (t.outlineAt x) = t.subtree x := by
  induction x using wf.descend generalizing p with
  | step x ih =>
    have hdocument := wf.ne_document_of_parent hx
    have leaf : t.isElement x = false → t.subtree x = [x] := by
      intro hleaf
      rw [wf.subtree_eq, wf.children_of_not_isElement hleaf hdocument, List.flatMap_nil]
    obtain ⟨c, _, hkind, _⟩ := wf.exists_content hx
    rw [wf.outlineAt_eq, hkind]
    cases c with
    | element e cs =>
      have below : Outline.idsAll (t.outlineBelow x) = (t.children x).flatMap t.subtree := by
        rw [Outline.idsAll_eq_flatMap, outlineBelow, List.flatMap_assoc]
        apply List.flatMap_congr
        intro c hc
        rw [← Outline.idsAll_eq_flatMap, ih c hc ((wf.mem_children_iff x c).1 hc)]
      rw [wf.subtree_eq, ← below]
      exact List.append_nil _
    | text s =>
      rw [leaf (by rw [isElement, element?, hkind]; rfl)]
      rfl
    | comment s =>
      rw [leaf (by rw [isElement, element?, hkind]; rfl)]
      rfl

/-- An outline names all attached nodes but the document, in document order. -/
theorem idsAll_outline : documentId :: Outline.idsAll t.outline = t.preorder := by
  rw [preorder, wf.subtree_eq, Outline.idsAll_eq_flatMap, outline, outlineBelow,
    List.flatMap_assoc]
  congr 1
  apply List.flatMap_congr
  intro c hc
  rw [← Outline.idsAll_eq_flatMap, wf.idsAll_outlineAt ((wf.mem_children_iff _ c).1 hc)]

theorem count_idsAll_outline (attached : t.Attached x) (hdocument : x ≠ documentId) :
    (Outline.idsAll t.outline).count x = 1 := by
  have distinct := wf.nodup_preorder
  have mem := wf.mem_preorder_iff.2 attached
  rw [← wf.idsAll_outline] at distinct mem
  exact List.count_eq_one_of_mem (List.nodup_cons.1 distinct).2
    ((List.mem_cons.1 mem).resolve_left hdocument)

variable {f : NodeId → Element → List Outline → List Outline}

/-- An edit of an outline, by what it makes of each node. -/
theorem editAll_outlineAt {made : NodeId → List Outline}
    (leaves : ∀ x, t.Attached x → t.isElement x = false → made x = t.outlineAt x)
    (elements : ∀ x e, t.Attached x → t.kind? x = some (.element e) →
      made x = f x e ((t.children x).flatMap made))
    (attached : t.Attached x) : Outline.editAll f (t.outlineAt x) = made x := by
  induction x using wf.descend with
  | step x ih =>
    cases hx : t.isElement x with
    | true =>
      obtain ⟨e, he⟩ := isElement_iff.1 hx
      have below : Outline.editAll f (t.outlineBelow x) = (t.children x).flatMap made := by
        rw [Outline.editAll_eq_flatMap, outlineBelow, List.flatMap_assoc]
        apply List.flatMap_congr
        intro c hc
        rw [← Outline.editAll_eq_flatMap]
        exact ih c hc (wf.attached_of_mem_children attached hc)
      rw [wf.outlineAt_of_element he, elements x e attached he, ← below]
      exact List.append_nil _
    | false =>
      rw [leaves x attached hx, wf.outlineAt_eq]
      split
      · next e he =>
        rw [isElement_iff.2 ⟨e, he⟩] at hx
        cases hx
      · rfl
      · rfl
      · rfl

/-- A tree has the edited outline if in the place of each node of the first one there stand nodes
of the second that show what the edit makes of it. -/
theorem outline_eq_editAll (stand : NodeId → List NodeId)
    (leaves : ∀ x, t.Attached x → t.isElement x = false →
      (stand x).flatMap u.outlineAt = t.outlineAt x)
    (elements : ∀ x e, t.Attached x → t.kind? x = some (.element e) →
      (stand x).flatMap u.outlineAt =
        f x e (((t.children x).flatMap stand).flatMap u.outlineAt))
    (top : u.children documentId = (t.children documentId).flatMap stand) :
    u.outline = Outline.editAll f t.outline := by
  rw [Outline.editAll_eq_flatMap, outline, outline, outlineBelow, outlineBelow, top,
    List.flatMap_assoc, List.flatMap_assoc]
  apply List.flatMap_congr
  intro c hc
  rw [← Outline.editAll_eq_flatMap]
  symm
  refine wf.editAll_outlineAt leaves ?_ (wf.attached_of_mem_children t.attached_document hc)
  intro x e attached he
  rw [elements x e attached he, List.flatMap_assoc]

end WellFormed

end Tree

end PartPatch
