import PartPatch.Proofs.Patch.Report

/-!
# The top level of a patched document

Below the document stand its root, comments, and what texts there are outside of the root. Two
operations change that. A removal that selects the root takes it away, and nothing can take its
place, since then there is nothing that a new root could be put beside. A text that is inserted
beside the root stays outside of it. A fragment cannot be inserted there.
-/

namespace PartPatch

set_option autoImplicit false

namespace Tree

/-- The name of an element. -/
def nameOf? (t : Tree) (x : NodeId) : Option QName :=
  (t.element? x).map Element.name

/-- The text of a text node. -/
def textOf? (t : Tree) (x : NodeId) : Option String :=
  match t.kind? x with
  | some (.text s) => some s
  | _ => none

/-- The names of the elements at the top level. -/
def rootNames (t : Tree) : List QName :=
  (t.children documentId).filterMap t.nameOf?

/-- The texts at the top level, which are outside of the root. -/
def looseTexts (t : Tree) : List String :=
  (t.children documentId).filterMap t.textOf?

/-- The elements at the top level have stayed, or have gone if the root was taken away, and the
texts have come there. -/
structure TopChange (uprooted : Prop) (texts : List String) (t u : Tree) : Prop where
  lost : uprooted → u.rootNames = []
  kept : ¬ uprooted → u.rootNames.Perm t.rootNames
  texts : u.looseTexts.Perm (texts ++ t.looseTexts)

variable {t u v : Tree} {x a p node : NodeId}

theorem textOf?_eq_some_iff {s : String} : t.textOf? x = some s ↔ t.kind? x = some (.text s) := by
  unfold textOf?
  split
  · next h => simp [h]
  · next h =>
    constructor
    · rintro ⟨⟩
    · intro hs
      exact absurd hs (h s)

theorem nameOf?_of_kind? (h : u.kind? x = t.kind? x) : u.nameOf? x = t.nameOf? x := by
  rw [nameOf?, nameOf?, element?, element?, h]

theorem textOf?_of_kind? (h : u.kind? x = t.kind? x) : u.textOf? x = t.textOf? x := by
  rw [textOf?, textOf?, h]

theorem childElements_eq_nil_iff : t.childElements documentId = [] ↔ t.rootNames = [] := by
  rw [childElements, rootNames, List.filter_eq_nil_iff, List.filterMap_eq_nil_iff]
  simp [nameOf?, isElement]

theorem one_of_isSome_root? (wf : t.WellFormed) (h : t.root?.isSome = true) :
    ∃ x, t.childElements documentId = [x] := by
  have hone := wf.one_root
  rw [root?, List.isSome_head?] at h
  exact List.length_eq_one_iff.1 (Nat.le_antisymm hone (List.length_pos_of_ne_nil h))

theorem rootNames_of_root {e : Element} (hroot : t.childElements documentId = [x])
    (he : t.element? x = some e) : t.rootNames = [e.name] := by
  have hnames : t.rootNames = (t.childElements documentId).filterMap t.nameOf? := by
    rw [rootNames, childElements, List.filterMap_filter]
    refine List.filterMap_congr ?_
    intro y _
    split
    · rfl
    · next hy => simpa [nameOf?, isElement] using hy
  rw [hnames, hroot]
  simp [nameOf?, he]

/-- The root is the only element at the top level. -/
theorem root_of_isSome (wf : t.WellFormed) (h : t.root?.isSome = true) :
    ∃ x e, t.childElements documentId = [x] ∧ t.element? x = some e ∧ t.rootNames = [e.name] := by
  obtain ⟨x, hroot⟩ := one_of_isSome_root? wf h
  obtain ⟨_, helement⟩ := mem_childElements_iff.1 (hroot ▸ List.mem_singleton_self x)
  obtain ⟨e, he⟩ := Option.isSome_iff_exists.1 helement
  exact ⟨x, e, hroot, he, rootNames_of_root hroot he⟩

namespace TopChange

theorem refl (t : Tree) : TopChange False [] t t :=
  ⟨fun h => h.elim, fun _ => List.Perm.refl _, List.Perm.refl _⟩

theorem trans {first second : Prop} {before after : List String}
    (h : TopChange first before t u) (h' : TopChange second after u v) :
    TopChange (first ∨ second) (after ++ before) t v where
  lost uprooted := by
    by_cases hsecond : second
    · exact h'.lost hsecond
    · have gone := h.lost (uprooted.resolve_right hsecond)
      exact List.perm_nil.1 (gone ▸ h'.kept hsecond)
  kept neither := by
    rw [not_or] at neither
    exact (h'.kept neither.2).trans (h.kept neither.1)
  texts := by
    rw [List.append_assoc]
    exact h'.texts.trans (h.texts.append_left after)

/-- The children of the document have stayed, and they have kept their names and texts. -/
theorem of_same (children : u.children documentId = t.children documentId)
    (names : ∀ x ∈ t.children documentId, u.nameOf? x = t.nameOf? x)
    (texts : ∀ x ∈ t.children documentId, u.textOf? x = t.textOf? x) :
    TopChange False [] t u where
  lost h := h.elim
  kept _ := by rw [rootNames, rootNames, children, List.filterMap_congr names]
  texts := by
    rw [looseTexts, looseTexts, children, List.filterMap_congr texts]
    rfl

theorem of_kinds (children : u.children documentId = t.children documentId)
    (kinds : ∀ x ∈ t.children documentId, u.kind? x = t.kind? x) : TopChange False [] t u :=
  of_same children (fun x hx => nameOf?_of_kind? (kinds x hx))
    fun x hx => textOf?_of_kind? (kinds x hx)

end TopChange

/-! ## Nodes are changed -/

theorem nameOf?_modifyElement {f : Element → Element} (name : ∀ e, (f e).name = e.name)
    (y : NodeId) : (t.modifyElement x f).nameOf? y = t.nameOf? y := by
  rw [nameOf?, nameOf?, element?_modifyElement]
  split
  · rw [Option.map_map]
    exact congrArg (Option.map · (t.element? y)) (funext name)
  · rfl

theorem textOf?_modifyElement (f : Element → Element) (y : NodeId) :
    (t.modifyElement x f).textOf? y = t.textOf? y := by
  rw [textOf?, textOf?, kind?_modifyElement]
  by_cases hy : y = x
  · rw [if_pos hy]
    cases t.kind? y with
    | none => rfl
    | some kind => cases kind <;> rfl
  · rw [if_neg hy]

theorem topChange_modifyElement {f : Element → Element} (name : ∀ e, (f e).name = e.name) :
    TopChange False [] t (t.modifyElement x f) :=
  .of_same (children_modifyElement t x f documentId) (fun y _ => nameOf?_modifyElement name y)
    fun y _ => textOf?_modifyElement f y

theorem topChange_setAttribute {name : QName} {value : String}
    (h : t.setAttribute x name value = .ok u) : TopChange False [] t u := by
  rw [eq_of_setAttribute h]
  refine topChange_modifyElement ?_
  intro e
  rfl

theorem topChange_setText (wf : t.WellFormed) {text : String} (h : t.setText x text = .ok u) :
    TopChange False [] t u := by
  have hx := kind?_ne_document wf (eq_of_setText h).1
  have children := (text_setText wf h).2 documentId hx.symm
  refine TopChange.of_kinds children ?_
  intro y hy
  have hlt := lt_size_of_parent? ((wf.mem_children_iff documentId y).1 hy)
  obtain ⟨n, hn⟩ := lt_size_iff.1 hlt
  have hkind : t.kind? y = some n.kind := by
    rw [kind?, hn]
    rfl
  rw [kind?_setText h hkind, hkind]

/-! ## Nodes are added -/

/-- What is planted is not attached yet, and what was there has stayed. -/
theorem Planted.kinds_top (wf : t.WellFormed) (planted : t.Planted u node) :
    ∀ x ∈ t.children documentId, u.kind? x = t.kind? x := by
  intro x hx
  exact planted.extends_.kinds x (lt_size_of_parent? ((wf.mem_children_iff documentId x).1 hx))

/-- What fits beside the root is no element. -/
theorem Planted.nameOf?_beside (wf : t.WellFormed) (planted : t.Planted u node)
    (root : t.root?.isSome = true) (fits : ¬ u.SecondRoot documentId node) :
    u.nameOf? node = none := by
  have children : u.children documentId = t.children documentId :=
    planted.children _ wf.documentId_lt
  have same : u.childElements documentId = t.childElements documentId := by
    rw [childElements, childElements, children]
    exact List.filter_congr fun x hx => isElement_eq_of_kind? (planted.kinds_top wf x hx)
  rw [nameOf?, Option.map_eq_none_iff, ← Option.not_isSome_iff_eq_none]
  intro helement
  refine fits ⟨rfl, helement, ?_⟩
  rw [Tree.root?, same]
  exact root

/-- A child of the document that is no element counts if it is a text. -/
theorem topChange_of_perm (perm : (u.children documentId).Perm (node :: t.children documentId))
    (kinds : ∀ x ∈ t.children documentId, u.kind? x = t.kind? x)
    (leaf : u.nameOf? node = none) : TopChange False (u.textOf? node).toList t u := by
  refine ⟨fun h => h.elim, fun _ => ?_, ?_⟩
  · have names := perm.filterMap u.nameOf?
    rw [List.filterMap_cons_none leaf,
      List.filterMap_congr fun x hx => nameOf?_of_kind? (kinds x hx)] at names
    exact names
  · have texts := perm.filterMap u.textOf?
    rw [← List.singleton_append, List.filterMap_append,
      List.filterMap_congr (l := t.children documentId)
        fun x hx => textOf?_of_kind? (kinds x hx)] at texts
    have new : [node].filterMap u.textOf? = (u.textOf? node).toList := by
      rw [List.filterMap_cons, List.filterMap_nil]
      cases u.textOf? node <;> rfl
    rw [new] at texts
    exact texts

/-- What is inserted below an element does not change the top level. What is inserted beside the
root is no element, and counts if it is a text. -/
theorem topChange_of_insertAt (wf : t.WellFormed) (planted : t.Planted u node) {position : Nat}
    (hp : p = documentId ∨ t.isElement p = true) (root : p = documentId → t.root?.isSome = true)
    (h : u.insertAt p position node = .ok v) :
    TopChange False (if p = documentId then (u.textOf? node).toList else []) t v := by
  have fits := planted.fits wf hp
  have children : u.children documentId = t.children documentId :=
    planted.children _ wf.documentId_lt
  rcases insertAt_eq planted.wellFormed fits position with ⟨_, heq⟩ | ⟨second, heq⟩
  · cases heq.symm.trans h
  · cases heq.symm.trans h
    have linked : ∀ x, (u.link p position node).kind? x = u.kind? x := kind?_link u p position node
    have kinds : ∀ x ∈ t.children documentId, (u.link p position node).kind? x = t.kind? x :=
      fun x hx => (linked x).trans (planted.kinds_top wf x hx)
    by_cases hdocument : p = documentId
    · subst hdocument
      have perm := fits.children_perm planted.wellFormed position
      rw [children] at perm
      have leaf := planted.nameOf?_beside wf (root rfl) second
      rw [← nameOf?_of_kind? (linked node)] at leaf
      rw [if_pos rfl, ← textOf?_of_kind? (linked node)]
      exact topChange_of_perm perm kinds leaf
    · rw [if_neg hdocument]
      refine .of_kinds ?_ kinds
      rw [children_link (fits.parent_lt planted.wellFormed), if_neg (Ne.symm hdocument), children]

end Tree

namespace Session

open Edit
open PartPatch.Tree

variable {t u v : Tree} {s : Session} {d : Draft} {a node : NodeId} {nodes : List NodeRef}

/-! ## Nodes are taken away -/

theorem nameOf?_removeNode (t : Tree) (n : NodeRef) (x : NodeId) :
    (removeNode t n).nameOf? x = t.nameOf? x := by
  cases n with
  | element y => exact nameOf?_of_kind? (kind?_detach t y x)
  | «attribute» y index =>
    simp only [removeNode]
    split
    · unfold removeAttribute
      split
      · rfl
      · refine nameOf?_modifyElement ?_ x
        intro e
        rfl
    · rfl

theorem textOf?_removeNode (t : Tree) (n : NodeRef) (x : NodeId) :
    (removeNode t n).textOf? x = t.textOf? x := by
  cases n with
  | element y => exact textOf?_of_kind? (kind?_detach t y x)
  | «attribute» y index =>
    simp only [removeNode]
    split
    · unfold removeAttribute
      split
      · rfl
      · exact textOf?_modifyElement _ x
    · rfl

theorem children_removeNode (wf : t.WellFormed) (n : NodeRef) (x : NodeId) :
    (removeNode t n).children x = (t.children x).filter fun c => NodeRef.element c ≠ n := by
  cases n with
  | element y =>
    rw [removeNode, children_detach wf]
    simp
  | «attribute» y index =>
    have same : (removeNode t (.attribute y index)).children x = t.children x := by
      simp only [removeNode]
      split
      · unfold removeAttribute
        split
        · rfl
        · exact children_modifyElement t y _ x
      · rfl
    rw [same]
    simp

/-- The children that are left are those that were not removed, and they have kept their names and
texts. -/
theorem left_removeNodes (wf : t.WellFormed) (nodes : List NodeRef) (x : NodeId) :
    (nodes.foldl removeNode t).children x =
        (t.children x).filter (fun c => NodeRef.element c ∉ nodes) ∧
      (∀ y, (nodes.foldl removeNode t).nameOf? y = t.nameOf? y) ∧
      ∀ y, (nodes.foldl removeNode t).textOf? y = t.textOf? y := by
  induction nodes generalizing t with
  | nil => simp
  | cons n nodes ih =>
    obtain ⟨children, names, texts⟩ := ih (wellFormed_removeNode wf n)
    refine ⟨?_, fun y => ?_, fun y => ?_⟩
    · rw [List.foldl_cons, children, children_removeNode wf, List.filter_filter]
      refine List.filter_congr ?_
      intro c _
      simp [Bool.and_comm]
    · rw [List.foldl_cons, names, nameOf?_removeNode]
    · rw [List.foldl_cons, texts, textOf?_removeNode]

/-- A removal takes the root away if it is among the nodes, and leaves the texts beside it. -/
theorem topChange_removeNodes (wf : t.WellFormed) (hin : ∀ n ∈ nodes, n.In t) :
    TopChange (∃ x, t.root? = some x ∧ .element x ∈ nodes) [] t (nodes.foldl removeNode t) := by
  obtain ⟨children, names, texts⟩ := left_removeNodes wf nodes documentId
  have isRoot : ∀ c ∈ t.children documentId, (t.nameOf? c).isSome = true →
      t.root? = some c := by
    intro c hc hname
    rw [nameOf?, Option.isSome_map] at hname
    exact wf.root?_eq_some (mem_childElements_iff.2 ⟨hc, hname⟩)
  refine ⟨?_, ?_, ?_⟩
  · rintro ⟨x, hx, hmem⟩
    rw [rootNames, children, List.filterMap_filter, List.filterMap_eq_nil_iff]
    intro c hc
    rw [names]
    split
    · next hleft =>
      rw [← Option.not_isSome_iff_eq_none]
      intro hname
      cases hx.symm.trans (isRoot c hc hname)
      simp [hmem] at hleft
    · rfl
  · intro kept
    rw [rootNames, children, List.filterMap_filter]
    refine List.Perm.of_eq (List.filterMap_congr ?_)
    intro c hc
    rw [names]
    split
    · rfl
    · next hmem =>
      symm
      rw [← Option.not_isSome_iff_eq_none]
      intro hname
      exact kept ⟨c, isRoot c hc hname, by simpa using hmem⟩
  · rw [List.nil_append, looseTexts, children, List.filterMap_filter]
    refine List.Perm.of_eq (List.filterMap_congr ?_)
    intro c _
    rw [texts]
    split
    · rfl
    · next hmem =>
      obtain ⟨e, he⟩ := isElement_iff.1 (hin (.element c) (by simpa using hmem))
      rw [textOf?, he]

/-! ## Operations -/

/-- The operation removes nodes, and the root is one of them. -/
def TakesRoot (s : Session) (t : Tree) : Operation → Prop
  | .remove target => ∃ nodes x, s.select t target = .ok nodes ∧ t.root? = some x ∧
      .element x ∈ nodes
  | _ => False

/-- The text that the operation inserts beside the root, if it is such an operation. -/
def textBeside? (s : Session) (t : Tree) : Operation → Option String
  | .insert _ anchor (.text value) placement =>
    match s.selectElement t anchor, s.substitute value with
    | .ok x, .ok text =>
      if (placement = .before ∨ placement = .after) ∧ t.root? = some x then some text else none
    | _, _ => none
  | _ => none

/-- What an operation does at the top level, if it is applied. -/
def Tops (s : Session) (operation : Operation) (d : Draft) (result : OperationResult)
    (d' : Draft) : Prop :=
  (result = .applied → TopChange (s.TakesRoot d.tree operation)
    (s.textBeside? d.tree operation).toList d.tree d'.tree) ∧
  (result = .alreadyApplied → d'.tree = d.tree)

theorem topChange_of_place (wf : t.WellFormed) (planted : t.Planted u node)
    (helement : t.isElement a = true) (attached : t.Attached a) {placement : Placement}
    (h : place u a node placement = .ok v) :
    TopChange False (if (placement = .before ∨ placement = .after) ∧ t.root? = some a then
      (u.textOf? node).toList else []) t v := by
  obtain ⟨p, position, hp, hv⟩ := insertAt_of_place h
  rcases hp with ⟨below, rfl⟩ | ⟨beside, hp⟩
  · have hdocument : p ≠ documentId := kind?_ne_document wf helement
    have top := topChange_of_insertAt wf planted (Or.inr helement)
      (fun e => absurd e hdocument) hv
    rw [if_neg hdocument] at top
    rw [if_neg]
    · exact top
    · rintro ⟨rfl | rfl, _⟩
      · rcases below with h | h <;> cases h
      · rcases below with h | h <;> cases h
  · rw [Tree.Parent, planted.extends_.parents a (wf.lt_size_of_attached attached)] at hp
    have hmem := (wf.mem_children_iff p a).2 hp
    have root : p = documentId ↔ t.root? = some a := by
      constructor
      · rintro rfl
        exact wf.root?_eq_some (mem_childElements_iff.2 ⟨hmem, helement⟩)
      · intro hroot
        have hchild := (mem_childElements_iff.1 (List.mem_of_head? hroot)).1
        exact parent_unique hp ((wf.mem_children_iff _ _).1 hchild)
    have top := topChange_of_insertAt wf planted (wf.holder p a hmem)
      (fun e => by rw [root.1 e]; rfl) hv
    simp only [root, beside, true_and] at top ⊢
    exact top

section Operations

variable (sound : s.registry.Sound) (wf : d.tree.WellFormed)
include sound wf

omit sound in
theorem instantiate_plants (key : String) :
    Ends (s.instantiate key) d
      (fun node d' => d.tree.Planted d'.tree node ∧ d'.tree.textOf? node = none)
      fun _ _ => True := by
  rw [ends_instantiate]
  refine ⟨?_, fun _ _ => trivial⟩
  intro f _
  refine ⟨?_, fun _ _ _ => trivial⟩
  intro made ids h
  rcases Fragment.instantiate_cases wf f s.tokens d.ids s.registry with
    ⟨made', hmade, planted, _⟩ | ⟨e, he, _⟩
  · rw [h] at hmade
    cases hmade
    refine ⟨planted, ?_⟩
    have hplant := Fragment.plant_of_instantiate h
    rcases hroot : f.root with ⟨name, attributes, text, children⟩
    rw [hroot, FragmentNode.render] at hplant
    rw [textOf?, kind?_of_plant wf hplant]
  · rw [h] at he
    cases he

omit sound in
theorem set_tops (target value : String) :
    Ends (s.set target value) d (s.Tops (.set target value) d) fun _ _ => True := by
  rw [ends_set]
  refine ⟨?_, fun _ _ => trivial⟩
  intro n _
  refine ⟨?_, fun _ _ => trivial⟩
  intro v _
  refine ⟨fun _ => ⟨by rintro ⟨⟩, fun _ => rfl⟩, fun _ => ?_⟩
  rw [ends_change]
  refine ⟨?_, fun _ _ => trivial⟩
  intro u hu
  refine ⟨fun _ => ?_, by rintro ⟨⟩⟩
  cases n with
  | element x => exact topChange_setText wf hu
  | «attribute» x index =>
    simp only [assign] at hu
    split at hu
    · exact topChange_setAttribute hu
    · cases hu

theorem insert_tops (target anchor : String) (payload : Payload) (placement : Placement) :
    Ends (s.insert target anchor payload placement) d
      (s.Tops (.insert target anchor payload placement) d) fun _ _ => True := by
  rw [ends_insert]
  refine ⟨?_, fun _ _ => trivial⟩
  intro nodes _
  refine ⟨fun _ => ⟨by rintro ⟨⟩, fun _ => rfl⟩, fun _ => ⟨?_, fun _ _ => trivial⟩⟩
  intro a ha
  obtain ⟨helement, attached⟩ := element_of_selectElement sound wf ha
  rw [ends_prepare]
  refine ⟨?_, ?_⟩
  · rintro key rfl
    refine (instantiate_plants wf key).mono ?_ fun _ _ _ => trivial
    rintro node d' ⟨planted, text⟩
    rw [ends_change]
    refine ⟨?_, fun _ _ => trivial⟩
    intro v hv
    refine ⟨fun _ => ?_, by rintro ⟨⟩⟩
    have top := topChange_of_place wf planted helement attached hv
    rw [text, Option.toList_none, ite_self] at top
    exact top
  · rintro value rfl
    refine ⟨?_, fun _ _ => trivial⟩
    intro text htext
    rw [ends_change]
    refine ⟨?_, fun _ _ => trivial⟩
    intro v hv
    refine ⟨fun _ => ?_, by rintro ⟨⟩⟩
    have planted := planted_push wf (by simp : NodeKind.text text ≠ .document)
    have hnode : (d.tree.push (.text text)).1.textOf? d.tree.size = some text := by
      rw [textOf?_eq_some_iff, kind?_push, if_pos rfl]
    have top := topChange_of_place wf planted helement attached hv
    rw [push_snd, hnode] at top
    simp only [textBeside?, ha, htext]
    split
    · next beside =>
      rw [if_pos beside] at top
      exact top
    · next beside =>
      rw [if_neg beside] at top
      exact top

theorem remove_tops (target : String) :
    Ends (s.remove target) d (s.Tops (.remove target) d) fun _ _ => True := by
  rw [ends_remove]
  refine ⟨?_, fun _ _ => trivial⟩
  intro nodes hnodes
  refine ⟨fun _ => ⟨by rintro ⟨⟩, fun _ => rfl⟩, fun _ => ⟨fun _ => ?_, by rintro ⟨⟩⟩⟩
  obtain ⟨p, b, _, formed, reads⟩ := select_reads sound hnodes
  obtain ⟨_, mem⟩ := (reads d.tree wf).2 _ hnodes
  have top := topChange_removeNodes wf fun n hn =>
    Selection.in_of_leads_document wf formed ((mem n).1 hn)
  have same : s.TakesRoot d.tree (.remove target) ↔
      ∃ x, d.tree.root? = some x ∧ .element x ∈ nodes := by
    simp [TakesRoot, hnodes]
  rw [← same] at top
  exact top

theorem ensurePath_tops (target anchor fragment : String) (placement : Placement) :
    Ends (s.ensurePath target anchor fragment placement) d
      (s.Tops (.ensurePath target anchor fragment placement) d) fun _ _ => True := by
  rw [ends_ensurePath]
  refine ⟨?_, fun _ _ => trivial⟩
  intro nodes _
  refine ⟨fun _ => ⟨by rintro ⟨⟩, fun _ => rfl⟩, fun _ => ⟨?_, fun _ _ => trivial⟩⟩
  intro a ha
  obtain ⟨helement, attached⟩ := element_of_selectElement sound wf ha
  refine (instantiate_plants wf fragment).mono ?_ fun _ _ _ => trivial
  rintro node d' ⟨planted, text⟩
  rw [ends_change]
  refine ⟨?_, fun _ _ => trivial⟩
  intro v hv
  refine ⟨fun reached _ => ⟨fun _ => trivial, fun _ => ⟨fun _ => ?_, by rintro ⟨⟩⟩⟩,
    fun _ _ => trivial⟩
  have top := topChange_of_place wf planted helement attached hv
  rw [text, Option.toList_none, ite_self] at top
  exact top

omit sound wf in
theorem ensureAttr_tops (target attr value : String) :
    Ends (s.ensureAttr target attr value) d (s.Tops (.ensureAttr target attr value) d)
      fun _ _ => True := by
  rw [ends_ensureAttr]
  refine ⟨?_, fun _ _ => trivial⟩
  intro x _
  refine ⟨?_, fun _ => trivial⟩
  intro name _
  refine ⟨?_, fun _ _ => trivial⟩
  intro v _
  refine ⟨fun _ => ⟨by rintro ⟨⟩, fun _ => rfl⟩, fun _ => ?_⟩
  rw [ends_change]
  exact ⟨fun u hu => ⟨fun _ => topChange_setAttribute hu, by rintro ⟨⟩⟩, fun _ _ => trivial⟩

theorem action_tops {operation : Operation} {action : Edit OperationResult}
    (h : s.action? operation = some action) :
    Ends action d (s.Tops operation d) fun _ _ => True := by
  cases operation with
  | set target value =>
    rw [← Option.some.inj h]
    exact set_tops wf target value
  | insert target anchor payload placement =>
    rw [← Option.some.inj h]
    exact insert_tops sound wf target anchor payload placement
  | remove target =>
    rw [← Option.some.inj h]
    exact remove_tops sound wf target
  | ensurePath target anchor fragment placement =>
    rw [← Option.some.inj h]
    exact ensurePath_tops sound wf target anchor fragment placement
  | ensurePart part fragment => cases h
  | ensureAttr target attr value =>
    rw [← Option.some.inj h]
    exact ensureAttr_tops target attr value

end Operations

/-! ## Histories -/

variable {P : Type} [Package P] {w : Workspace P}

/-- The move is an applied removal that takes the root away. -/
def Uproots (s : Session) (w : Workspace P) : Move → Prop
  | .operation index record => (s.applyOperation w index record).1 = .ok .applied ∧
      s.TakesRoot w.tree record.operation
  | .compaction => False

/-- The text that the move puts beside the root, if it is an applied insertion that does. -/
def puts (s : Session) (w : Workspace P) : Move → List String
  | .operation index record =>
    match (s.applyOperation w index record).1 with
    | .ok .applied => (s.textBeside? w.tree record.operation).toList
    | _ => []
  | .compaction => []

/-- One of the moves takes the root away. -/
def UprootsAny (s : Session) (w : Workspace P) : List Move → Prop
  | [] => False
  | m :: moves => s.Uproots w m ∨ s.UprootsAny (s.move w m) moves

/-- The texts that the moves put beside the root, the last one first. -/
def putsAll (s : Session) (w : Workspace P) : List Move → List String
  | [] => []
  | m :: moves => s.putsAll (s.move w m) moves ++ s.puts w m

theorem topChange_of_mirrors {twin : NodeId → NodeId → Prop} (m : t.Mirrors .full twin u) :
    TopChange False [] t u := by
  have kinds : ∀ {x y}, twin x y → u.kind? y = t.kind? x := by
    intro x y hxy
    rcases m.kind?_cases hxy with ⟨e, f, he, hf, hv⟩ | ⟨k, _, hk, hl⟩
    · rw [View.element_full, View.element_full] at hv
      rw [he, hf, hv]
    · rw [hk, hl]
  have same : ∀ {α : Type} {f g : NodeId → Option α}, (∀ {x y}, twin x y → g y = f x) →
      (u.children documentId).filterMap g = (t.children documentId).filterMap f := by
    intro α f g hfg
    have children := m.children m.document
    generalize t.children documentId = xs at children
    generalize u.children documentId = ys at children
    induction children with
    | nil => rfl
    | cons hxy _ ih => rw [List.filterMap_cons, List.filterMap_cons, ih, hfg hxy]
  refine ⟨fun h => h.elim, fun _ => List.Perm.of_eq (same ?_), List.Perm.of_eq (same ?_)⟩
  · intro x y hxy
    rw [nameOf?, nameOf?, element?, element?, kinds hxy]
  · intro x y hxy
    rw [textOf?, textOf?, kinds hxy]

/-- What an operation does at the top level that was carried out. -/
theorem tops_of_execute (sound : s.registry.Sound) (wf : w.tree.WellFormed)
    {operation : Operation} {result : OperationResult} {left : Workspace P}
    (h : s.execute w operation = (.ok result, left)) :
    s.Tops operation ⟨w.tree, w.ids⟩ result ⟨left.tree, left.ids⟩ := by
  cases ha : s.action? operation with
  | none =>
    obtain ⟨part, fragment, rfl⟩ := ensurePart_of_action? ha
    obtain ⟨_, htree, _⟩ := execute_ensurePart h
    refine ⟨fun _ => ?_, fun _ => htree⟩
    change TopChange False [] w.tree left.tree
    rw [htree]
    exact .refl w.tree
  | some action =>
    rw [execute_eq_edit ha] at h
    have wfd : (Draft.mk w.tree w.ids).tree.WellFormed := wf
    exact (edit_ends (action_tops sound wfd ha) h).1 result rfl

/-- What one move does at the top level. -/
theorem topChange_of_move (sound : s.registry.Sound) (wf : w.tree.WellFormed) (m : Move) :
    TopChange (s.Uproots w m) (s.puts w m) w.tree (s.move w m).tree := by
  cases m with
  | compaction =>
    obtain ⟨_, m⟩ := wf.mirrors_compact .full
    exact topChange_of_mirrors m
  | operation index record =>
    have unchanged : (s.applyOperation w index record).1 ≠ .ok .applied →
        (s.applyOperation w index record).2.tree = w.tree →
        TopChange (s.Uproots w (.operation index record)) (s.puts w (.operation index record))
          w.tree (s.applyOperation w index record).2.tree := by
      intro hne same
      have nothing : s.puts w (.operation index record) = [] := by
        simp only [puts]
      rw [same, nothing]
      exact ⟨fun h => absurd h.1 hne, fun _ => List.Perm.refl _, List.Perm.refl _⟩
    rcases he : s.execute w record.operation with ⟨e | result, left⟩
    · refine unchanged ?_ ?_
      · simp only [applyOperation, he]
        split
        · rintro ⟨⟩
        · rintro ⟨⟩
      · simp only [applyOperation, he]
        split
        · exact (rollback_draft he).1
        · exact (rollback_draft he).1
    · have hcarried : s.applyOperation w index record = (.ok result, left) := by
        simp only [applyOperation, he]
      obtain ⟨applied, already⟩ := tops_of_execute sound wf he
      rcases carried_of_execute he with rfl | rfl
      · have top := applied rfl
        simp only [move, Uproots, puts, hcarried, true_and]
        exact top
      · refine unchanged ?_ ?_
        · rw [hcarried]
          rintro ⟨⟩
        · rw [hcarried]
          exact already rfl

theorem wellFormed_move (sound : s.registry.Sound) (wf : w.tree.WellFormed) (m : Move) :
    (s.move w m).tree.WellFormed := by
  cases m with
  | operation index record => exact wellFormed_applyOperation sound wf index record
  | compaction => exact wf.compact

theorem wellFormed_follow (sound : s.registry.Sound) (wf : w.tree.WellFormed)
    (moves : List Move) : (s.follow w moves).tree.WellFormed := by
  induction moves generalizing w with
  | nil => exact wf
  | cons m moves ih => exact ih (wellFormed_move sound wf m)

/-- What a whole history does at the top level. -/
theorem topChange_of_follow (sound : s.registry.Sound) (wf : w.tree.WellFormed)
    (moves : List Move) :
    TopChange (s.UprootsAny w moves) (s.putsAll w moves) w.tree (s.follow w moves).tree := by
  induction moves generalizing w with
  | nil => exact .refl _
  | cons m moves ih =>
    exact (topChange_of_move sound wf m).trans (ih (wellFormed_move sound wf m))

/-- A document that is patched keeps its one root, unless an applied removal takes the root away,
and then it has no root any more. The texts beside the root are those that were read and those that
applied insertions put there. -/
theorem top_of_patched {document : Registry.Document} {source : String}
    (compiled : Registry.compile document = .ok s.registry)
    (hread : Xml.read source = .ok w.tree) (moves : List Move) :
    ∃ x e, w.tree.childElements documentId = [x] ∧ w.tree.element? x = some e ∧
      (s.UprootsAny w moves → (s.follow w moves).tree.childElements documentId = []) ∧
      (¬ s.UprootsAny w moves → ∃ y f, (s.follow w moves).tree.childElements documentId = [y] ∧
        (s.follow w moves).tree.element? y = some f ∧ f.name = e.name) ∧
      (s.follow w moves).tree.looseTexts.Perm (s.putsAll w moves ++ w.tree.looseTexts) := by
  have sound := Registry.sound_of_compile compiled
  have wf := Xml.wellFormed_of_read hread
  obtain ⟨x, e, hroots, he, hnames⟩ := root_of_isSome wf (Xml.build_of_read hread).2
  have top := topChange_of_follow sound wf moves
  refine ⟨x, e, hroots, he, ?_, ?_, top.texts⟩
  · intro uprooted
    exact childElements_eq_nil_iff.2 (top.lost uprooted)
  · intro stays
    have names := top.kept stays
    rw [hnames, List.perm_singleton] at names
    have hroot : (s.follow w moves).tree.root?.isSome = true := by
      rw [root?, List.isSome_head?, Ne, childElements_eq_nil_iff, names]
      exact List.cons_ne_nil _ _
    obtain ⟨y, f, hroots', hf, hnames'⟩ := root_of_isSome (wellFormed_follow sound wf moves) hroot
    rw [names] at hnames'
    exact ⟨y, f, hroots', hf, (List.cons.inj hnames').1.symm⟩

/-- A text is put in front of the list, and then the list is removed. -/
def textForList : List OperationRecord :=
  [⟨.insert "gap" "list" (.text "text") .before, false⟩, ⟨.remove "list", false⟩]

/-- What is left is a text and no document. -/
theorem top_emptied :
    Registry.compile Registry.itemList = .ok itemList.registry ∧
    Xml.read "<list><item id='1'/></list>" = .ok oneItem.tree ∧
    Patch.issuesAgainst ⟨⟨"", none, none⟩, textForList⟩ itemList.registry = [] ∧
    (itemList.apply oneItem ⟨⟨"", none, none⟩, textForList⟩).1 = .ok ⟨"",
      [⟨0, .insert, ["gap", "list"], .applied⟩, ⟨1, .remove, ["list"], .applied⟩]⟩ ∧
    (itemList.apply oneItem ⟨⟨"", none, none⟩, textForList⟩).2.tree.childElements documentId = [] ∧
    (itemList.apply oneItem ⟨⟨"", none, none⟩, textForList⟩).2.tree.looseTexts = ["text"] ∧
    Xml.read (Xml.write (itemList.apply oneItem ⟨⟨"", none, none⟩, textForList⟩).2.tree) =
      .error .missingRoot := by
  refine ⟨Registry.compile_itemList, read_oneItem, ?_, ?_, ?_, ?_, ?_⟩
  all_goals cbv

/-- The list stays when its content is replaced, and is lost when it is removed. -/
theorem top_of_patched_oneItem :
    (∃ y f, (itemList.follow oneItem
        [.operation 0 ⟨.set "list" "text", false⟩, .compaction]).tree.childElements documentId =
          [y] ∧
      (itemList.follow oneItem
        [.operation 0 ⟨.set "list" "text", false⟩, .compaction]).tree.element? y = some f ∧
      f.name = .plain "list") ∧
    (itemList.follow oneItem
      [.operation 0 ⟨.remove "list", false⟩]).tree.childElements documentId = [] := by
  refine ⟨?_, ?_⟩
  · obtain ⟨x, e, hroots, he, _, stays, _⟩ :=
      top_of_patched (s := itemList) Registry.compile_itemList read_oneItem
        [.operation 0 ⟨.set "list" "text", false⟩, .compaction]
    have first : oneItem.tree.childElements documentId = [1] := by cbv
    cases hroots.symm.trans first
    cases he
    refine stays ?_
    simp [UprootsAny, Uproots, TakesRoot]
  · obtain ⟨_, _, _, _, lost, _, _⟩ :=
      top_of_patched (s := itemList) Registry.compile_itemList read_oneItem
        [.operation 0 ⟨.remove "list", false⟩]
    have applied : (itemList.applyOperation oneItem 0 ⟨.remove "list", false⟩).1 =
        .ok .applied := by cbv
    have selected : itemList.select oneItem.tree "list" = .ok [.element 1] := by cbv
    have root : oneItem.tree.root? = some 1 := by cbv
    exact lost (Or.inl ⟨applied, _, _, selected, root, List.mem_cons_self⟩)

end Session

end PartPatch
