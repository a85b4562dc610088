import Mathlib.Data.List.Forall2
import PartPatch.Proofs.Tree.Content
import PartPatch.Proofs.Tree.Order

/-!
# Trees that mirror one another

Two trees may hold the same nodes under different names, among nodes that only one of them has. A
relation pairs the names, one to one; paired nodes agree in kind, and their parents and children are
paired again. What is compared of an element is a matter of the *view*: everything, or only what its
names mean.
-/

namespace PartPatch

set_option autoImplicit false

/-- What is seen of names, declarations and headers. Local part and namespace of a name are seen in
any case. -/
structure View where
  name : QName → QName
  declarations : List NamespaceDecl → List NamespaceDecl
  header : Option Header → Option Header
  matches_name : ∀ q localName namespaceUri,
    (name q).Matches localName namespaceUri ↔ q.Matches localName namespaceUri

namespace View

/-- Everything is seen. -/
def full : View :=
  ⟨id, id, id, fun _ _ _ => Iff.rfl⟩

variable (v : View)

def attr (a : Attribute) : Attribute :=
  ⟨v.name a.name, a.value⟩

def element (e : Element) : Element :=
  ⟨v.name e.name, e.attributes.map v.attr, v.declarations e.declarations⟩

def kind : NodeKind → NodeKind
  | .element e => .element (v.element e)
  | k => k

mutual

def content : Content → Content
  | .element e children => .element (v.element e) (contents children)
  | .text s => .text s
  | .comment s => .comment s

def contents : List Content → List Content
  | [] => []
  | c :: cs => content c :: contents cs

end

theorem contents_eq_map (cs : List Content) : v.contents cs = cs.map v.content := by
  induction cs with
  | nil => rfl
  | cons c cs ih => rw [contents, ih, List.map_cons]

theorem contents_flatMap {α β : Type} {R : α → β → Prop} {f : α → List Content}
    {g : β → List Content} (h : ∀ a b, R a b → v.contents (f a) = v.contents (g b))
    {as : List α} {bs : List β} (hab : List.Forall₂ R as bs) :
    v.contents (as.flatMap f) = v.contents (bs.flatMap g) := by
  simp only [v.contents_eq_map] at h ⊢
  induction hab with
  | nil => rfl
  | cons hr _ ih =>
    rw [List.flatMap_cons, List.flatMap_cons, List.map_append, List.map_append, h _ _ hr, ih]

mutual

theorem textOf_content : ∀ c : Content, (v.content c).textOf = c.textOf
  | .element _ children => by rw [content, Content.textOf, Content.textOf, textOfAll_contents]
  | .text _ => rfl
  | .comment _ => rfl

theorem textOfAll_contents : ∀ cs : List Content,
    Content.textOfAll (v.contents cs) = Content.textOfAll cs
  | [] => rfl
  | c :: cs => by
    rw [contents, Content.textOfAll, Content.textOfAll, textOf_content c, textOfAll_contents cs]

end

theorem attr_full : full.attr = id := rfl

theorem element_full (e : Element) : full.element e = e := by
  rw [element, attr_full, List.map_id]
  rfl

mutual

theorem content_full : ∀ c : Content, full.content c = c
  | .element e children => by rw [content, element_full, contents_full children]
  | .text _ => rfl
  | .comment _ => rfl

theorem contents_full : ∀ cs : List Content, full.contents cs = cs
  | [] => rfl
  | c :: cs => by rw [contents, content_full c, contents_full cs]

end

/-- Elements that look the same have attributes that look the same. -/
theorem map_attr_eq {e f : Element} (h : v.element e = v.element f) :
    e.attributes.map v.attr = f.attributes.map v.attr :=
  congrArg Element.attributes h

end View

namespace Tree

variable {v : View} {twin : NodeId → NodeId → Prop} {t u : Tree} {a b x x' y y' : NodeId}

structure Mirrors (v : View) (twin : NodeId → NodeId → Prop) (t u : Tree) : Prop where
  wellFormed : t.WellFormed
  mirrored : u.WellFormed
  header : v.header t.header = v.header u.header
  document : twin documentId documentId
  one_to_one : ∀ {x x' y y'}, twin x y → twin x' y' → (x = x' ↔ y = y')
  kinds : ∀ {x y}, twin x y →
    ∃ k l, t.kind? x = some k ∧ u.kind? y = some l ∧ v.kind k = v.kind l
  parents : ∀ {x y}, twin x y → Option.Rel twin (t.parent? x) (u.parent? y)
  children : ∀ {x y}, twin x y → List.Forall₂ twin (t.children x) (u.children y)

/-- Every tree mirrors itself. -/
theorem WellFormed.mirrors_self (wf : t.WellFormed) (v : View) :
    t.Mirrors v (fun x y => x = y ∧ x < t.size) t where
  wellFormed := wf
  mirrored := wf
  header := rfl
  document := ⟨rfl, wf.documentId_lt⟩
  one_to_one := by
    rintro x x' _ _ ⟨rfl, _⟩ ⟨rfl, _⟩
    rfl
  kinds := by
    rintro x _ ⟨rfl, hx⟩
    obtain ⟨node, hn⟩ := lt_size_iff.1 hx
    have hk : t.kind? x = some node.kind := by rw [kind?, hn]; rfl
    exact ⟨_, _, hk, hk, rfl⟩
  parents := by
    rintro x _ ⟨rfl, hx⟩
    cases hp : t.parent? x with
    | none => exact .none
    | some p => exact .some ⟨rfl, wf.lt_size_of_parent hp⟩
  children := by
    rintro x _ ⟨rfl, hx⟩
    rw [List.forall₂_same]
    intro c hc
    exact ⟨rfl, lt_size_of_parent? ((wf.mem_children_iff x c).1 hc)⟩

namespace Mirrors

variable (m : t.Mirrors v twin u)
include m

theorem lt_size_left (h : twin x y) : x < t.size := by
  obtain ⟨k, _, hk, _⟩ := m.kinds h
  exact lt_size_of_kind? hk

theorem lt_size_right (h : twin x y) : y < u.size := by
  obtain ⟨_, l, _, hl, _⟩ := m.kinds h
  exact lt_size_of_kind? hl

theorem biUnique : Relator.BiUnique twin :=
  ⟨fun _ _ _ h h' => (m.one_to_one h h').2 rfl, fun _ _ _ h h' => (m.one_to_one h h').1 rfl⟩

theorem eq_document_iff (h : twin x y) : x = documentId ↔ y = documentId :=
  m.one_to_one h m.document

/-! ## Paired elements -/

/-- Only of elements is there anything that may not be seen. -/
theorem kind?_cases (h : twin x y) :
    (∃ e f, t.kind? x = some (.element e) ∧ u.kind? y = some (.element f) ∧
        v.element e = v.element f) ∨
      ∃ k : NodeKind, k.isElement = false ∧ t.kind? x = some k ∧ u.kind? y = some k := by
  obtain ⟨k, l, hk, hl, e⟩ := m.kinds h
  cases k with
  | element f =>
    cases l with
    | element g => exact Or.inl ⟨f, g, hk, hl, NodeKind.element.inj e⟩
    | _ => cases e
  | _ =>
    cases l with
    | element g => cases e
    | _ => exact Or.inr ⟨_, rfl, hk, hl.trans (congrArg some e.symm)⟩

theorem element?_cases (h : twin x y) :
    (t.element? x = none ∧ u.element? y = none) ∨
      ∃ e f, t.element? x = some e ∧ u.element? y = some f ∧ v.element e = v.element f := by
  rcases m.kind?_cases h with ⟨e, f, he, hf, hv⟩ | ⟨k, hne, hk, hl⟩
  · exact Or.inr ⟨e, f, element?_eq_some_iff.2 he, element?_eq_some_iff.2 hf, hv⟩
  · rw [Tree.element?, Tree.element?, hk, hl]
    cases k with
    | element e => cases hne
    | _ => exact Or.inl ⟨rfl, rfl⟩

theorem isElement (h : twin x y) : t.isElement x = u.isElement y := by
  rw [Tree.isElement, Tree.isElement]
  rcases m.element?_cases h with ⟨ht, hu⟩ | ⟨e, f, ht, hu, _⟩
  · rw [ht, hu]
  · rw [ht, hu]
    rfl

/-! ## Paired children -/

theorem childElements (h : twin x y) :
    List.Forall₂ twin (t.childElements x) (u.childElements y) := by
  refine List.rel_filter ?_ (m.children h)
  intro c d hcd
  exact Eq.congr_left (m.isElement hcd)

theorem isSome_root? : t.root?.isSome = u.root?.isSome := by
  have hroots := m.childElements m.document
  rw [Tree.root?, Tree.root?]
  generalize t.childElements documentId = xs at hroots
  generalize u.childElements documentId = ys at hroots
  cases hroots with
  | nil => rfl
  | cons _ _ => rfl

theorem mem_iff {xs ys : List NodeId} (hxs : List.Forall₂ twin xs ys) (h : twin x y) :
    x ∈ xs ↔ y ∈ ys :=
  List.rel_mem m.biUnique h hxs

theorem idxOf? {xs ys : List NodeId} (hxs : List.Forall₂ twin xs ys) (h : twin x y) :
    xs.idxOf? x = ys.idxOf? y := by
  induction hxs with
  | nil => rfl
  | cons hab _ ih =>
    rw [List.idxOf?_cons, List.idxOf?_cons, ih]
    simp only [beq_iff_eq, m.one_to_one hab h]

/-- What stands above a node stands above its twin. -/
theorem atOrAbove (h : twin x y) (hb : u.AtOrAbove b y) : ∃ a, twin a b ∧ t.AtOrAbove a x := by
  induction hb generalizing x with
  | refl => exact ⟨x, h, Relation.ReflTransGen.refl⟩
  | tail _ hp ih =>
    have hrel := m.parents h
    rw [hp] at hrel
    generalize hq : t.parent? x = q at hrel
    cases hrel with
    | some hpq =>
      obtain ⟨a, ha, hax⟩ := ih hpq
      exact ⟨a, ha, hax.tail hq⟩

/-! ## Traversals -/

omit m in
theorem forall₂_traverse {next next' : NodeId → List NodeId}
    (h : ∀ {x y}, twin x y → List.Forall₂ twin (next x) (next' y)) (fuel : Nat)
    {pending pending' : List NodeId} (hpending : List.Forall₂ twin pending pending') :
    List.Forall₂ twin (traverse next fuel pending) (traverse next' fuel pending') := by
  induction fuel generalizing pending pending' with
  | zero => exact .nil
  | succ fuel ih =>
    cases hpending with
    | nil => exact .nil
    | cons hxy hrest => exact .cons hxy (ih (List.rel_append (h hxy) hrest))

theorem attachedNodes : List.Forall₂ twin t.attachedNodes u.attachedNodes := by
  rw [m.wellFormed.attachedNodes_eq, m.mirrored.attachedNodes_eq,
    ← m.wellFormed.traverse_add u.size, ← m.mirrored.traverse_add t.size, Nat.add_comm u.size]
  exact forall₂_traverse m.children _ (.cons m.document .nil)

theorem descendantElements (h : twin x y) :
    List.Forall₂ twin (t.descendantElements x) (u.descendantElements y) := by
  rw [m.wellFormed.descendantElements_eq, m.mirrored.descendantElements_eq,
    ← m.wellFormed.traverse_childElements x u.size,
    ← m.mirrored.traverse_childElements y t.size, Nat.add_comm u.size]
  exact forall₂_traverse m.childElements _ (m.childElements h)

/-! ## Content -/

theorem contentUpTo (fuel : Nat) (h : twin x y) :
    v.contents (t.contentUpTo fuel x) = v.contents (u.contentUpTo fuel y) := by
  induction fuel generalizing x y with
  | zero => rfl
  | succ fuel ih =>
    rw [Tree.contentUpTo, Tree.contentUpTo]
    rcases m.kind?_cases h with ⟨e, f, he, hf, hv⟩ | ⟨k, hne, hk, hl⟩
    · have below := v.contents_flatMap (fun _ _ hcd => ih hcd) (m.children h)
      rw [he, hf]
      simp only [View.contents, View.content, below, hv]
    · rw [hk, hl]
      cases k with
      | element e => cases hne
      | _ => rfl

theorem contentBelow (h : twin x y) :
    v.contents (t.contentBelow x) = v.contents (u.contentBelow y) := by
  refine v.contents_flatMap ?_ (m.children h)
  intro c d hcd
  have hc := m.wellFormed.contentUpTo_add u.size c
  have hd := m.mirrored.contentUpTo_add t.size d
  rw [contentAt] at hc hd
  rw [← hc, ← hd, Nat.add_comm u.size, m.contentUpTo _ hcd]

theorem content : v.contents t.content = v.contents u.content :=
  m.contentBelow m.document

theorem text (h : twin x y) : t.text x = u.text y := by
  have below : Content.textOfAll (t.contentBelow x) = Content.textOfAll (u.contentBelow y) := by
    rw [← v.textOfAll_contents, m.contentBelow h, v.textOfAll_contents]
  rw [Tree.text, Tree.text]
  rcases m.kind?_cases h with ⟨e, f, he, hf, _⟩ | ⟨k, hne, hk, hl⟩
  · rw [he, hf]
    exact below
  · rw [hk, hl]
    cases k with
    | element e => cases hne
    | document => exact below
    | text s => rfl
    | comment s => rfl

end Mirrors

/-- Trees that look the same in full are alike. -/
theorem Mirrors.alike (m : t.Mirrors .full twin u) : t.Alike u := by
  refine ⟨m.header, ?_⟩
  rw [← View.contents_full t.content, m.content, View.contents_full]

end Tree

end PartPatch
