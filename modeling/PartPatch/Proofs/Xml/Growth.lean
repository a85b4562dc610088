import PartPatch.Proofs.Tree.Content
import PartPatch.Proofs.Tree.InOrder
import PartPatch.Proofs.Tree.Normal
import PartPatch.Proofs.Xml.Reader

/-!
# How a document grows while it is read

What is read goes below the innermost open element, behind what stands there already, and nothing
else changes. An element that is closed has grown by its whole content.
-/

namespace PartPatch

set_option autoImplicit false

namespace Tree.WellFormed

variable {t u : Tree} {x p : NodeId}

theorem length_filter_isElement (wf : t.WellFormed) (ids : List NodeId) :
    (ids.flatMap t.contentAt).countP Content.isElement = (ids.filter t.isElement).length := by
  induction ids with
  | nil => rfl
  | cons x ids ih =>
    have hx : (t.contentAt x).countP Content.isElement =
        ([x].filter t.isElement).length := by
      rw [wf.contentAt_eq]
      cases helement : t.isElement x with
      | true =>
        obtain ⟨e, he⟩ := isElement_iff.1 helement
        simp [he, helement, Content.isElement]
      | false =>
        split
        · next e he =>
          rw [isElement_iff.2 ⟨e, he⟩] at helement
          cases helement
        · simp [helement, Content.isElement]
        · simp [helement, Content.isElement]
        · simp [helement]
    rw [List.flatMap_cons, List.countP_append, ih, hx, ← List.length_append, ← List.filter_append,
      List.singleton_append]

theorem countP_contentBelow (wf : t.WellFormed) (x : NodeId) :
    (t.contentBelow x).countP Content.isElement = (t.childElements x).length := by
  rw [contentBelow_eq, childElements]
  exact wf.length_filter_isElement (t.children x)

/-- A node keeps its content if children are put below another node that is not below it. -/
theorem contentAt_of_extends (wf : t.WellFormed) (wfu : u.WellFormed) (ext : t.Extends u)
    (others : ∀ y < t.size, y ≠ p → u.children y = t.children y) (hx : x < t.size)
    (hp : ¬ t.AtOrAbove x p) : u.contentAt x = t.contentAt x := by
  refine wf.contentAt_congr wfu ?_
  intro y hy
  have hlt : y < t.size := by
    rcases Relation.ReflTransGen.cases_tail hy with rfl | ⟨q, _, hq⟩
    · exact hx
    · exact lt_size_of_parent? hq
  refine ⟨ext.kinds y hlt, others y hlt ?_⟩
  rintro rfl
  exact hp hy

end Tree.WellFormed

namespace Xml.Building

variable {b b' b'' : Building} {cs ds : List Content} {kind : NodeKind}

/-- Below the current node the contents have been added at the end. -/
structure Grows (b b' : Building) (cs : List Content) : Prop where
  sound : b'.Sound
  frames : b'.frames = b.frames
  header : b'.tree.header = b.tree.header
  extends_ : b.tree.Extends b'.tree
  others : ∀ x < b.tree.size, x ≠ b.current → b'.tree.children x = b.tree.children x
  content : b'.tree.contentBelow b.current = b.tree.contentBelow b.current ++ cs

theorem current_congr (h : b'.frames = b.frames) : b'.current = b.current := by
  rw [current, current, h]

theorem Grows.refl (sound : b.Sound) : b.Grows b [] :=
  ⟨sound, rfl, rfl, .refl _, fun _ _ _ => rfl, (List.append_nil _).symm⟩

theorem Grows.trans (h : b.Grows b' cs) (h' : b'.Grows b'' ds) : b.Grows b'' (cs ++ ds) where
  sound := h'.sound
  frames := h'.frames.trans h.frames
  header := h'.header.trans h.header
  extends_ := h.extends_.trans h'.extends_
  others x hx hne := by
    rw [h'.others x (Nat.lt_of_lt_of_le hx h.extends_.size_le), h.others x hx hne]
    rwa [current_congr h.frames]
  content := by
    have hcontent := h'.content
    rw [current_congr h.frames] at hcontent
    rw [hcontent, h.content, List.append_assoc]

/-- A node has been added below the current one. -/
structure Added (b : Building) (kind : NodeKind) (b' : Building) : Prop where
  sound : b'.Sound
  frames : b'.frames = b.frames
  header : b'.tree.header = b.tree.header
  extends_ : b.tree.Extends b'.tree
  kinds : ∀ x, b'.tree.kind? x = if x = b.tree.size then some kind else b.tree.kind? x
  children : ∀ x, b'.tree.children x =
    if x = b.current then b.tree.children x ++ [b.tree.size] else b.tree.children x

theorem Added.kind?_new (h : b.Added kind b') : b'.tree.kind? b.tree.size = some kind := by
  rw [h.kinds, if_pos rfl]

theorem Added.size (h : b.Added kind b') : b'.tree.size = b.tree.size + 1 := by
  refine eq_of_forall_lt_iff fun x => ?_
  have present : ∀ t : Tree, x < t.size ↔ (t.kind? x).isSome = true := by
    intro t
    rw [Tree.lt_size_iff, Tree.kind?, Option.isSome_map, Option.isSome_iff_exists]
  rw [present, h.kinds, Nat.lt_succ_iff_lt_or_eq, or_comm]
  by_cases hx : x = b.tree.size
  · simp [hx]
  · rw [if_neg hx, ← present, or_iff_right hx]

theorem Added.sprouted (h : b.Added kind b') : b.tree.Sprouted b.current b'.tree :=
  ⟨h.sound.wellFormed, h.extends_, h.size, h.children⟩

theorem added_of_add (sound : b.Sound) (hkind : kind ≠ .document) {id : NodeId}
    (hadd : b.add kind = .ok (b', id)) : id = b.tree.size ∧ b.Added kind b' := by
  have planted := Tree.planted_push sound.wellFormed hkind
  have fits := planted.fits sound.wellFormed sound.current
  have sound' := (sound.add hkind hadd).1
  simp only [Building.add, Tree.appendChild] at hadd
  rcases Tree.insertAt_eq planted.wellFormed fits
    ((b.tree.push kind).1.children b.current).length with ⟨_, heq⟩ | ⟨_, heq⟩
  · rw [heq] at hadd
    cases hadd
  · rw [heq] at hadd
    cases hadd
    refine ⟨rfl, sound', rfl, ?_, ?_, ?_, ?_⟩
    · rw [Tree.link, Tree.header_modifyNode, Tree.header_modifyNode, Tree.header_push]
    · exact planted.extends_.link planted.top_lt (Nat.le_refl _) _ _
    · intro x
      rw [Tree.kind?_link, Tree.kind?_push]
    · intro x
      rw [Tree.children_link (fits.parent_lt planted.wellFormed), Tree.children_push,
        Tree.children_push]
      split
      · next hx =>
        rw [hx, Nat.min_self, List.insertIdx_length_self]
        rfl
      · rfl

theorem not_secondRoot (sound : b.Sound)
    (room : b.frames = [] → kind.isElement = true → b.tree.childElements Tree.documentId = []) :
    ¬ (b.tree.push kind).1.SecondRoot b.current (b.tree.push kind).2 := by
  rintro ⟨hdocument, helement, hsome⟩
  have hframes : b.frames = [] := by
    cases hframes : b.frames with
    | nil => rfl
    | cons frame frames =>
      have hframe := sound.frames frame (by rw [hframes]; exact List.mem_cons_self)
      rw [current, hframes] at hdocument
      exact absurd hdocument (Tree.kind?_ne_document sound.wellFormed hframe)
  have hisElement : kind.isElement = true := by
    rw [Tree.push_snd, Tree.isElement_iff] at helement
    obtain ⟨e, he⟩ := helement
    rw [Tree.kind?_push, if_pos rfl] at he
    rw [Option.some.inj he]
    rfl
  have hsame : (b.tree.push kind).1.childElements Tree.documentId =
      b.tree.childElements Tree.documentId := by
    rw [Tree.childElements, Tree.childElements, Tree.children_push]
    refine List.filter_congr ?_
    intro c hc
    have hparent := (sound.wellFormed.mem_children_iff _ _).1 hc
    exact Tree.isElement_push (Tree.lt_size_of_parent? hparent) kind
  rw [Tree.root?, hsame, room hframes hisElement] at hsome
  cases hsome

/-- Adding fails for a second root only. -/
theorem exists_added (sound : b.Sound) (kind : NodeKind) (hkind : kind ≠ .document)
    (room : b.frames = [] → kind.isElement = true → b.tree.childElements Tree.documentId = []) :
    ∃ b', b.add kind = .ok (b', b.tree.size) ∧ b.Added kind b' := by
  have planted := Tree.planted_push sound.wellFormed hkind
  have fits := planted.fits sound.wellFormed sound.current
  have hadd : ∃ b', b.add kind = .ok (b', b.tree.size) := by
    simp only [Building.add, Tree.appendChild]
    rcases Tree.insertAt_eq planted.wellFormed fits
      ((b.tree.push kind).1.children b.current).length with ⟨hsecond, _⟩ | ⟨_, heq⟩
    · exact absurd hsecond (not_secondRoot sound room)
    · rw [heq]
      exact ⟨_, rfl⟩
  obtain ⟨b', hadd⟩ := hadd
  exact ⟨b', hadd, (added_of_add sound hkind hadd).2⟩

theorem Sound.current_lt (sound : b.Sound) : b.current < b.tree.size := by
  rcases sound.current with hdocument | helement
  · rw [hdocument]
    exact sound.wellFormed.documentId_lt
  · obtain ⟨e, he⟩ := Tree.isElement_iff.1 helement
    exact Tree.lt_size_of_kind? he

/-- Afterwards the tree may go on to grow below the new node. -/
theorem Added.grows (sound : b.Sound) (h : b.Added kind b') {u : Tree} (wf : u.WellFormed)
    (header : u.header = b'.tree.header) (ext : b'.tree.Extends u)
    (others : ∀ x < b'.tree.size, x ≠ b.tree.size → u.children x = b'.tree.children x) :
    b.Grows ⟨u, b.frames⟩ (u.contentAt b.tree.size) := by
  have old : ∀ x < b.tree.size, u.children x = b'.tree.children x := fun x hx =>
    others x (Nat.lt_of_lt_of_le hx h.extends_.size_le) (Nat.ne_of_lt hx)
  have unchanged : ∀ x < b.tree.size, x ≠ b.current → u.children x = b.tree.children x := by
    intro x hx hne
    rw [old x hx, h.children, if_neg hne]
  have extends_ := h.extends_.trans ext
  refine ⟨⟨wf, ?_⟩, rfl, header.trans h.header, extends_, unchanged, ?_⟩
  · intro frame hframe
    exact extends_.isElement (sound.frames frame hframe)
  · have siblings : ∀ c ∈ b.tree.children b.current, u.contentAt c = b.tree.contentAt c := by
      intro c hc
      have hparent := (sound.wellFormed.mem_children_iff _ _).1 hc
      refine sound.wellFormed.contentAt_of_extends wf extends_ unchanged
        (Tree.lt_size_of_parent? hparent) ?_
      intro habove
      exact sound.wellFormed.above_irrefl _ (Tree.above_iff_child.2 ⟨c, hparent, habove⟩)
    rw [Tree.contentBelow_eq, Tree.contentBelow_eq, old _ sound.current_lt, h.children,
      if_pos rfl, List.flatMap_append, List.flatMap_congr siblings, List.flatMap_singleton]

theorem Added.grows_leaf (sound : b.Sound) (h : b.Added kind b') :
    b.Grows b' (b'.tree.contentAt b.tree.size) := by
  have hgrows := h.grows sound h.sound.wellFormed rfl (.refl _) fun _ _ _ => rfl
  rwa [← h.frames] at hgrows

theorem Added.sound_open {e : Element} (h : b.Added (.element e) b') :
    (⟨b'.tree, ⟨b.tree.size, e.declarations⟩ :: b.frames⟩ : Building).Sound := by
  refine ⟨h.sound.wellFormed, ?_⟩
  intro frame hframe
  rcases List.mem_cons.1 hframe with rfl | hframe
  · exact Tree.isElement_iff.2 ⟨e, h.kind?_new⟩
  · rw [← h.frames] at hframe
    exact h.sound.frames frame hframe

/-- The element that is open while its children are read, and closed behind them. -/
theorem Added.grows_element (sound : b.Sound) {e : Element} (h : b.Added (.element e) b')
    (hgrows : (⟨b'.tree, ⟨b.tree.size, e.declarations⟩ :: b.frames⟩ : Building).Grows b'' cs) :
    b.Grows ⟨b''.tree, b.frames⟩ [.element e cs] := by
  have hchildren : b'.tree.children b.tree.size = [] := by
    rw [h.children, if_neg (Nat.ne_of_gt sound.current_lt), Tree.children_eq,
      Tree.node?_eq_none_iff.2 (Nat.le_refl _)]
    rfl
  have hkind : b''.tree.kind? b.tree.size = some (.element e) := by
    rw [hgrows.extends_.kinds _ (Tree.lt_size_of_kind? h.kind?_new), h.kind?_new]
  have hcontent := hgrows.content
  have hbelow : b'.tree.contentBelow b.tree.size = [] := by
    rw [Tree.contentBelow_eq, hchildren, List.flatMap_nil]
  change b''.tree.contentBelow b.tree.size = b'.tree.contentBelow b.tree.size ++ cs at hcontent
  have hwhole := h.grows sound hgrows.sound.wellFormed hgrows.header hgrows.extends_ hgrows.others
  rwa [hgrows.sound.wellFormed.contentAt_eq, hkind, hcontent, hbelow, List.nil_append] at hwhole

end Xml.Building

end PartPatch
