import Mathlib.Data.List.Zip
import PartPatch.Proofs.Tree.MirrorEdit

/-!
# Trees of the same content

Two well-formed trees mirror one another if their contents look the same. Their nodes are paired by
their places: the documents with each other, and of paired nodes each child with the one that stands
at the same place among the children of the other.
-/

namespace PartPatch

set_option autoImplicit false

namespace View

variable (v : View)

theorem kind_content (c : Content) : (v.content c).kind = v.kind c.kind := by
  cases c with
  | element e children => rfl
  | text s => rfl
  | comment s => rfl

theorem inside_content (c : Content) : (v.content c).inside = v.contents c.inside := by
  cases c with
  | element e children => rfl
  | text s => rfl
  | comment s => rfl

end View

theorem forall₂_of_flatMap_eq {α β γ : Type} {f : α → List γ} {g : β → List γ} {as : List α}
    {bs : List β} (hf : ∀ a ∈ as, ∃ c, f a = [c]) (hg : ∀ b ∈ bs, ∃ c, g b = [c])
    (h : as.flatMap f = bs.flatMap g) : List.Forall₂ (fun a b => f a = g b) as bs := by
  induction as generalizing bs with
  | nil =>
    cases bs with
    | nil => exact .nil
    | cons b bs =>
      obtain ⟨c, hc⟩ := hg b List.mem_cons_self
      rw [List.flatMap_nil, List.flatMap_cons, hc] at h
      cases h
  | cons a as ih =>
    obtain ⟨c, hc⟩ := hf a List.mem_cons_self
    cases bs with
    | nil =>
      rw [List.flatMap_nil, List.flatMap_cons, hc] at h
      cases h
    | cons b bs =>
      obtain ⟨d, hd⟩ := hg b List.mem_cons_self
      rw [List.flatMap_cons, List.flatMap_cons, hc, hd, List.singleton_append,
        List.singleton_append] at h
      obtain ⟨hcd, hrest⟩ := List.cons.inj h
      refine .cons ?_ (ih ?_ ?_ hrest)
      · rw [hc, hd, hcd]
      · intro a' ha'
        exact hf a' (List.mem_cons_of_mem a ha')
      · intro b' hb'
        exact hg b' (List.mem_cons_of_mem b hb')

/-- In a list without repetitions each entry has one partner. -/
theorem eq_of_mem_zip {α β : Type} {as : List α} {bs : List β} (distinct : as.Nodup)
    (lengths : as.length = bs.length) {a : α} {b b' : β} (h : (a, b) ∈ as.zip bs)
    (h' : (a, b') ∈ as.zip bs) : b = b' := by
  rw [← List.map_fst_zip (Nat.le_of_eq lengths)] at distinct
  exact congrArg Prod.snd (List.inj_on_of_nodup_map distinct h h' rfl)

namespace Tree

variable {v : View} {t u : Tree} {x x' y y' c d : NodeId}

/-- The nodes stand at the same places below the documents. -/
inductive Paired (t u : Tree) : NodeId → NodeId → Prop where
  | document : Paired t u documentId documentId
  | child {x y c d : NodeId} (h : Paired t u x y)
    (hcd : (c, d) ∈ (t.children x).zip (u.children y)) : Paired t u c d

theorem Paired.symm (h : t.Paired u x y) : u.Paired t y x := by
  induction h with
  | document => exact .document
  | child _ hcd ih =>
    apply ih.child
    rw [← List.zip_swap]
    exact List.mem_map.2 ⟨_, hcd, rfl⟩

/-- Nothing is seen of the difference between the nodes and what stands below them. -/
structure LooksSame (v : View) (t u : Tree) (x y : NodeId) : Prop where
  kinds : ∃ k l, t.kind? x = some k ∧ u.kind? y = some l ∧ v.kind k = v.kind l
  below : v.contents (t.contentBelow x) = v.contents (u.contentBelow y)

section

variable (wf : t.WellFormed) (wfu : u.WellFormed)
include wf wfu

theorem looksSame_child (hc : t.Parent x c) (hd : u.Parent y d)
    (h : v.contents (t.contentAt c) = v.contents (u.contentAt d)) : LooksSame v t u c d := by
  obtain ⟨k, hk, hkind, hinside⟩ := wf.exists_content hc
  obtain ⟨l, hl, hkind', hinside'⟩ := wfu.exists_content hd
  rw [hk, hl, View.contents, View.contents] at h
  have same : v.content k = v.content l := (List.cons.inj h).1
  constructor
  · refine ⟨_, _, hkind, hkind', ?_⟩
    rw [← v.kind_content, same, v.kind_content]
  · rw [hinside, hinside', ← v.inside_content, same, v.inside_content]

omit wfu in
theorem single_contents : ∀ c ∈ t.children x, ∃ content, v.contents (t.contentAt c) = [content] := by
  intro c hc
  obtain ⟨content, hcontent, _⟩ := wf.exists_content ((wf.mem_children_iff x c).1 hc)
  refine ⟨v.content content, ?_⟩
  rw [hcontent]
  rfl

/-- The children of nodes that look the same look the same one by one. -/
theorem looksSame_children (h : LooksSame v t u x y) :
    List.Forall₂ (LooksSame v t u) (t.children x) (u.children y) := by
  have below := h.below
  rw [contentBelow_eq, contentBelow_eq, v.contents_eq_map, v.contents_eq_map, List.map_flatMap,
    List.map_flatMap] at below
  simp only [← v.contents_eq_map] at below
  have contents := forall₂_of_flatMap_eq (single_contents wf) (single_contents wfu) below
  rw [List.forall₂_iff_zip] at contents ⊢
  refine ⟨contents.1, ?_⟩
  intro c d hcd
  obtain ⟨hc, hd⟩ := List.of_mem_zip hcd
  exact looksSame_child wf wfu ((wf.mem_children_iff x c).1 hc) ((wfu.mem_children_iff y d).1 hd)
    (contents.2 hcd)

variable (content : v.contents t.content = v.contents u.content)
include content

theorem Paired.looksSame (h : t.Paired u x y) : LooksSame v t u x y := by
  induction h with
  | document =>
    exact ⟨⟨_, _, (wf.document_iff _).2 rfl, (wfu.document_iff _).2 rfl, rfl⟩, content⟩
  | child _ hcd ih => exact (List.forall₂_iff_zip.1 (looksSame_children wf wfu ih)).2 hcd

theorem Paired.children (h : t.Paired u x y) :
    List.Forall₂ (t.Paired u) (t.children x) (u.children y) := by
  have same := looksSame_children wf wfu (h.looksSame wf wfu content)
  exact List.forall₂_iff_zip.2 ⟨same.length_eq, fun hcd => h.child hcd⟩

theorem Paired.right_unique (h : t.Paired u x y) (h' : t.Paired u x y') : y = y' := by
  -- both pairs come from pairs of parents, and of these the left ones are the same node
  induction h generalizing y' with
  | document =>
    cases h' with
    | document => rfl
    | child _ hcd =>
      have hp := (wf.mem_children_iff _ _).1 (List.of_mem_zip hcd).1
      exact absurd rfl (wf.ne_document_of_parent hp)
  | @child x y c d h hcd ih =>
    have hp := (wf.mem_children_iff _ _).1 (List.of_mem_zip hcd).1
    cases h' with
    | document => exact absurd rfl (wf.ne_document_of_parent hp)
    | child h' hcd' =>
      have hp' := (wf.mem_children_iff _ _).1 (List.of_mem_zip hcd').1
      cases parent_unique hp hp'
      cases ih h'
      exact eq_of_mem_zip (wf.nodup_children x) (h.children wf wfu content).length_eq hcd hcd'

/-- Trees whose contents look the same mirror one another. -/
theorem mirrors_paired (header : v.header t.header = v.header u.header) :
    t.Mirrors v (t.Paired u) u where
  wellFormed := wf
  mirrored := wfu
  header := header
  document := .document
  one_to_one := by
    intro x x' y y' h h'
    constructor
    · intro e
      cases e
      exact h.right_unique wf wfu content h'
    · intro e
      cases e
      exact h.symm.right_unique wfu wf content.symm h'.symm
  kinds := fun h => (h.looksSame wf wfu content).kinds
  parents := by
    intro x y h
    cases h with
    | document =>
      rw [wf.document_top, wfu.document_top]
      exact .none
    | child h hcd =>
      obtain ⟨hc, hd⟩ := List.of_mem_zip hcd
      rw [(wf.mem_children_iff _ _).1 hc, (wfu.mem_children_iff _ _).1 hd]
      exact .some h
  children := fun h => h.children wf wfu content

end

theorem mirrors_iff : (∃ twin, t.Mirrors v twin u) ↔ (t.WellFormed ∧ u.WellFormed) ∧
    v.header t.header = v.header u.header ∧ v.contents t.content = v.contents u.content := by
  constructor
  · rintro ⟨_, m⟩
    exact ⟨⟨m.wellFormed, m.mirrored⟩, m.header, m.content⟩
  · rintro ⟨⟨wf, wfu⟩, header, content⟩
    exact ⟨_, mirrors_paired wf wfu content header⟩

/-- Trees that mirror one another still do so when both are compacted. -/
theorem Mirrors.compact {twin : NodeId → NodeId → Prop} (m : t.Mirrors v twin u) :
    ∃ twin', t.compact.1.Mirrors v twin' u.compact.1 := by
  obtain ⟨_, mt⟩ := m.wellFormed.mirrors_compact v
  obtain ⟨_, mu⟩ := m.mirrored.mirrors_compact v
  refine mirrors_iff.2 ⟨⟨mt.mirrored, mu.mirrored⟩, ?_, ?_⟩
  · exact mt.header.symm.trans (m.header.trans mu.header)
  · exact mt.content.symm.trans (m.content.trans mu.content)

end Tree

end PartPatch
