import PartPatch.Proofs.Patch.Change
import PartPatch.Proofs.Tree.Shape

/-!
# What a removal takes away

Removing selected nodes one after the other takes each of them out of the document, and what is out
of it stays out. An attribute is gone with all others that have the same meaning.
-/

namespace PartPatch

set_option autoImplicit false

/-- The node of the first tree is no part of the second: an element is below nothing, and where an
attribute was there is none of its meaning. -/
def NodeRef.GoneIn (t u : Tree) : NodeRef → Prop
  | .element x => u.parent? x = none
  | .attribute x index => ∀ a f, t.attributeAt? x index = some a → u.element? x = some f →
    ∀ b ∈ f.attributes, ¬ b.name.Matches a.name.localName a.name.namespaceUri

variable {t u v : Tree} {n : NodeRef} {nodes : List NodeRef}

/-- What is gone is not there in what is left of the tree either. -/
theorem NodeRef.GoneIn.mono (gone : n.GoneIn t u) (pruned : u.Pruned v) (wfu : u.WellFormed)
    (wfv : v.WellFormed) : n.GoneIn t v := by
  cases n with
  | element x =>
    rw [NodeRef.GoneIn, Option.eq_none_iff_forall_not_mem]
    intro p hp
    have hp' : u.Parent p x := pruned.parent wfu wfv hp
    cases gone.symm.trans hp'
  | «attribute» x index =>
    intro a g ha hg b hb
    obtain ⟨f, hf, stripped⟩ := pruned.elements x g hg
    obtain ⟨keep, hkeep⟩ := stripped.attributes
    rw [hkeep] at hb
    exact gone a f ha hf b (List.mem_of_mem_filter hb)

namespace Session

theorem pruned_removeNode (wf : t.WellFormed) (n : NodeRef) : t.Pruned (removeNode t n) := by
  cases n with
  | element x => exact Tree.pruned_detach wf x
  | «attribute» x index =>
    simp only [removeNode]
    split
    · exact Tree.pruned_removeAttribute t _ _ _
    · exact .refl t

theorem pruned_removeNodes (wf : t.WellFormed) (nodes : List NodeRef) :
    t.Pruned (nodes.foldl removeNode t) := by
  induction nodes generalizing t with
  | nil => exact .refl t
  | cons n nodes ih => exact (pruned_removeNode wf n).trans (ih (wellFormed_removeNode wf n))

theorem gone_removeNode (t : Tree) (n : NodeRef) : n.GoneIn t (removeNode t n) := by
  cases n with
  | element x =>
    rw [NodeRef.GoneIn, removeNode, Tree.parent?_detach, if_pos rfl]
  | «attribute» x index =>
    intro a f ha hf b hb
    simp only [removeNode, ha, Tree.removeAttribute] at hf
    split at hf
    · next hnone => cases hnone.symm.trans hf
    · next e he =>
      rw [Tree.element?_modifyElement, if_pos rfl, he] at hf
      cases hf
      simpa using (List.mem_filter.1 hb).2

theorem attributeAt?_removeNode {x index : Nat} (h : n.elementId ≠ x) :
    (removeNode t n).attributeAt? x index = t.attributeAt? x index := by
  have same : (removeNode t n).element? x = t.element? x := by
    cases n with
    | element y => rw [removeNode, Tree.element?, Tree.element?, Tree.kind?_detach]
    | «attribute» y i =>
      simp only [removeNode]
      split
      · unfold Tree.removeAttribute
        split
        · rfl
        · rw [Tree.element?_modifyElement, if_neg fun e => h e.symm]
      · rfl
  rw [Tree.attributeAt?, Tree.attributeAt?, same]

/-- If no two of the nodes belong to one element, all of them are gone when they were removed. -/
theorem gone_removeNodes (wf : t.WellFormed)
    (alone : ∀ m ∈ nodes, ∀ n ∈ nodes, m.elementId = n.elementId → m = n) (hn : n ∈ nodes) :
    n.GoneIn t (nodes.foldl removeNode t) := by
  induction nodes generalizing t with
  | nil => cases hn
  | cons m nodes ih =>
    have wf' := wellFormed_removeNode wf m
    by_cases hmn : m = n
    · subst hmn
      exact (gone_removeNode t m).mono (pruned_removeNodes wf' nodes) wf'
        (wellFormed_removeNodes wf' nodes)
    · have hmem : n ∈ nodes := (List.mem_cons.1 hn).resolve_left (Ne.symm hmn)
      have gone := ih wf' (fun k hk l hl => alone k (List.mem_cons_of_mem m hk) l
        (List.mem_cons_of_mem m hl)) hmem
      have other : m.elementId ≠ n.elementId := fun e =>
        hmn (alone m List.mem_cons_self n hn e)
      cases n with
      | element x => exact gone
      | «attribute» x index =>
        intro a f ha
        rw [← attributeAt?_removeNode (x := x) other] at ha
        exact gone a f ha

/-- If something is removed that was in the document, the document is not alike afterwards. -/
theorem not_alike_of_gone (wf : t.WellFormed) (wfu : u.WellFormed) (pruned : t.Pruned u)
    (hn : n.In t) (attached : t.Attached n.elementId) (gone : n.GoneIn t u) : ¬ u.Alike t := by
  intro alike
  cases n with
  | element x =>
    obtain ⟨p, hp, hpx⟩ := Tree.above_iff.1 (wf.above_of_attached attached hn)
    have children := (pruned.same_of_alike wf wfu alike.symm hp).2
    have hx : x ∈ u.children p := children ▸ (wf.mem_children_iff p x).2 hpx
    cases gone.symm.trans ((wfu.mem_children_iff p x).1 hx)
  | «attribute» x index =>
    obtain ⟨a, ha⟩ := Option.isSome_iff_exists.1 hn
    obtain ⟨e, he, hmem⟩ := Option.bind_eq_some_iff.1 ha
    have same := (pruned.same_of_alike wf wfu alike.symm attached).1
    exact gone a e ha (same ▸ he) a (List.mem_of_getElem? hmem) a.name.matches_self

theorem not_alike_of_removeNodes (wf : t.WellFormed) (hne : nodes ≠ []) (hin : ∀ n ∈ nodes, n.In t)
    (attached : ∀ n ∈ nodes, t.Attached n.elementId) :
    ¬ (nodes.foldl removeNode t).Alike t := by
  cases nodes with
  | nil => exact absurd rfl hne
  | cons n nodes =>
    have wf' := wellFormed_removeNode wf n
    have gone := (gone_removeNode t n).mono (pruned_removeNodes wf' nodes) wf'
      (wellFormed_removeNodes wf' nodes)
    exact not_alike_of_gone wf (wellFormed_removeNodes wf (n :: nodes))
      (pruned_removeNodes wf (n :: nodes)) (hin n List.mem_cons_self)
      (attached n List.mem_cons_self) gone

end Session

end PartPatch
