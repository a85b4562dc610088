import Mathlib.Logic.Function.Iterate
import PartPatch.Proofs.Tree.Compact
import PartPatch.Proofs.Tree.Content
import PartPatch.Proofs.Xml.Reader

/-!
# Every tree is a forest

Trees are made empty, around a root or by reading a document, and are changed by commands, of which
some fail. Their nodes are a forest throughout, a command that fails changes nothing, and so all
loops along parents and children come to an end.
-/

namespace PartPatch.Tree

set_option autoImplicit false

inductive Command where
  | createElement (element : Element)
  | createText (text : String)
  | createComment (text : String)
  | appendChild (parent child : NodeId)
  | prependChild (parent child : NodeId)
  | insertBefore (reference child : NodeId)
  | insertAfter (reference child : NodeId)
  | detach (id : NodeId)
  | setText (id : NodeId) (text : String)
  | setAttribute (id : NodeId) (name : QName) (value : String)
  | removeAttribute (id : NodeId) (localName : String) (namespaceUri : Option String)
  | compact

namespace Command

/-- The nodes that the command names. -/
def ids : Command → List NodeId
  | .createElement _ | .createText _ | .createComment _ | .compact => []
  | .appendChild parent child | .prependChild parent child => [parent, child]
  | .insertBefore reference child | .insertAfter reference child => [reference, child]
  | .detach id | .setText id _ | .setAttribute id _ _ | .removeAttribute id _ _ => [id]

def Inside (c : Command) (t : Tree) : Prop :=
  ∀ x ∈ c.ids, x < t.size

instance (c : Command) (t : Tree) : Decidable (c.Inside t) :=
  inferInstanceAs (Decidable (∀ x ∈ c.ids, x < t.size))

end Command

/-- What an operation reports that changes nothing unless it succeeds, and the tree it leaves. -/
def settle (t : Tree) : Except TreeError Tree → Option TreeError × Tree
  | .ok u => (none, u)
  | .error e => (some e, t)

/-- `setText` step by step: were the new text refused, the old content would be gone. -/
def setTextStepwise (t : Tree) (id : NodeId) (text : String) : Option TreeError × Tree :=
  if t.isElement id then
    let cleared := t.clear id
    if text = "" then (none, cleared)
    else
      let (extended, child) := cleared.push (.text text)
      extended.settle (extended.appendChild id child)
  else (some (.notAnElement id), t)

/-- The error that a command reports, and the tree that it leaves in any case. -/
def perform (t : Tree) : Command → Option TreeError × Tree
  | .createElement e => (none, (t.push (.element e)).1)
  | .createText text => (none, (t.push (.text text)).1)
  | .createComment text => (none, (t.push (.comment text)).1)
  | .appendChild parent child => t.settle (t.appendChild parent child)
  | .prependChild parent child => t.settle (t.prependChild parent child)
  | .insertBefore reference child => t.settle (t.insertBefore reference child)
  | .insertAfter reference child => t.settle (t.insertAfter reference child)
  | .detach id => (none, t.detach id)
  | .setText id text => t.setTextStepwise id text
  | .setAttribute id name value => t.settle (t.setAttribute id name value)
  | .removeAttribute id localName namespaceUri =>
    (none, (t.removeAttribute id localName namespaceUri).1)
  | .compact => (none, t.compact.1)

inductive Built : Tree → Prop where
  | empty : Built .empty
  | ofRoot (root : Element) : Built (.ofRoot root)
  | read {source : String} {t : Tree} (h : Xml.read source = .ok t) : Built t
  | perform {t : Tree} (c : Command) (inside : c.Inside t) (h : Built t) : Built (t.perform c).2

/-- Node 0 is the only document, a node is a child once of its parent and of no other, and chains of
parents end. -/
structure Forest (t : Tree) : Prop where
  document : ∀ x, t.kind? x = some .document ↔ x = documentId
  top : t.parent? documentId = none
  once : ∀ p c, (t.children p).count c = if t.parent? c = some p then 1 else 0
  chains : ∀ chain : Nat → NodeId, ¬ ∀ n, t.parent? (chain n) = some (chain (n + 1))
  holders : ∀ p, t.children p ≠ [] → p = documentId ∨ t.isElement p = true
  root : (t.childElements documentId).length ≤ 1

/-- One round of a loop that goes from a node to its parent. -/
def climb (t : Tree) (place : Option NodeId) : Option NodeId :=
  place.bind t.parent?

/-- One round of a loop over a stack of nodes: the children of the top take its place. -/
def unstack (t : Tree) : List NodeId → List NodeId
  | [] => []
  | x :: pending => t.children x ++ pending

/-- The loops and recursions along parents and children end, and those that are defined with fuel
never run out of it. -/
structure Ends (t : Tree) : Prop where
  climbing : ∀ x < t.size, t.climb^[t.size] (some x) = none
  visiting : t.unstack^[t.size] [documentId] = []
  descending : WellFounded fun c p => c ∈ t.children p
  lineage : ∀ x < t.size, ∀ more, t.lineageUpTo (t.size + more) x = t.lineage x
  attachedNodes : ∀ more, traverse t.children (t.size + more) [documentId] = t.attachedNodes
  content : ∀ x more, t.contentUpTo (t.size + more) x = t.contentUpTo t.size x

variable {t u : Tree} {x id parent child reference : NodeId}

/-! ## Commands keep trees well formed -/

/-- Attaching checks all that is needed, provided that the child is there. -/
theorem wellFormed_of_insertAt (wf : t.WellFormed) (hc : child < t.size) {position : Nat}
    (h : t.insertAt parent position child = .ok u) : u.WellFormed := by
  by_cases hdocument : child = documentId
  · rw [insertAt, if_pos hdocument] at h
    cases h
  cases hfree : t.parent? child with
  | some p =>
    rw [insertAt, if_neg hdocument, hfree] at h
    cases h
  | none =>
    by_cases hacyclic : child ∈ t.lineage parent
    · simp only [insertAt, hdocument, hfree, hacyclic, if_true, if_false] at h
      repeat' split at h
      all_goals cases h
    · have hholder : parent = documentId ∨ t.isElement parent = true := by
        rw [insertAt, if_neg hdocument, hfree] at h
        simp only [Option.isSome_none, Bool.false_eq_true, if_false] at h
        split at h
        · next hk => exact Or.inl ((wf.document_iff parent).1 hk)
        · next e hk => exact Or.inr (isElement_iff.2 ⟨e, hk⟩)
        · cases h
      have fits : t.Fits parent child := by
        refine ⟨hc, hdocument, hfree, hholder, ?_⟩
        rwa [← wf.mem_lineage_iff]
      rcases insertAt_eq wf fits position with ⟨_, heq⟩ | ⟨root, heq⟩
      · cases h.symm.trans heq
      · cases h.symm.trans heq
        exact fits.wellFormed_link wf root position

theorem wellFormed_settle (wf : t.WellFormed) {outcome : Except TreeError Tree}
    (h : ∀ u, outcome = .ok u → u.WellFormed) : (t.settle outcome).2.WellFormed := by
  cases outcome with
  | ok u => exact h u rfl
  | error e => exact wf

theorem wellFormed_of_insertBefore (wf : t.WellFormed) (hc : child < t.size)
    (h : t.insertBefore reference child = .ok u) : u.WellFormed := by
  unfold insertBefore at h
  split at h
  · cases h
  · exact wellFormed_of_insertAt wf hc h

theorem wellFormed_of_insertAfter (wf : t.WellFormed) (hc : child < t.size)
    (h : t.insertAfter reference child = .ok u) : u.WellFormed := by
  unfold insertAfter at h
  split at h
  · cases h
  · exact wellFormed_of_insertAt wf hc h

/-- A new text always fits below an element, so the old content is never lost for nothing. -/
theorem setTextStepwise_eq (wf : t.WellFormed) (id : NodeId) (text : String) :
    t.setTextStepwise id text = t.settle (t.setText id text) := by
  by_cases hid : t.isElement id = true
  · by_cases htext : text = ""
    · rw [setTextStepwise, setText, if_pos hid, if_pos hid, if_pos htext, if_pos htext]
      rfl
    · have wfc := wf.clear id
      have hidc : (t.clear id).isElement id = true := by
        rwa [isElement_eq_of_kind? (kind?_clear t id id)]
      have planted := planted_push wfc (by simp : NodeKind.text text ≠ .document)
      obtain ⟨v, hv, _⟩ := planted.appendChild wfc hidc
      have hset : t.setText id text = .ok v := by
        rw [setText, if_pos hid, if_neg htext]
        exact hv
      rw [hset, setTextStepwise, if_pos hid]
      simp only [if_neg htext]
      rw [hv]
      rfl
  · rw [setTextStepwise, setText, if_neg hid, if_neg hid]
    rfl

theorem wellFormed_perform (wf : t.WellFormed) {c : Command} (inside : c.Inside t) :
    (t.perform c).2.WellFormed := by
  cases c with
  | createElement e => exact wf.push (by simp)
  | createText text => exact wf.push (by simp)
  | createComment text => exact wf.push (by simp)
  | appendChild parent child =>
    have hc : child < t.size := inside child (by simp [Command.ids])
    exact wellFormed_settle wf fun u hu => wellFormed_of_insertAt wf hc hu
  | prependChild parent child =>
    have hc : child < t.size := inside child (by simp [Command.ids])
    exact wellFormed_settle wf fun u hu => wellFormed_of_insertAt wf hc hu
  | insertBefore reference child =>
    have hc : child < t.size := inside child (by simp [Command.ids])
    exact wellFormed_settle wf fun u hu => wellFormed_of_insertBefore wf hc hu
  | insertAfter reference child =>
    have hc : child < t.size := inside child (by simp [Command.ids])
    exact wellFormed_settle wf fun u hu => wellFormed_of_insertAfter wf hc hu
  | detach id => exact wf.detach id
  | setText id text =>
    rw [perform, setTextStepwise_eq wf]
    apply wellFormed_settle wf
    intro u hu
    rcases setText_cases wf id text with ⟨_, he⟩ | ⟨v, hv, wfv⟩
    · cases hu.symm.trans he
    · cases hu.symm.trans hv
      exact wfv
  | setAttribute id name value =>
    apply wellFormed_settle wf
    intro u hu
    rcases setAttribute_cases wf id name value with ⟨_, he⟩ | ⟨v, hv, wfv⟩
    · cases hu.symm.trans he
    · cases hu.symm.trans hv
      exact wfv
  | removeAttribute id localName namespaceUri => exact wf.removeAttribute id localName namespaceUri
  | compact => exact wf.compact

theorem eq_of_settle {outcome : Except TreeError Tree} {e : TreeError}
    (h : (t.settle outcome).1 = some e) : (t.settle outcome).2 = t := by
  cases outcome with
  | ok u => cases h
  | error e => rfl

theorem eq_of_perform_error (wf : t.WellFormed) {c : Command} {e : TreeError}
    (h : (t.perform c).1 = some e) : (t.perform c).2 = t := by
  cases c with
  | appendChild parent child => exact eq_of_settle h
  | prependChild parent child => exact eq_of_settle h
  | insertBefore reference child => exact eq_of_settle h
  | insertAfter reference child => exact eq_of_settle h
  | setText id text =>
    rw [perform, setTextStepwise_eq wf] at h ⊢
    exact eq_of_settle h
  | setAttribute id name value => exact eq_of_settle h
  | _ => cases h

theorem wellFormed_ofRoot (root : Element) : (ofRoot root).WellFormed := by
  have planted := planted_push wellFormed_empty (by simp : NodeKind.element root ≠ .document)
  have fits := planted.fits wellFormed_empty (Or.inl rfl)
  refine fits.wellFormed_link planted.wellFormed ?_ 0
  rintro ⟨_, _, hroot⟩
  cases hroot

theorem Built.wellFormed (h : t.Built) : t.WellFormed := by
  induction h with
  | empty => exact wellFormed_empty
  | ofRoot root => exact wellFormed_ofRoot root
  | read h => exact Xml.wellFormed_of_read h
  | perform c inside _ ih => exact wellFormed_perform ih inside

/-! ## What well-formed trees are like -/

namespace WellFormed

theorem count_children (wf : t.WellFormed) (p c : NodeId) :
    (t.children p).count c = if t.parent? c = some p then 1 else 0 := by
  split
  · next h => exact List.count_eq_one_of_mem (wf.nodup_children p) ((wf.mem_children_iff p c).2 h)
  · next h =>
    rw [List.count_eq_zero, wf.mem_children_iff]
    exact h

theorem not_endless (wf : t.WellFormed) (chain : Nat → NodeId) :
    ¬ ∀ n, t.parent? (chain n) = some (chain (n + 1)) := by
  intro h
  have hempty := wellFounded_iff_isEmpty_descending_chain.1 wf.grounded
  exact hempty.false ⟨chain, h⟩

theorem forest (wf : t.WellFormed) : t.Forest where
  document := wf.document_iff
  top := wf.document_top
  once := wf.count_children
  chains := wf.not_endless
  holders p h := by
    obtain ⟨c, hc⟩ := List.exists_mem_of_ne_nil _ h
    exact wf.holder p c hc
  root := wf.one_root

/-! ## Loops end -/

theorem iterate_climb (wf : t.WellFormed) {n : Nat} (h : (t.lineage x).length ≤ n) :
    t.climb^[n] (some x) = none := by
  induction n generalizing x with
  | zero =>
    have := wf.length_lineage_pos x
    omega
  | succ n ih =>
    rw [Function.iterate_succ_apply]
    cases hp : t.parent? x with
    | none =>
      have stays : t.climb none = none := rfl
      rw [show t.climb (some x) = none from hp]
      exact Function.iterate_fixed stays n
    | some p =>
      rw [show t.climb (some x) = some p from hp]
      apply ih
      rw [wf.lineage_of_parent hp, List.length_cons] at h
      exact Nat.le_of_succ_le_succ h

/-- A round takes one node from what is still to be visited. -/
theorem iterate_unstack (wf : t.WellFormed) {n : Nat} {pending : List NodeId}
    (h : (pending.flatMap t.subtree).length ≤ n) : t.unstack^[n] pending = [] := by
  induction n generalizing pending with
  | zero =>
    cases pending with
    | nil => rfl
    | cons x pending =>
      rw [List.flatMap_cons, wf.subtree_eq] at h
      simp at h
  | succ n ih =>
    rw [Function.iterate_succ_apply]
    cases pending with
    | nil => exact ih (Nat.zero_le n)
    | cons x pending =>
      apply ih
      rw [List.flatMap_cons, wf.subtree_eq, List.cons_append, List.length_cons] at h
      rw [unstack, List.flatMap_append]
      exact Nat.le_of_succ_le_succ h

theorem wellFounded_children (wf : t.WellFormed) : WellFounded fun c p => c ∈ t.children p := by
  constructor
  intro x
  induction x using wf.descend with
  | step x ih => exact Acc.intro x ih

theorem ends (wf : t.WellFormed) : t.Ends where
  climbing x hx := wf.iterate_climb (wf.length_lineage_le hx)
  visiting := by
    apply wf.iterate_unstack
    rw [List.flatMap_singleton]
    exact wf.length_preorder_le
  descending := wf.wellFounded_children
  lineage x hx more := wf.lineageUpTo_add hx more
  attachedNodes more := by rw [wf.traverse_add, wf.attachedNodes_eq]
  content x more := wf.contentUpTo_add more x

end WellFormed

/-- Whatever commands have made of a tree, it is a forest in which all loops end, and a command that
fails leaves it as it is. -/
theorem forest_of_built (h : t.Built) :
    t.Forest ∧ (∀ c : Command, c.Inside t → ∀ e, (t.perform c).1 = some e → (t.perform c).2 = t) ∧
      t.Ends :=
  ⟨h.wellFormed.forest, fun _ _ _ he => eq_of_perform_error h.wellFormed he, h.wellFormed.ends⟩

/-- An element was detached, filled with a text and put below a new element. -/
def nested : Tree where
  nodes := #[⟨.document, none, [1]⟩, ⟨.element ⟨.plain "a", [], []⟩, some 0, []⟩,
    ⟨.element ⟨.plain "b", [], []⟩, some 3, [4]⟩, ⟨.element ⟨.plain "c", [], []⟩, none, [2]⟩,
    ⟨.text "x", some 2, []⟩]
  header := none

theorem built_nested : nested.Built := by
  have read : Xml.read "<a><b/></a>" = .ok ⟨#[⟨.document, none, [1]⟩,
      ⟨.element ⟨.plain "a", [], []⟩, some 0, [2]⟩, ⟨.element ⟨.plain "b", [], []⟩, some 1, []⟩],
      none⟩ := by
    cbv
  have detached := Built.perform (.detach 2) (by decide) (.read read)
  have created := detached.perform (.createElement ⟨.plain "c", [], []⟩) (by decide)
  have filled := created.perform (.setText 2 "x") (by decide)
  exact filled.perform (.appendChild 3 2) (by decide)

/-- The outer element does not fit below the inner one. -/
theorem forest_of_built_nested :
    nested.Built ∧ nested.Forest ∧ (nested.perform (.appendChild 2 3)).1 = some (.cycle 2 3) ∧
      (nested.perform (.appendChild 2 3)).2 = nested := by
  obtain ⟨forest, unchanged, _⟩ := forest_of_built built_nested
  have cycle : (nested.perform (.appendChild 2 3)).1 = some (.cycle 2 3) := by decide
  exact ⟨built_nested, forest, cycle, unchanged (.appendChild 2 3) (by decide) _ cycle⟩

end PartPatch.Tree
