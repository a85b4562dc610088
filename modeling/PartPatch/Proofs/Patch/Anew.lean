import PartPatch.Proofs.Patch.Target
import PartPatch.Proofs.Tree.Shape

/-!
# What a path selects after a change

A change that only takes away, or only adds new nodes, makes a path select something that it did not
select before in two ways only: a step reaches a new element, or a predicate compares the text of an
element that has another text now. Everything else was selected before the change.
-/

namespace PartPatch

set_option autoImplicit false

namespace Tree

/-- What the second tree says of the elements of the first, the first has said before. -/
structure Inherits (t u : Tree) : Prop where
  parents : ∀ p x, t.isElement x = true → u.Parent p x → t.Parent p x
  elements : ∀ x f, t.isElement x = true → u.element? x = some f →
    ∃ e, t.element? x = some e ∧ e.Stripped f

variable {t u : Tree} {x y : NodeId}

theorem Pruned.inherits (h : t.Pruned u) (wf : t.WellFormed) (wfu : u.WellFormed) :
    t.Inherits u where
  parents _ _ _ hx := h.parent wf wfu hx
  elements x f _ hf := h.elements x f hf

theorem Extends.inherits (h : t.Extends u) : t.Inherits u where
  parents p x hx hp := by
    obtain ⟨e, he⟩ := isElement_iff.1 hx
    rwa [Parent, h.parents x (lt_size_of_kind? he)] at hp
  elements x f hx hf := by
    obtain ⟨e, he⟩ := isElement_iff.1 hx
    rw [element?_eq_some_iff, h.kinds x (lt_size_of_kind? he), ← element?_eq_some_iff] at hf
    exact ⟨f, hf, .refl f⟩

/-- What stands above an old element has stood there before. -/
theorem Inherits.above (h : t.Inherits u) (wf : t.WellFormed) (wfu : u.WellFormed)
    (hy : t.isElement y = true) (hxy : u.Above x y) : t.Above x y := by
  induction hxy with
  | single hp => exact .single (h.parents _ _ hy hp)
  | @tail p y above hp ih =>
    have hp' := h.parents p y hy hp
    have holder := wf.holder p y ((wf.mem_children_iff p y).2 hp')
    rcases holder with rfl | helement
    · obtain ⟨q, _, hq⟩ := above_iff.1 above
      exact absurd rfl (wfu.ne_document_of_parent hq)
    · exact .tail (ih helement) hp'

end Tree

/-- The second node is in the second tree what the first was in the first tree. -/
inductive NodeRef.Kept (t u : Tree) : NodeRef → NodeRef → Prop where
  | element {x : NodeId} (h : x = Tree.documentId ∨ t.isElement x = true) :
    Kept t u (.element x) (.element x)
  | attribute {x : NodeId} {i j : Nat} {a : Attribute} (ht : t.attributeAt? x i = some a)
    (hu : u.attributeAt? x j = some a) : Kept t u (.attribute x i) (.attribute x j)

/-- The node is an element whose text has changed. -/
def NodeRef.Reworded (t u : Tree) (n : NodeRef) : Prop :=
  ∃ x, n = .element x ∧ t.text x ≠ u.text x

variable {t u : Tree} {b : Binding}

theorem NodeRef.Kept.stringValue {m n : NodeRef} (h : NodeRef.Kept t u m n)
    (same : ¬ n.Reworded t u) : t.stringValue m = u.stringValue n := by
  cases h with
  | element _ =>
    by_contra hne
    exact same ⟨_, rfl, hne⟩
  | «attribute» ht hu => rw [Tree.stringValue, Tree.stringValue, ht, hu]

namespace Selection

/-- The first attribute of a name that is left in an element was the first before. -/
theorem IsFirst.of_stripped {e f : Element} (stripped : e.Stripped f) {name : BoundName}
    {index : Nat} (first : IsFirst f name index) {a : Attribute}
    (ha : f.attributes[index]? = some a) :
    ∃ i, IsFirst e name i ∧ e.attributes[i]? = some a := by
  obtain ⟨keep, hkeep⟩ := stripped.attributes
  have found := find?_eq_some_iff_isFirst.2 ⟨index, first, ha⟩
  have names : name.Names a.name := by simpa using List.find?_some found
  have kept : keep a.name.localName a.name.namespaceUri = true := by
    have hmem := List.mem_of_getElem? ha
    rw [hkeep] at hmem
    exact (List.mem_filter.1 hmem).2
  rw [hkeep, List.find?_filter] at found
  refine find?_eq_some_iff_isFirst.1 (found ▸ ?_)
  -- all attributes of the name have one meaning, so that all of them were kept
  congr 1
  funext c
  by_cases hc : name.Names c.name
  · rw [names.1, names.2, ← hc.1, ← hc.2] at kept
    simp [hc, kept]
  · simp [hc]

mutual

/-- The step leads from one node to another in the second tree owing to what is new there. -/
def StepAnew (t u : Tree) (b : Binding) : Step → NodeRef → NodeRef → Prop
  | .element axis test, m, n => StepLeads u b (.element axis test) m n ∧ ¬ n.In t
  | .attribute _, _, _ => False
  | .predicate path equals, m, n =>
    n = m ∧ ∃ k,
      (LeadsAnew t u b path m k ∨ Leads u b path m k ∧ equals ≠ none ∧ k.Reworded t u) ∧
      ∀ name, equals = some name → b.value? name = some (u.stringValue k)

/-- One of the steps leads on owing to what is new. -/
def LeadsAnew (t u : Tree) (b : Binding) : List Step → NodeRef → NodeRef → Prop
  | [], _, _ => False
  | s :: path, m, n => ∃ k, StepAnew t u b s m k ∧ Leads u b path k n ∨
      StepLeads u b s m k ∧ LeadsAnew t u b path k n

end

mutual

theorem stepLeads_of_anew : ∀ (s : Step) {m n : NodeRef}, StepAnew t u b s m n →
    StepLeads u b s m n
  | .element axis test, m, n, h => h.1
  | .attribute symbol, m, n, h => h.elim
  | .predicate path equals, m, n, h => by
    rw [StepAnew] at h
    obtain ⟨hn, k, hk, holds⟩ := h
    rw [StepLeads]
    rcases hk with hk | ⟨hk, _⟩
    · exact ⟨hn, k, leads_of_anew path hk, holds⟩
    · exact ⟨hn, k, hk, holds⟩

theorem leads_of_anew : ∀ (path : List Step) {m n : NodeRef}, LeadsAnew t u b path m n →
    Leads u b path m n
  | [], m, n, h => by
    rw [LeadsAnew] at h
    exact h.elim
  | s :: path, m, n, h => by
    rw [LeadsAnew] at h
    rw [Leads]
    obtain ⟨k, ⟨hs, hpath⟩ | ⟨hs, hpath⟩⟩ := h
    · exact ⟨k, stepLeads_of_anew s hs, hpath⟩
    · exact ⟨k, hs, leads_of_anew path hpath⟩

end

theorem elementLeads_of_not_anew (inherits : t.Inherits u) (wf : t.WellFormed)
    (wfu : u.WellFormed) {axis : Axis} {test : NameTest} {m m' n : NodeRef}
    (kept : NodeRef.Kept t u m' m) (h : StepLeads u b (.element axis test) m n)
    (old : n.In t) :
    ∃ n', StepLeads t b (.element axis test) m' n' ∧ NodeRef.Kept t u n' n := by
  obtain ⟨x, y, f, rfl, rfl, along, hf, passes⟩ := h
  cases kept with
  | element _ =>
    obtain ⟨e, he, stripped⟩ := inherits.elements y f old hf
    refine ⟨.element y, ⟨x, y, e, rfl, rfl, ?_, he, ?_⟩, .element (Or.inr old)⟩
    · cases axis with
      | child => exact inherits.parents x y old along
      | descendant => exact inherits.above wf wfu old along
    · cases test with
      | any => trivial
      | named symbol =>
        obtain ⟨name, hname, names⟩ := passes
        exact ⟨name, hname, stripped.name ▸ names⟩

theorem attributeLeads_of_inherits (inherits : t.Inherits u) (wfu : u.WellFormed)
    {symbol : String} {m m' n : NodeRef} (kept : NodeRef.Kept t u m' m)
    (h : StepLeads u b (.attribute symbol) m n) :
    ∃ n', StepLeads t b (.attribute symbol) m' n' ∧ NodeRef.Kept t u n' n := by
  obtain ⟨x, f, name, index, rfl, rfl, hf, hname, first⟩ := h
  obtain ⟨a, ha, _⟩ := first.1
  cases kept with
  | element hx =>
    rcases hx with rfl | hx
    · rw [Tree.element?_eq_some_iff, (wfu.document_iff _).2 rfl] at hf
      cases hf
    · obtain ⟨e, he, stripped⟩ := inherits.elements x f hx hf
      obtain ⟨i, first', hi⟩ := first.of_stripped stripped ha
      refine ⟨.attribute x i, ⟨x, e, name, i, rfl, rfl, he, hname, first'⟩, ?_⟩
      refine .attribute (a := a) ?_ ?_
      · rw [Tree.attributeAt?, he, Option.bind_some, hi]
      · rw [Tree.attributeAt?, hf, Option.bind_some, ha]

mutual

/-- What a step leads to, it leads to owing to something new or it has led to before. -/
theorem stepLeads_of_not_anew (inherits : t.Inherits u) (wf : t.WellFormed)
    (wfu : u.WellFormed) : ∀ (s : Step) {m m' n : NodeRef}, NodeRef.Kept t u m' m →
    StepLeads u b s m n → ¬ StepAnew t u b s m n →
    ∃ n', StepLeads t b s m' n' ∧ NodeRef.Kept t u n' n
  | .element axis test, m, m', n, kept, h, old =>
    elementLeads_of_not_anew inherits wf wfu kept h (by_contra fun hn => old ⟨h, hn⟩)
  | .attribute symbol, m, m', n, kept, h, _ => attributeLeads_of_inherits inherits wfu kept h
  | .predicate path equals, m, m', n, kept, h, old => by
    rw [StepLeads] at h
    obtain ⟨rfl, k, hk, holds⟩ := h
    rw [StepAnew] at old
    have oldPath : ¬ LeadsAnew t u b path n k := fun hk' =>
      old ⟨rfl, k, Or.inl hk', holds⟩
    have oldText : equals ≠ none → ¬ k.Reworded t u := fun hne reworded =>
      old ⟨rfl, k, Or.inr ⟨hk, hne, reworded⟩, holds⟩
    obtain ⟨k', hk', keptK⟩ := leads_of_not_anew inherits wf wfu path kept hk oldPath
    refine ⟨m', ?_, kept⟩
    rw [StepLeads]
    refine ⟨rfl, k', hk', ?_⟩
    intro name hname
    rw [keptK.stringValue (oldText (by simp [hname]))]
    exact holds name hname

theorem leads_of_not_anew (inherits : t.Inherits u) (wf : t.WellFormed)
    (wfu : u.WellFormed) : ∀ (path : List Step) {m m' n : NodeRef}, NodeRef.Kept t u m' m →
    Leads u b path m n → ¬ LeadsAnew t u b path m n →
    ∃ n', Leads t b path m' n' ∧ NodeRef.Kept t u n' n
  | [], m, m', n, kept, h, _ => by
    rw [Leads] at h
    subst h
    exact ⟨m', by rw [Leads], kept⟩
  | s :: path, m, m', n, kept, h, old => by
    rw [Leads] at h
    obtain ⟨k, hs, hpath⟩ := h
    rw [LeadsAnew] at old
    have oldStep : ¬ StepAnew t u b s m k := fun hk => old ⟨k, Or.inl ⟨hk, hpath⟩⟩
    have oldPath : ¬ LeadsAnew t u b path k n := fun hn => old ⟨k, Or.inr ⟨hs, hn⟩⟩
    obtain ⟨k', hk', keptK⟩ := stepLeads_of_not_anew inherits wf wfu s kept hs oldStep
    obtain ⟨n', hn', keptN⟩ := leads_of_not_anew inherits wf wfu path keptK hpath oldPath
    exact ⟨n', by rw [Leads]; exact ⟨k', hk', hn'⟩, keptN⟩

end

/-! ## Changes that add nothing -/

mutual

/-- Where no element is new, a step leads on anew only if it compares something inside. -/
theorem compares_of_stepAnew (old : ∀ x, u.isElement x = true → t.isElement x = true) :
    ∀ (s : Step) {m n : NodeRef}, StepAnew t u b s m n →
      ∃ inner name, (Step.predicate inner (some name)).Within [s]
  | .element axis test, m, n, h => by
    obtain ⟨⟨x, y, e, rfl, rfl, _, he, _⟩, new⟩ := h
    exact absurd (old y (Option.isSome_iff_exists.2 ⟨e, he⟩)) new
  | .attribute symbol, m, n, h => h.elim
  | .predicate path equals, m, n, h => by
    rw [StepAnew] at h
    obtain ⟨_, k, hk | ⟨_, hne, _⟩, _⟩ := h
    · obtain ⟨inner, name, within⟩ := compares_of_leadsAnew old path hk
      exact ⟨inner, name, .inside List.mem_cons_self within⟩
    · obtain ⟨name, rfl⟩ := Option.ne_none_iff_exists'.1 hne
      exact ⟨path, name, .here List.mem_cons_self⟩

theorem compares_of_leadsAnew (old : ∀ x, u.isElement x = true → t.isElement x = true) :
    ∀ (path : List Step) {m n : NodeRef}, LeadsAnew t u b path m n →
      ∃ inner name, (Step.predicate inner (some name)).Within path
  | [], m, n, h => by
    rw [LeadsAnew] at h
    exact h.elim
  | s :: path, m, n, h => by
    rw [LeadsAnew] at h
    obtain ⟨k, ⟨hs, _⟩ | ⟨_, hpath⟩⟩ := h
    · obtain ⟨inner, name, within⟩ := compares_of_stepAnew old s hs
      exact ⟨inner, name, within.mono (List.cons_subset_cons s (List.nil_subset path))⟩
    · obtain ⟨inner, name, within⟩ := compares_of_leadsAnew old path hpath
      exact ⟨inner, name, within.mono (List.subset_cons_self s path)⟩

end

end Selection

end PartPatch
