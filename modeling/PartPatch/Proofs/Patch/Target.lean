import PartPatch.Patch.Session
import PartPatch.Proofs.Binding

/-!
# What operations find

In a well-formed tree the path under a key of a checked registry selects nodes that are there, and
elements only if it does not end in an attribute step. Selecting fails only for want of a token.
-/

namespace PartPatch

set_option autoImplicit false

/-- The element or attribute is there. -/
def NodeRef.In (t : Tree) : NodeRef → Prop
  | .element x => t.isElement x = true
  | .attribute x index => (t.attributeAt? x index).isSome = true

namespace Selection

variable {t : Tree} {b : Binding} {m n : NodeRef}

theorem in_of_stepLeads {s : Step} (hm : m.In t) (h : StepLeads t b s m n) : n.In t := by
  cases s with
  | element axis test =>
    obtain ⟨x, y, e, rfl, rfl, _, he, _⟩ := h
    exact Option.isSome_iff_exists.2 ⟨e, he⟩
  | «attribute» symbol =>
    obtain ⟨x, e, name, index, rfl, rfl, he, _, ⟨a, ha, _⟩, _⟩ := h
    rw [NodeRef.In, Tree.attributeAt?, he, Option.bind_some, ha]
    rfl
  | predicate path equals =>
    rw [StepLeads] at h
    rwa [h.1]

theorem isElement_of_stepLeads {s : Step} (hs : ¬ s.IsAttribute) (hm : ∃ x, m = .element x)
    (h : StepLeads t b s m n) : ∃ y, n = .element y := by
  cases s with
  | element axis test =>
    obtain ⟨x, y, e, rfl, rfl, _⟩ := h
    exact ⟨y, rfl⟩
  | «attribute» symbol => exact absurd ⟨symbol, rfl⟩ hs
  | predicate path equals =>
    rw [StepLeads] at h
    rwa [h.1]

theorem in_of_leads {path : List Step} (hm : m.In t) (h : Leads t b path m n) : n.In t := by
  induction path generalizing m with
  | nil =>
    rw [Leads] at h
    rwa [h]
  | cons s path ih =>
    rw [Leads] at h
    obtain ⟨k, hk, hn⟩ := h
    exact ih (in_of_stepLeads hm hk) hn

theorem isElement_of_leads {path : List Step} (hpath : ∀ s ∈ path, ¬ s.IsAttribute)
    (hm : ∃ x, m = .element x) (h : Leads t b path m n) : ∃ y, n = .element y := by
  induction path generalizing m with
  | nil =>
    rw [Leads] at h
    rwa [h]
  | cons s path ih =>
    rw [Leads] at h
    obtain ⟨k, hk, hn⟩ := h
    have hk' := isElement_of_stepLeads (hpath s List.mem_cons_self) hm hk
    exact ih (fun s' hs' => hpath s' (List.mem_cons_of_mem s hs')) hk' hn

/-- The first step of a path leads away from the document, which is no element. -/
theorem in_of_leads_document (wf : t.WellFormed) {path : List Step} (formed : Step.Formed path)
    (h : Leads t b path (.element Tree.documentId) n) : n.In t := by
  rcases formed with ⟨symbol, rfl⟩ | ⟨axis, test, rest, rfl, _⟩
  · rw [Leads] at h
    obtain ⟨k, ⟨x, e, _, _, hx, _, he, _⟩, _⟩ := h
    cases hx
    rw [Tree.element?_eq_some_iff, (wf.document_iff _).2 rfl] at he
    cases he
  · rw [Leads] at h
    obtain ⟨k, ⟨x, y, e, _, rfl, _, he, _⟩, hn⟩ := h
    exact in_of_leads (m := .element y) (Option.isSome_iff_exists.2 ⟨e, he⟩) hn

/-- The attribute found by its name is the one at the first place of that name. -/
theorem find?_eq_some_iff_isFirst {e : Element} {name : BoundName} {a : Attribute} :
    (e.attributes.find? fun a => name.Names a.name) = some a ↔
      ∃ index, IsFirst e name index ∧ e.attributes[index]? = some a := by
  rw [List.find?_eq_some_iff_getElem]
  constructor
  · rintro ⟨names, i, hi, rfl, before⟩
    refine ⟨i, ⟨⟨_, List.getElem?_eq_getElem hi, of_decide_eq_true names⟩, ?_⟩,
      List.getElem?_eq_getElem hi⟩
    intro j hj a ha names'
    obtain ⟨hj', rfl⟩ := List.getElem?_eq_some_iff.1 ha
    simpa [names'] using before j hj
  · rintro ⟨i, ⟨⟨a', ha', names⟩, before⟩, ha⟩
    cases ha'.symm.trans ha
    obtain ⟨hi, rfl⟩ := List.getElem?_eq_some_iff.1 ha
    refine ⟨decide_eq_true names, i, hi, rfl, ?_⟩
    intro j hj
    simpa using before j hj _ (List.getElem?_eq_getElem (hj.trans hi))

theorem IsFirst.unique {e : Element} {name : BoundName} {i j : Nat} (hi : IsFirst e name i)
    (hj : IsFirst e name j) : i = j := by
  obtain ⟨⟨a, ha, names⟩, before⟩ := hi
  obtain ⟨⟨a', ha', names'⟩, before'⟩ := hj
  rcases Nat.lt_trichotomy i j with h | h | h
  · exact absurd names (before' i h a ha)
  · exact h
  · exact absurd names' (before j h a' ha')

theorem attribute_of_leads {path : List Step} {symbol : String}
    (hlast : path.getLast? = some (.attribute symbol)) (h : Leads t b path m n) :
    ∃ x index, n = .attribute x index := by
  induction path generalizing m with
  | nil => cases hlast
  | cons s path ih =>
    rw [Leads] at h
    obtain ⟨k, hk, hn⟩ := h
    cases path with
    | nil =>
      cases hn
      cases hlast
      obtain ⟨x, e, name, index, _, rfl, _⟩ := hk
      exact ⟨x, index, rfl⟩
    | cons s' path => exact ih hlast hn

/-- A selected attribute is the first of the name that the last step of the path asks for. -/
theorem isFirst_of_leads {path : List Step} (hpath : ∀ s ∈ path.dropLast, ¬ s.IsAttribute)
    (hm : ∃ x, m = .element x) {x : NodeId} {index : Nat}
    (h : Leads t b path m (.attribute x index)) :
    ∃ symbol name e, path.getLast? = some (.attribute symbol) ∧
      b.attribute? symbol = some name ∧ t.element? x = some e ∧ IsFirst e name index := by
  obtain ⟨z, rfl⟩ := hm
  induction path generalizing z with
  | nil => cases h
  | cons s path ih =>
    rw [Leads] at h
    obtain ⟨k, hk, hn⟩ := h
    cases path with
    | nil =>
      cases hn
      cases s with
      | element axis test =>
        obtain ⟨_, _, _, _, h, _⟩ := hk
        cases h
      | «attribute» symbol =>
        obtain ⟨y, e, name, i, _, h, he, hname, first⟩ := hk
        cases h
        exact ⟨symbol, name, e, rfl, hname, he, first⟩
      | predicate inner equals =>
        rw [StepLeads] at hk
        cases hk.1
    | cons s' path =>
      rw [List.dropLast_cons_cons] at hpath
      obtain ⟨hs, hrest⟩ := List.forall_mem_cons.1 hpath
      obtain ⟨y, rfl⟩ := isElement_of_stepLeads hs ⟨z, rfl⟩ hk
      rw [List.getLast?_cons_cons]
      exact ih hrest y hn

/-- A path selects at most one node of each element: the element, or one of its attributes. -/
theorem eq_of_leads {path : List Step} (formed : Step.Formed path)
    (hm : Leads t b path (.element Tree.documentId) m)
    (hn : Leads t b path (.element Tree.documentId) n) (same : m.elementId = n.elementId) :
    m = n := by
  have attribute_of : ∀ {x index n},
      Leads t b path (.element Tree.documentId) (.attribute x index) →
      Leads t b path (.element Tree.documentId) n → ∃ y i, n = .attribute y i := by
    intro x index n h h'
    obtain ⟨symbol, _, _, hlast, _⟩ := isFirst_of_leads formed.dropLast ⟨_, rfl⟩ h
    exact attribute_of_leads hlast h'
  cases m with
  | element x =>
    cases n with
    | element y => exact congrArg NodeRef.element same
    | «attribute» y j =>
      obtain ⟨_, _, h⟩ := attribute_of hn hm
      cases h
  | «attribute» x i =>
    obtain ⟨y, j, rfl⟩ := attribute_of hm hn
    cases same
    obtain ⟨symbol, name, e, hlast, hname, he, first⟩ :=
      isFirst_of_leads formed.dropLast ⟨_, rfl⟩ hm
    obtain ⟨symbol', name', e', hlast', hname', he', first'⟩ :=
      isFirst_of_leads formed.dropLast ⟨_, rfl⟩ hn
    cases hlast.symm.trans hlast'
    cases hname.symm.trans hname'
    cases he.symm.trans he'
    rw [first.unique first']

end Selection

namespace Session

variable {s : Session} {t : Tree} {key : String} {p : NamedPath}

/-- A variable has neither a value in the registry nor a token. -/
def Unsupplied (s : Session) (e : Binding.Error) : Prop :=
  ∃ name, e.unresolved = .value name ∧ s.registry.value? name = none ∧ s.tokens name = none

/-- What is said of nodes selected under a key. -/
structure Found (t : Tree) (p : NamedPath) (nodes : List NodeRef) : Prop where
  ordered : Selection.Ordered t nodes
  present : ∀ n ∈ nodes, n.In t
  elements : p.path.selectsAttribute = false → ∀ n ∈ nodes, ∃ x, n = .element x

theorem select_cases (sound : s.registry.Sound) (wf : t.WellFormed)
    (hp : s.registry.path? key = some p) :
    (∃ nodes, s.select t key = .ok nodes ∧ Found t p nodes) ∨
      ∃ e, s.select t key = .error (.binding e) ∧ s.Unsupplied e := by
  obtain ⟨b, hb, _, _, _, hpending⟩ := Binding.bind_eq_ok sound hp
  have hselect : s.select t key = (do
      let b ← (b.withTokens key s.tokens).mapError .binding
      (p.select t b).mapError .selection) := by
    rw [select, hp]
    dsimp only
    rw [hb]
    rfl
  rw [hselect]
  cases ht : b.withTokens key s.tokens with
  | error e =>
    obtain ⟨name, hname, he, htoken⟩ := Binding.withTokens_error ht
    exact Or.inr ⟨e, rfl, name, he, hpending name hname, htoken⟩
  | ok b' =>
    have binds := Binding.bindsAll_of_withTokens sound hp hb ht
    obtain ⟨nodes, hnodes, ordered, mem⟩ := Selection.select_eq_ok p wf binds
    refine Or.inl ⟨nodes, ?_, ordered, ?_, ?_⟩
    · change (p.select t b').mapError OperationError.selection = _
      rw [hnodes]
      rfl
    · intro n hn
      exact Selection.in_of_leads_document wf (sound.formed key p hp) ((mem n).1 hn)
    · intro hattribute n hn
      exact Selection.isElement_of_leads
        (Path.not_isAttribute_of_formed (sound.formed key p hp) hattribute) ⟨_, rfl⟩
        ((mem n).1 hn)

/-- The path stands under the key, and its symbols and variables are bound like this. -/
def Evaluates (s : Session) (key : String) (p : NamedPath) (b : Binding) : Prop :=
  s.registry.path? key = some p ∧
    ∃ open_, Binding.bind s.registry p = .ok open_ ∧ open_.withTokens key s.tokens = .ok b

/-- What is selected under a key is what the steps of its path lead to. A path that was evaluated on
one tree can be evaluated on any other, with the same binding. -/
theorem select_reads (sound : s.registry.Sound) {nodes : List NodeRef}
    (h : s.select t key = .ok nodes) :
    ∃ p b, s.Evaluates key p b ∧ Step.Formed p.path.steps ∧
      ∀ u : Tree, u.WellFormed → (∃ found, s.select u key = .ok found) ∧
        ∀ found, s.select u key = .ok found → Selection.Ordered u found ∧
          ∀ n, n ∈ found ↔
            Selection.Leads u b p.path.steps (.element Tree.documentId) n := by
  cases hp : s.registry.path? key with
  | none => simp only [select, hp] at h; cases h
  | some p =>
    obtain ⟨b, hb, _⟩ := Binding.bind_eq_ok sound hp
    have hselect : ∀ u : Tree, s.select u key = (do
        let b ← (b.withTokens key s.tokens).mapError .binding
        (p.select u b).mapError .selection) := by
      intro u
      simp only [select, hp, hb]
      rfl
    rw [hselect, bind_eq_ok_iff] at h
    obtain ⟨b', hb', _⟩ := h
    rw [mapError_eq_ok_iff] at hb'
    have binds := Binding.bindsAll_of_withTokens sound hp hb hb'
    refine ⟨p, b', ⟨hp, b, hb, hb'⟩, sound.formed key p hp, ?_⟩
    intro u wfu
    obtain ⟨found, hfound, ordered, mem⟩ := Selection.select_eq_ok p wfu binds
    have selects : s.select u key = .ok found := by
      rw [hselect, hb']
      change (p.select u b').mapError OperationError.selection = _
      rw [hfound]
      rfl
    refine ⟨⟨found, selects⟩, ?_⟩
    intro found' selects'
    cases selects.symm.trans selects'
    exact ⟨ordered, mem⟩

theorem select_eq_error_of_none (h : s.registry.path? key = none) :
    s.select t key = .error (.unknownRef "paths" key) := by
  rw [select, h]

theorem selectOne_eq_ok_iff {n : NodeRef} :
    s.selectOne t key = .ok n ↔ s.select t key = .ok [n] := by
  rw [selectOne, bind_eq_ok_iff]
  constructor
  · rintro ⟨nodes, hnodes, h⟩
    rcases nodes with _ | ⟨m, _ | ⟨m', rest⟩⟩
    · cases h
    · cases h
      exact hnodes
    · cases h
  · intro h
    exact ⟨[n], h, rfl⟩

theorem selectElement_eq_ok_iff {x : NodeId} :
    s.selectElement t key = .ok x ↔ s.selectOne t key = .ok (.element x) := by
  rw [selectElement, bind_eq_ok_iff]
  constructor
  · rintro ⟨n, hn, h⟩
    cases n with
    | element y =>
      cases h
      exact hn
    | «attribute» y index => cases h
  · intro h
    exact ⟨_, h, rfl⟩

theorem selectOne_cases (sound : s.registry.Sound) (wf : t.WellFormed)
    (hp : s.registry.path? key = some p) :
    (∃ n, s.selectOne t key = .ok n ∧ Found t p [n]) ∨
      ∃ e, s.selectOne t key = .error e ∧
        (e.isMatchFailure = true ∨ ∃ b, e = .binding b ∧ s.Unsupplied b) := by
  rcases select_cases sound wf hp with ⟨nodes, hnodes, found⟩ | ⟨e, he, unsupplied⟩
  · match nodes, hnodes, found with
    | [], hnodes, _ =>
      refine Or.inr ⟨.targetNotFound key, ?_, Or.inl rfl⟩
      rw [selectOne, hnodes]
      rfl
    | [n], hnodes, found =>
      refine Or.inl ⟨n, ?_, found⟩
      rw [selectOne, hnodes]
      rfl
    | m :: n :: nodes, hnodes, _ =>
      refine Or.inr ⟨.ambiguousTarget key (m :: n :: nodes).length, ?_, Or.inl rfl⟩
      rw [selectOne, hnodes]
      rfl
  · refine Or.inr ⟨.binding e, ?_, Or.inr ⟨e, rfl, unsupplied⟩⟩
    rw [selectOne, he]
    rfl

theorem selectElement_cases (sound : s.registry.Sound) (wf : t.WellFormed)
    (hp : s.registry.path? key = some p) :
    (∃ x, s.selectElement t key = .ok x ∧ t.isElement x = true ∧ t.Attached x) ∨
      ∃ e, s.selectElement t key = .error e ∧
        (p.path.selectsAttribute = true ∨ e.isMatchFailure = true ∨
          ∃ b, e = .binding b ∧ s.Unsupplied b) := by
  rcases selectOne_cases sound wf hp with ⟨n, hn, found⟩ | ⟨e, he, cause⟩
  · cases n with
    | element x =>
      refine Or.inl ⟨x, ?_, found.present _ List.mem_cons_self,
        found.ordered.attached _ List.mem_cons_self⟩
      rw [selectElement, hn]
      rfl
    | «attribute» x index =>
      refine Or.inr ⟨.attributeTarget key, ?_, Or.inl ?_⟩
      · rw [selectElement, hn]
        rfl
      · rw [← Bool.not_eq_false]
        intro hattribute
        obtain ⟨y, hy⟩ := found.elements hattribute _ List.mem_cons_self
        cases hy
  · refine Or.inr ⟨e, ?_, Or.inr cause⟩
    rw [selectElement, he]
    rfl

end Session

end PartPatch
