import PartPatch.Proofs.Patch.Repeat

/-!
# Operations that reach their goal at once

`set` and the three kinds of `ensure` say what shall be there. Under a path without predicates, what
`set` and `ensureAttr` write does not change what the path selects: the nodes at and above the
target keep their places and names. So the same operation has nothing left to do, and neither has it
after the tree was compacted. `ensurePath` and `ensurePart` look for what they have added
themselves.
-/

namespace PartPatch

set_option autoImplicit false

variable {t u : Tree} {b : Binding} {m n : NodeRef} {x y : NodeId}

/-! ## Nodes that stay where they are -/

/-- In the second tree the elements at and above the node have the parents and names that they have
in the first. If the node is an attribute, no attribute of its element has another name or place. -/
structure NodeRef.Stays (t u : Tree) (n : NodeRef) : Prop where
  parents : ∀ p y, t.AtOrAbove y n.elementId → t.Parent p y → u.Parent p y
  names : ∀ y e, t.AtOrAbove y n.elementId → t.element? y = some e →
    ∃ f, u.element? y = some f ∧ f.name = e.name ∧ ∀ index, n = .attribute y index →
      f.attributes.map Attribute.name = e.attributes.map Attribute.name

theorem NodeRef.Stays.above (h : n.Stays t u) (hy : t.AtOrAbove y n.elementId)
    (hxy : t.Above x y) : u.Above x y := by
  induction hxy with
  | single hp => exact .single (h.parents _ _ hy hp)
  | tail _ hp ih => exact .tail (ih (.head hp hy)) (h.parents _ _ hy hp)

namespace Selection

theorem atOrAbove_of_stepLeads {s : Step} (h : StepLeads t b s m n) :
    t.AtOrAbove m.elementId n.elementId := by
  cases s with
  | element axis test =>
    obtain ⟨x, y, e, rfl, rfl, along, _⟩ := h
    cases axis with
    | child => exact .single along
    | descendant => exact Tree.Above.atOrAbove along
  | «attribute» symbol =>
    obtain ⟨x, e, name, index, rfl, rfl, _⟩ := h
    exact .refl
  | predicate path equals =>
    rw [StepLeads] at h
    rw [h.1]
    exact .refl

theorem atOrAbove_of_leads {path : List Step} (h : Leads t b path m n) :
    t.AtOrAbove m.elementId n.elementId := by
  induction path generalizing m with
  | nil =>
    rw [Leads] at h
    rw [h]
    exact .refl
  | cons s path ih =>
    rw [Leads] at h
    obtain ⟨k, hk, hn⟩ := h
    exact (atOrAbove_of_stepLeads hk).trans (ih hn)

/-- Which attribute is the first of a name depends on the names of the attributes only. -/
theorem IsFirst.of_names {e f : Element} {name : BoundName} {index : Nat}
    (first : IsFirst e name index)
    (names : f.attributes.map Attribute.name = e.attributes.map Attribute.name) :
    IsFirst f name index := by
  have same : ∀ i : Nat, (f.attributes[i]?).map Attribute.name =
      (e.attributes[i]?).map Attribute.name := by
    intro i
    rw [← List.getElem?_map, names, List.getElem?_map]
  obtain ⟨⟨a, ha, names⟩, before⟩ := first
  refine ⟨?_, ?_⟩
  · have hmap := same index
    rw [ha, Option.map_some, Option.map_eq_some_iff] at hmap
    obtain ⟨c, hc, hname⟩ := hmap
    exact ⟨c, hc, hname ▸ names⟩
  · intro i hi c hc names'
    have hmap := (same i).symm
    rw [hc, Option.map_some, Option.map_eq_some_iff] at hmap
    obtain ⟨a', ha', hname⟩ := hmap
    exact before i hi a' ha' (hname ▸ names')

/-- Nothing is below an attribute, so that it is where a path without predicates ends. -/
theorem eq_of_leads_attribute {path : List Step} {index : Nat}
    (plain : ∀ inner equals, .predicate inner equals ∉ path)
    (h : Leads t b path (.attribute x index) n) : n = .attribute x index := by
  cases path with
  | nil =>
    rw [Leads] at h
    exact h
  | cons s path =>
    rw [Leads] at h
    obtain ⟨k, hk, _⟩ := h
    cases s with
    | element axis test =>
      obtain ⟨_, _, _, h, _⟩ := hk
      cases h
    | «attribute» symbol =>
      obtain ⟨_, _, _, _, h, _⟩ := hk
      cases h
    | predicate inner equals => exact absurd List.mem_cons_self (plain inner equals)

/-- Without predicates, what leads to a node that stays leads there in the other tree as well. -/
theorem leads_of_stays {path : List Step} (plain : ∀ inner equals, .predicate inner equals ∉ path)
    (stays : n.Stays t u) (h : Leads t b path m n) : Leads u b path m n := by
  induction path generalizing m with
  | nil =>
    rw [Leads] at h ⊢
    exact h
  | cons s path ih =>
    rw [Leads] at h ⊢
    obtain ⟨k, hk, hn⟩ := h
    refine ⟨k, ?_, ih (fun inner equals h => plain inner equals (List.mem_cons_of_mem s h)) hn⟩
    have above := atOrAbove_of_leads hn
    cases s with
    | element axis test =>
      obtain ⟨x, y, e, rfl, rfl, along, he, passes⟩ := hk
      obtain ⟨f, hf, name, _⟩ := stays.names y e above he
      refine ⟨x, y, f, rfl, rfl, ?_, hf, ?_⟩
      · cases axis with
        | child => exact stays.parents x y above along
        | descendant => exact stays.above above along
      · cases test with
        | any => trivial
        | named symbol =>
          obtain ⟨bound, hbound, names⟩ := passes
          exact ⟨bound, hbound, name ▸ names⟩
    | «attribute» symbol =>
      obtain ⟨x, e, name, index, rfl, rfl, he, hname, first⟩ := hk
      obtain ⟨f, hf, _, names⟩ := stays.names x e above he
      have last : n = .attribute x index := eq_of_leads_attribute
        (fun inner equals h => plain inner equals (List.mem_cons_of_mem _ h)) hn
      exact ⟨x, f, name, index, rfl, rfl, hf, hname, first.of_names (names index last)⟩
    | predicate inner equals => exact absurd List.mem_cons_self (plain inner equals)

/-- A path leads to elements only if it leads to one, in whatever tree. -/
theorem isElement_of_leads_element {path : List Step} (formed : Step.Formed path)
    (h : Leads t b path (.element Tree.documentId) (.element x))
    (h' : Leads u b path (.element Tree.documentId) m) : ∃ y, m = .element y := by
  cases m with
  | element y => exact ⟨y, rfl⟩
  | «attribute» y index =>
    obtain ⟨symbol, _, _, hlast, _⟩ := isFirst_of_leads formed.dropLast ⟨_, rfl⟩ h'
    obtain ⟨_, _, e⟩ := attribute_of_leads hlast h
    cases e

end Selection

namespace Tree

/-- The elements below the document are held by the document or by elements. -/
theorem isElement_of_atOrAbove (wf : t.WellFormed) {p : NodeId} (hx : t.isElement x = true)
    (hyx : t.AtOrAbove y x) (hp : t.Parent p y) : t.isElement y = true := by
  rcases atOrAbove_iff.1 hyx with rfl | above
  · exact hx
  · obtain ⟨c, hc, _⟩ := above_iff_child.1 above
    rcases wf.holder y c ((wf.mem_children_iff y c).2 hc) with rfl | helement
    · exact absurd rfl (wf.ne_document_of_parent hp)
    · exact helement

theorem isElement_of_in {n : NodeRef} (hn : n.In t) : t.isElement n.elementId = true := by
  cases n with
  | element x => exact hn
  | «attribute» x index =>
    obtain ⟨a, ha⟩ := Option.isSome_iff_exists.1 hn
    obtain ⟨e, he, _⟩ := Option.bind_eq_some_iff.1 ha
    exact Option.isSome_iff_exists.2 ⟨e, he⟩

/-- A text that is set moves nothing but what was below its element. -/
theorem stays_setText (wf : t.WellFormed) (wfu : u.WellFormed) {text : String}
    (h : t.setText x text = .ok u) :
    (NodeRef.element x).Stays t u ∧ ∀ m : NodeRef, m.In u → m.Stays u t := by
  obtain ⟨_, others⟩ := text_setText wf h
  have elements := element?_setText h
  refine ⟨⟨?_, ?_⟩, fun m hm => ⟨?_, ?_⟩⟩
  · intro p y hyx hp
    have hpx : p ≠ x := by
      rintro rfl
      exact wf.above_irrefl p (above_iff_child.2 ⟨y, hp, hyx⟩)
    rw [Parent, ← wfu.mem_children_iff, others p hpx, wf.mem_children_iff]
    exact hp
  · intro y e _ he
    exact ⟨e, (elements y).trans he, rfl, fun _ _ => rfl⟩
  · intro p y hym hp
    have helement := isElement_of_atOrAbove wfu (isElement_of_in hm) hym hp
    have hc := (wfu.mem_children_iff p y).2 hp
    have hpx : p ≠ x := by
      rintro rfl
      rw [isElement_of_setText h hc] at helement
      cases helement
    rw [others p hpx] at hc
    exact (wf.mem_children_iff p y).1 hc
  · intro y e _ he
    exact ⟨e, (elements y).symm.trans he, rfl, fun _ _ => rfl⟩

/-- A change of an element that keeps its name moves nothing. -/
theorem stays_modifyElement {f : Element → Element} (name : ∀ e, (f e).name = e.name)
    {n : NodeRef} (attributes : ∀ index e, n = .attribute x index → t.element? x = some e →
      (f e).attributes.map Attribute.name = e.attributes.map Attribute.name) :
    n.Stays t (t.modifyElement x f) ∧ n.Stays (t.modifyElement x f) t := by
  have parents : ∀ p y, (t.modifyElement x f).Parent p y ↔ t.Parent p y := by
    intro p y
    rw [Parent, Parent, parent?_modifyElement]
  refine ⟨⟨fun p y _ hp => (parents p y).2 hp, ?_⟩, ⟨fun p y _ hp => (parents p y).1 hp, ?_⟩⟩
  · intro y e _ he
    rw [element?_modifyElement, he]
    split
    · next hy =>
      refine ⟨f e, rfl, name e, ?_⟩
      intro index hn
      exact attributes index e (hy ▸ hn) (hy ▸ he)
    · exact ⟨e, rfl, rfl, fun _ _ => rfl⟩
  · intro y e' _ he'
    rw [element?_modifyElement] at he'
    split at he'
    · next hy =>
      obtain ⟨e, he, rfl⟩ := Option.map_eq_some_iff.1 he'
      refine ⟨e, he, (name e).symm, ?_⟩
      intro index hn
      exact (attributes index e (hy ▸ hn) (hy ▸ he)).symm
    · exact ⟨e', he', rfl, fun _ _ => rfl⟩

end Tree

/-- An attribute that is there is given a value in its place. -/
theorem map_name_setValue {q : QName} {attributes : List Attribute}
    (h : ∃ a ∈ attributes, a.name.Matches q.localName q.namespaceUri) (value : String) :
    (setValue q value attributes).map Attribute.name = attributes.map Attribute.name := by
  induction attributes with
  | nil => simp at h
  | cons a rest ih =>
    rw [setValue]
    split
    · rfl
    · next ha =>
      obtain ⟨c, hc, names⟩ := h
      rcases List.mem_cons.1 hc with rfl | hc
      · exact absurd names ha
      · rw [List.map_cons, List.map_cons, ih ⟨c, hc, names⟩]

/-! ## Targets that are found again -/

namespace Session

open Edit

variable {s : Session} {target value attr : String} {d : Draft} {v : String}

/-- The path under the key has no predicates. -/
def Plain (s : Session) (key : String) : Prop :=
  ∀ p, s.registry.path? key = some p → ∀ inner equals, .predicate inner equals ∉ p.path.steps

/-- The operation has a goal that does not depend on what is found on the way to it. -/
def Settling (s : Session) : Operation → Prop
  | .set target _ => s.Plain target
  | .ensureAttr target _ _ => s.Plain target
  | .ensurePath _ _ _ _ => True
  | .ensurePart _ _ => True
  | .insert _ _ _ _ => False
  | .remove _ => False

/-- The only node that is selected is so again, if nothing else has come to where nodes of its sort
are found. -/
theorem selectOne_of_stays (sound : s.registry.Sound) (wf : t.WellFormed) (wfu : u.WellFormed)
    (plain : s.Plain target) (h : s.selectOne t target = .ok n) (stays : n.Stays t u)
    (back : ∀ m : NodeRef, m.In u → (∀ x, n = .element x → ∃ y, m = .element y) → m.Stays u t) :
    s.selectOne u target = .ok n := by
  rw [selectOne_eq_ok_iff] at h ⊢
  obtain ⟨p, b, ⟨hp, _⟩, formed, reads⟩ := select_reads sound h
  have plain := plain p hp
  obtain ⟨_, mem⟩ := (reads t wf).2 _ h
  obtain ⟨⟨found, hfound⟩, spec⟩ := reads u wfu
  obtain ⟨ordered, mem'⟩ := spec found hfound
  have leads := (mem n).1 List.mem_cons_self
  have hn : n ∈ found := (mem' n).2 (Selection.leads_of_stays plain stays leads)
  have only : ∀ m ∈ found, m = n := by
    intro m hm
    have hmu := (mem' m).1 hm
    refine List.mem_singleton.1 ((mem m).2 (Selection.leads_of_stays plain ?_ hmu))
    refine back m (Selection.in_of_leads_document wfu formed hmu) ?_
    rintro x rfl
    exact Selection.isElement_of_leads_element formed leads hmu
  rw [hfound]
  match found, hn, only, ordered.nodup with
  | [m], _, only, _ => rw [only m List.mem_cons_self]
  | m :: k :: rest, _, only, nodup =>
    have hmk : m = k := (only m List.mem_cons_self).trans
      (only k (List.mem_cons_of_mem m List.mem_cons_self)).symm
    rw [hmk] at nodup
    exact absurd List.mem_cons_self (List.nodup_cons.1 nodup).1

/-- What was assigned to a selected node is there afterwards. -/
theorem stringValue_assign (wf : t.WellFormed)
    (first : ∀ x index, n = .attribute x index →
      ∃ name e, t.element? x = some e ∧ Selection.IsFirst e name index)
    (h : assign t n v = .ok u) : u.stringValue n = v := by
  cases n with
  | element x => exact (Tree.text_setText wf h).1
  | «attribute» x index =>
    obtain ⟨name, e, he, first⟩ := first x index rfl
    simp only [assign] at h
    split at h
    · next a ha =>
      rw [Tree.attributeAt?, he, Option.bind_some] at ha
      have hu : u.element? x = some { e with attributes := setValue a.name v e.attributes } := by
        rw [Tree.eq_of_setAttribute h, Tree.element?_modifyElement, if_pos rfl, he]
        rfl
      have names := map_name_setValue
        ⟨a, List.mem_of_getElem? ha, QName.matches_self a.name⟩ v
      have first' := first.of_names (f := { e with attributes := setValue a.name v e.attributes })
        names
      obtain ⟨c, hc, _⟩ := first'.1
      have hname : c.name = a.name := by
        have hmap := congrArg (fun names => names[index]?) names
        simp only [List.getElem?_map, hc, ha, Option.map_some] at hmap
        exact Option.some.inj hmap
      have found := first'.attribute? hc
      have written := Tree.value_setValue a.name v e.attributes
      rw [hname] at found
      rw [Element.attribute?] at found
      rw [found] at written
      rw [Tree.stringValue, Tree.attributeAt?, hu, Option.bind_some, hc]
      exact Option.some.inj written
    · cases h

/-- What is assigned to a node moves neither the node nor what else a path can select. -/
theorem stays_assign (wf : t.WellFormed) (h : assign t n v = .ok u) :
    n.Stays t u ∧ ∀ m : NodeRef, m.In u → m.Stays u t := by
  cases n with
  | element x =>
    exact Tree.stays_setText wf (wellFormed_of_assign (n := .element x) wf h) h
  | «attribute» x index =>
    simp only [assign] at h
    split at h
    · next a ha =>
      obtain ⟨e, he, hindex⟩ := Option.bind_eq_some_iff.1 ha
      have names : ∀ e', t.element? x = some e' →
          (setValue a.name v e'.attributes).map Attribute.name =
            e'.attributes.map Attribute.name := by
        intro e' he'
        cases he.symm.trans he'
        exact map_name_setValue ⟨a, List.mem_of_getElem? hindex, QName.matches_self a.name⟩ v
      rw [Tree.eq_of_setAttribute h]
      have stays := fun m : NodeRef => Tree.stays_modifyElement (t := t) (x := x) (n := m)
        (f := fun e => { e with attributes := setValue a.name v e.attributes }) (fun _ => rfl)
        fun _ e' _ he' => names e' he'
      exact ⟨(stays _).1, fun m _ => (stays m).2⟩
    · cases h

/-- On the draft there is nothing left to do for the action. -/
def Idle (action : Edit OperationResult) (d : Draft) : Prop :=
  Ends action d (fun result d' => result = .alreadyApplied ∧ d' = d) fun _ _ => False

section Settle

variable (sound : s.registry.Sound) (wf : d.tree.WellFormed)
include sound wf

theorem set_settles (plain : s.Plain target) (value : String) :
    Ends (s.set target value) d
      (fun result d' => result = .applied → Idle (s.set target value) d') fun _ _ => True := by
  rw [ends_set]
  refine ⟨?_, fun _ _ => trivial⟩
  intro n hn
  refine ⟨?_, fun _ _ => trivial⟩
  intro v hv
  refine ⟨by rintro _ ⟨⟩, ?_⟩
  intro _
  rw [ends_change]
  refine ⟨?_, fun _ _ => trivial⟩
  intro u hu _
  obtain ⟨stays, back⟩ := stays_assign wf hu
  have again : s.selectOne u target = .ok n :=
    selectOne_of_stays sound wf (wellFormed_of_assign wf hu) plain hn stays
      fun m hm _ => back m hm
  have written : u.stringValue n = v :=
    stringValue_assign wf (selected_of_selectOne sound wf hn).2 hu
  rw [Idle, ends_set, again]
  refine ⟨?_, by rintro _ ⟨⟩⟩
  rintro _ ⟨⟩
  rw [hv]
  refine ⟨?_, by rintro _ ⟨⟩⟩
  rintro _ ⟨⟩
  exact ⟨fun _ => ⟨rfl, rfl⟩, fun hne => absurd written hne⟩

theorem ensureAttr_settles (plain : s.Plain target) (attr value : String) :
    Ends (s.ensureAttr target attr value) d
      (fun result d' => result = .applied → Idle (s.ensureAttr target attr value) d')
      fun _ _ => True := by
  rw [ends_ensureAttr]
  refine ⟨?_, fun _ _ => trivial⟩
  intro x hx
  refine ⟨?_, fun _ => trivial⟩
  intro q hq
  refine ⟨?_, fun _ _ => trivial⟩
  intro v hv
  refine ⟨by rintro _ ⟨⟩, ?_⟩
  intro _
  rw [ends_change]
  refine ⟨?_, fun _ _ => trivial⟩
  intro u hu _
  obtain ⟨helement, _⟩ := element_of_selectElement sound wf hx
  obtain ⟨e, he⟩ := Option.isSome_iff_exists.1 helement
  rw [Tree.eq_of_setAttribute hu]
  -- an attribute may be added, but the path does not end in one
  have stays : ∀ y, _ := fun y => Tree.stays_modifyElement (t := d.tree) (x := x)
    (n := .element y) (f := fun e => { e with attributes := setValue q v e.attributes })
    (fun _ => rfl) (by rintro _ _ ⟨⟩)
  have again : s.selectElement (d.tree.modifyElement x fun e =>
      { e with attributes := setValue q v e.attributes }) target = .ok x := by
    rw [selectElement_eq_ok_iff] at hx ⊢
    refine selectOne_of_stays sound wf (wf.modifyElement x _) plain hx (stays x).1 ?_
    intro m _ element
    obtain ⟨y, rfl⟩ := element x rfl
    exact (stays y).2
  rw [Idle, ends_ensureAttr, again]
  refine ⟨?_, by rintro _ ⟨⟩⟩
  rintro _ ⟨⟩
  rw [hq]
  refine ⟨?_, by rintro ⟨⟩⟩
  rintro _ ⟨⟩
  rw [hv]
  refine ⟨?_, by rintro _ ⟨⟩⟩
  rintro _ ⟨⟩
  refine ⟨fun _ => ⟨rfl, rfl⟩, fun hne => absurd ?_ hne⟩
  rw [Tree.element?_modifyElement, if_pos rfl, he]
  exact Tree.value_setValue q v e.attributes

omit sound wf in
theorem ensurePath_settles (target anchor fragment : String) (placement : Placement) :
    Ends (s.ensurePath target anchor fragment placement) d
      (fun result d' => result = .applied → Idle (s.ensurePath target anchor fragment placement) d')
      fun _ _ => True := by
  rw [ends_ensurePath]
  refine ⟨?_, fun _ _ => trivial⟩
  intro nodes _
  refine ⟨by rintro _ ⟨⟩, fun _ => ⟨?_, fun _ _ => trivial⟩⟩
  intro a _
  rw [ends_instantiate]
  refine ⟨?_, fun _ _ => trivial⟩
  intro f _
  refine ⟨?_, fun _ _ _ => trivial⟩
  intro made ids _
  rw [ends_change]
  refine ⟨?_, fun _ _ => trivial⟩
  intro u _
  refine ⟨fun reached hreached => ⟨fun _ => trivial, fun hne _ => ?_⟩, fun _ _ => trivial⟩
  rw [Idle, ends_ensurePath, hreached]
  refine ⟨?_, by rintro _ ⟨⟩⟩
  rintro _ ⟨⟩
  exact ⟨fun _ => ⟨rfl, rfl⟩, fun hnil => absurd hnil hne⟩

/-- An edit with a goal is applied once. -/
theorem action_settles {operation : Operation} (settling : s.Settling operation)
    {action : Edit OperationResult} (h : s.action? operation = some action) :
    Ends action d (fun result d' => result = .applied → Idle action d') fun _ _ => True := by
  cases operation with
  | set target value =>
    rw [← Option.some.inj h]
    exact set_settles sound wf settling value
  | insert target anchor payload placement => exact settling.elim
  | remove target => exact settling.elim
  | ensurePath target anchor fragment placement =>
    rw [← Option.some.inj h]
    exact ensurePath_settles target anchor fragment placement
  | ensurePart part fragment => cases h
  | ensureAttr target attr value =>
    rw [← Option.some.inj h]
    exact ensureAttr_settles sound wf settling attr value

end Settle

/-! ## Operations that are carried out again -/

variable {w left : Workspace MemoryPackage} {operation : Operation} {result : OperationResult}

/-- A part that was created is there. -/
theorem ensurePart_again {package after : MemoryPackage} {part fragment : String}
    (h : s.ensurePart package part fragment = (.ok .applied, after)) :
    s.ensurePart after part fragment = (.ok .alreadyApplied, after) := by
  obtain ⟨spec, hspec, _, hpart⟩ := (ensurePart_reports h).2 rfl
  have hpart : Package.hasPart after spec.name = true := hpart
  simp only [ensurePart, hspec, if_pos hpart]

theorem execute_again (sound : s.registry.Sound) (wf : w.tree.WellFormed)
    (settling : s.Settling operation) (carried : Carried result)
    (h : s.execute w operation = (.ok result, left)) :
    s.execute left operation = (.ok .alreadyApplied, left) := by
  rcases carried with rfl | rfl
  · cases ha : s.action? operation with
    | none =>
      obtain ⟨part, fragment, rfl⟩ := ensurePart_of_action? ha
      obtain ⟨hpart, _, _⟩ := execute_ensurePart h
      simp only [execute, ensurePart_again hpart]
    | some action =>
      rw [execute_eq_edit ha] at h
      have wfd : (Draft.mk w.tree w.ids).tree.WellFormed := wf
      have idle := (edit_ends (action_settles sound wfd settling ha) h).1 .applied rfl rfl
      exact execute_of_ends ha idle
  · cases eq_of_execute_alreadyApplied h
    exact h

/-- An operation with a goal, once it was applied or found to be applied already, is found to be
applied already from then on and changes nothing, also after the tree was compacted. -/
theorem settles_at_once {document : Registry.Document}
    (compiled : Registry.compile document = .ok s.registry) (wf : w.tree.WellFormed)
    (settling : s.Settling operation) (carried : Carried result) {index : Nat} {optional : Bool}
    (h : s.applyOperation w index ⟨operation, optional⟩ = (.ok result, left)) :
    ∀ index optional,
      s.applyOperation left index ⟨operation, optional⟩ = (.ok .alreadyApplied, left) ∧
      s.applyOperation (compacted left) index ⟨operation, optional⟩ =
        (.ok .alreadyApplied, compacted left) := by
  have sound := Registry.sound_of_compile compiled
  have hexecute := (applyOperation_carried_iff carried).1 h
  have again := execute_again sound wf settling carried hexecute
  have wf' := wellFormed_of_execute sound wf hexecute
  intro index optional
  have direct : s.applyOperation left index ⟨operation, optional⟩ =
      (.ok .alreadyApplied, left) := (applyOperation_carried_iff (Or.inr rfl)).2 again
  refine ⟨direct, ?_⟩
  obtain ⟨hsame, _⟩ := applyOperation_mirrors sound (workspaces_compacted .full wf') index
    ⟨operation, optional⟩
  rw [direct] at hsame
  have compact : s.applyOperation (compacted left) index ⟨operation, optional⟩ =
      (.ok .alreadyApplied, (s.applyOperation (compacted left) index ⟨operation, optional⟩).2) :=
    Prod.ext hsame.symm rfl
  have unchanged := eq_of_execute_alreadyApplied
    ((applyOperation_carried_iff (Or.inr rfl)).1 compact)
  rw [compact, unchanged]

def goalsDocument : Registry.Document where
  metadata := ⟨"", none, none⟩
  namespaces := .empty
  elements := .ofList [("list", .short "list"), ("item", .short "item"), ("gap", .short "gap")]
  attributes := .ofList [("id", .short "id")]
  identifiers := .empty
  values := .empty
  paths := .ofList [("list", "//list"), ("gap", "/list/gap"), ("id", "//item/@id")]
  fragments := .ofList [("gap", .node "gap" .empty none [])]
  parts := .ofList [("gaps", ⟨"/gaps.xml", "text/xml", none⟩)]

def goals : Session where
  registry := goalsDocument.resolved
  tokens := fun _ => none
  allOptional := false

theorem compile_goals : Registry.compile goalsDocument = .ok goals.registry := by
  rw [Registry.compile_eq_ok_iff]
  refine ⟨?_, rfl⟩
  cbv

theorem plain_goals {key : String} {steps : List Step}
    (h : (goals.registry.path? key).map (fun p => p.path.steps) = some steps)
    (element : ∀ step ∈ steps, ∀ inner equals, step ≠ .predicate inner equals) :
    goals.Plain key := by
  intro p hp inner equals hmem
  rw [hp] at h
  cases h
  exact element _ hmem inner equals rfl

/-- The text of the list takes the place of its item; the other operations add something. -/
def goalOperations : List Operation :=
  [.set "list" "text", .set "id" "2", .ensureAttr "list" "id" "3",
    .ensurePath "gap" "list" "gap" .append, .ensurePart "gaps" "gap"]

theorem settling_goals : ∀ operation ∈ goalOperations, goals.Settling operation := by
  have listSteps : (goals.registry.path? "list").map (fun p => p.path.steps) =
      some [.element .descendant (.named "list")] := by cbv
  have idSteps : (goals.registry.path? "id").map (fun p => p.path.steps) =
      some [.element .descendant (.named "item"), .attribute "id"] := by cbv
  have list : goals.Plain "list" := plain_goals listSteps (by simp)
  have id : goals.Plain "id" := plain_goals idSteps (by simp)
  simp only [goalOperations, List.forall_mem_cons]
  exact ⟨list, id, list, trivial, trivial, by simp⟩

theorem applied_goals : ∀ operation ∈ goalOperations,
    (goals.applyOperation oneItem 0 ⟨operation, false⟩).1 = .ok .applied := by
  simp only [goalOperations, List.forall_mem_cons]
  refine ⟨?_, ?_, ?_, ?_, ?_, by simp⟩
  all_goals cbv

theorem settles_at_once_goals :
    (∀ operation ∈ goalOperations,
      (goals.applyOperation oneItem 0 ⟨operation, false⟩).1 = .ok .applied) ∧
    ∀ operation ∈ goalOperations, ∀ left,
      (goals.applyOperation oneItem 0 ⟨operation, false⟩).2 = left →
        goals.applyOperation left 1 ⟨operation, false⟩ = (.ok .alreadyApplied, left) ∧
        goals.applyOperation (compacted left) 1 ⟨operation, false⟩ =
          (.ok .alreadyApplied, compacted left) := by
  refine ⟨applied_goals, ?_⟩
  intro operation hmem left hleft
  have first : goals.applyOperation oneItem 0 ⟨operation, false⟩ = (.ok .applied, left) :=
    Prod.ext (applied_goals operation hmem) hleft
  exact settles_at_once compile_goals (Xml.wellFormed_of_read read_oneItem)
    (settling_goals operation hmem) (Or.inl rfl) first 1 false

end Session

end PartPatch
