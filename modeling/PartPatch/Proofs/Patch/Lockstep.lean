import PartPatch.Proofs.Patch.Mirror
import PartPatch.Proofs.Patch.Reach

/-!
# Operations in lockstep

An operation carried out in two workspaces whose trees mirror one another has the same result in
both, or fails for the same reason, and leaves trees that mirror one another. `Twins` is the relation
between two edits; it has one rule for each way in which edits are built.
-/

namespace PartPatch

set_option autoImplicit false

namespace Edit

/-- On the two drafts both actions give results, of which `done` holds, or both fail for the same
reason. -/
def Twins {α β : Type} (a : Edit α) (b : Edit β) (d d' : Draft)
    (done : α → Draft → β → Draft → Prop) : Prop :=
  match a.run.run d, b.run.run d' with
  | (.ok x, d), (.ok y, d') => done x d y d'
  | (.error e, _), (.error e', _) => e = e'
  | _, _ => False

variable {α β γ δ : Type} {a : Edit α} {b : Edit β} {d d' : Draft}
  {done : α → Draft → β → Draft → Prop}

theorem twins_pure {x : α} {y : β} (h : done x d y d') : Twins (pure x) (pure y) d d' done := h

theorem twins_throw (e : OperationError) :
    Twins (throw e : Edit α) (throw e : Edit β) d d' done := rfl

theorem Twins.bind {done' : γ → Draft → δ → Draft → Prop} {f : α → Edit γ} {g : β → Edit δ}
    (h : Twins a b d d' done)
    (next : ∀ x d y d', done x d y d' → Twins (f x) (g y) d d' done') :
    Twins (a >>= f) (b >>= g) d d' done' := by
  unfold Twins at h ⊢
  simp only [ExceptT.run_bind, StateT.run_bind]
  rcases ha : a.run.run d with ⟨e | x, d₁⟩
  · rcases hb : b.run.run d' with ⟨e' | y, d₁'⟩
    · rw [ha, hb] at h
      exact h
    · rw [ha, hb] at h
      exact h.elim
  · rcases hb : b.run.run d' with ⟨e' | y, d₁'⟩
    · rw [ha, hb] at h
      exact h.elim
    · rw [ha, hb] at h
      exact next x d₁ y d₁' h

theorem twins_get {f : Draft → Edit α} {g : Draft → Edit β} (h : Twins (f d) (g d') d d' done) :
    Twins (get >>= f) (get >>= g) d d' done := h

theorem twins_modify {f g : Draft → Draft} {next : Unit → Edit α} {next' : Unit → Edit β}
    (h : Twins (next ()) (next' ()) (f d) (g d') done) :
    Twins (modify f >>= next) (modify g >>= next') d d' done := h

theorem twins_lift {R : γ → δ → Prop} {x : Except OperationError γ} {y : Except OperationError δ}
    (h : Agree R x y) {f : γ → Edit α} {g : δ → Edit β}
    (next : ∀ k l, x = .ok k → y = .ok l → R k l → Twins (f k) (g l) d d' done) :
    Twins (liftM x >>= f) (liftM y >>= g) d d' done := by
  cases x with
  | error e =>
    cases y with
    | error e' => exact h
    | ok l => exact h.elim
  | ok k =>
    cases y with
    | error e' => exact h.elim
    | ok l => exact next k l rfl rfl h

theorem twins_ite {c c' : Prop} [Decidable c] [Decidable c'] {a' : Edit α} {b' : Edit β}
    (hc : c ↔ c') (h : c → Twins a b d d' done) (h' : ¬ c → Twins a' b' d d' done) :
    Twins (if c then a else a') (if c' then b else b') d d' done := by
  by_cases hholds : c
  · rw [if_pos hholds, if_pos (hc.1 hholds)]
    exact h hholds
  · rw [if_neg hholds, if_neg (fun hc' => hholds (hc.2 hc'))]
    exact h' hholds

end Edit

open Edit

/-- The trees mirror one another and the allocators are equal. -/
def Draft.Mirrors (v : View) (d d' : Draft) : Prop :=
  (∃ twin, d.tree.Mirrors v twin d'.tree) ∧ d.ids = d'.ids

variable {v : View} {twin : NodeId → NodeId → Prop} {t t' u : Tree} {d d' : Draft}

namespace Fragment

/-- An instance is made in both trees. -/
theorem instantiate_mirrors (m : t.Mirrors v twin u) (f : Fragment) (tokens : Token.Resolver)
    (a : Allocator) (r : Registry) :
    (f.instantiate tokens t a r).2 = (f.instantiate tokens u a r).2 ∧
      Agree (fun made made' => ∃ twin', (∀ x y, twin x y → twin' x y) ∧
          made.tree.Mirrors v twin' made'.tree ∧ twin' made.root made'.root)
        (f.instantiate tokens t a r).1 (f.instantiate tokens u a r).1 := by
  rw [instantiate, instantiate, ← values_mirrors m]
  rcases f.values tokens t a r with ⟨e | values, a'⟩
  · exact ⟨rfl, rfl⟩
  · obtain ⟨t', x, u', y, twin', ht, hu, more, m', hxy⟩ := Tree.Mirrors.plant (f.root.render values) m
    simp only [ht, hu]
    exact ⟨trivial, twin', more, m', hxy⟩

end Fragment

namespace Session

/-- Both edits give the same result and keep the trees mirrors of one another. -/
def Same (v : View) (result : OperationResult) (d : Draft) (result' : OperationResult)
    (d' : Draft) : Prop :=
  result = result' ∧ Draft.Mirrors v d d'

/-- New nodes have been added in both trees that are not attached yet. -/
structure Prepared (v : View) (twin : NodeId → NodeId → Prop) (t : Tree) (x : NodeId) (d : Draft)
    (y : NodeId) (d' : Draft) : Prop where
  ids : d.ids = d'.ids
  planted : t.Planted d.tree x
  mirrors : ∃ twin', (∀ a b, twin a b → twin' a b) ∧ d.tree.Mirrors v twin' d'.tree ∧ twin' x y

theorem twins_change {α β : Type} {R : Tree → Tree → Prop} {f g : Tree → Except TreeError Tree}
    (h : Agree R (f d.tree) (g d'.tree)) {next : Unit → Edit α} {next' : Unit → Edit β}
    {done : α → Draft → β → Draft → Prop}
    (hnext : ∀ t u, R t u →
      Twins (next ()) (next' ()) { d with tree := t } { d' with tree := u } done) :
    Twins (change f >>= next) (change g >>= next') d d' done := by
  have hchange : Twins (change f) (change g) d d' fun _ e _ e' =>
      ∃ t u, R t u ∧ e = { d with tree := t } ∧ e' = { d' with tree := u } := by
    rw [change, change]
    refine twins_get (twins_lift (h.mapError _) ?_)
    intro t u _ _ hR
    exact ⟨t, u, hR, rfl, rfl⟩
  refine hchange.bind ?_
  rintro _ _ _ _ ⟨t, u, hR, rfl, rfl⟩
  exact hnext t u hR

/-! ## Changes at selected nodes -/

theorem assign_mirrors (m : t.Mirrors v twin u) {r r' : NodeRef} (h : NodeRef.Twin twin r r')
    (present : r.In t) (value : String) :
    Agree (Tree.MirrorsBeyond v twin) (assign t r value) (assign u r' value) := by
  cases h with
  | element h => exact m.setText h present value
  | @«attribute» x y h index =>
    have hat := m.map_attributeAt? h index
    obtain ⟨a, ha⟩ := Option.isSome_iff_exists.1 present
    rw [ha] at hat
    obtain ⟨b, hb, hba⟩ := Option.map_eq_some_iff.1 hat.symm
    have hx : t.isElement x = true := by
      rw [Tree.attributeAt?, Option.bind_eq_some_iff] at ha
      obtain ⟨e, he, _⟩ := ha
      rw [Tree.isElement, he]
      rfl
    have hname : v.name a.name = v.name b.name := (congrArg Attribute.name hba).symm
    simp only [assign, ha, hb]
    exact (m.setAttribute h hx hname value).mono fun _ _ m' => m'.beyond

theorem removeNode_mirrors (m : t.Mirrors v twin u) {r r' : NodeRef}
    (h : NodeRef.Twin twin r r') : (removeNode t r).Mirrors v twin (removeNode u r') := by
  cases h with
  | element h => exact m.detach h
  | @«attribute» x y h index =>
    have hat := m.map_attributeAt? h index
    simp only [removeNode]
    cases ha : t.attributeAt? x index with
    | none =>
      rw [ha] at hat
      rw [Option.map_eq_none_iff.1 hat.symm]
      exact m
    | some a =>
      rw [ha] at hat
      obtain ⟨b, hb, hba⟩ := Option.map_eq_some_iff.1 hat.symm
      have hname : v.name a.name = v.name b.name := (congrArg Attribute.name hba).symm
      obtain ⟨hlocal, huri⟩ := View.meaning_eq hname
      rw [hb]
      simp only [← hlocal, ← huri]
      exact m.removeAttribute h a.name.localName a.name.namespaceUri

theorem removeNodes_mirrors (m : t.Mirrors v twin u) {nodes nodes' : List NodeRef}
    (h : List.Forall₂ (NodeRef.Twin twin) nodes nodes') :
    (nodes.foldl removeNode t).Mirrors v twin (nodes'.foldl removeNode u) := by
  induction h generalizing t u with
  | nil => exact m
  | cons hr _ ih => exact ih (removeNode_mirrors m hr)

theorem place_mirrors (wf : t'.WellFormed) {anchor anchor' node node' : NodeId}
    (planted : t'.Planted t node) (helement : t'.isElement anchor = true)
    (hattached : t'.Attached anchor) (m : t.Mirrors v twin u) (ha : twin anchor anchor')
    (hn : twin node node') (placement : Placement) :
    Agree (Tree.Mirrors v twin) (place t anchor node placement)
      (place u anchor' node' placement) := by
  have below := planted.fits wf (Or.inr helement)
  obtain ⟨p, hp⟩ : ∃ p, t'.Parent p anchor := by
    obtain ⟨p, _, hp⟩ := Tree.above_iff.1 (wf.above_of_attached hattached helement)
    exact ⟨p, hp⟩
  have beside := planted.fits wf (wf.holder p anchor ((wf.mem_children_iff p anchor).2 hp))
  have hpt : t.Parent p anchor :=
    (planted.extends_.parents anchor (Tree.lt_size_of_parent? hp)).trans hp
  cases placement with
  | before => exact m.insertBefore hpt ha beside hn
  | after => exact m.insertAfter hpt ha beside hn
  | prepend => exact m.insertAt below ha hn 0
  | append => exact m.appendChild below ha hn

/-! ## The edits -/

section Edits

variable {s : Session} (sound : s.registry.Sound) (m : d.tree.Mirrors v twin d'.tree)
  (ids : d.ids = d'.ids)

include m ids

theorem instantiate_twins (key : String) :
    Twins (s.instantiate key) (s.instantiate key) d d' (Prepared v twin d.tree) := by
  rw [instantiate]
  refine twins_lift Agree.of_eq ?_
  rintro f _ _ _ rfl
  refine twins_get ?_
  obtain ⟨hids, hmade⟩ := Fragment.instantiate_mirrors m f s.tokens d.ids s.registry
  rw [← ids]
  rcases Fragment.instantiate_cases m.wellFormed f s.tokens d.ids s.registry with
    ⟨made, hm, planted, _⟩ | ⟨e, he, _⟩
  · rcases h : f.instantiate s.tokens d.tree d.ids s.registry with ⟨made₁, ids₁⟩
    rcases h' : f.instantiate s.tokens d'.tree d.ids s.registry with ⟨made₂, ids₂⟩
    rw [h, h'] at hids hmade
    rw [h] at hm
    refine twins_modify (twins_lift (hmade.mapError _) ?_)
    intro made made' hk _ hmirrors
    refine twins_modify (twins_pure ⟨hids, ?_, hmirrors⟩)
    cases (mapError_eq_ok_iff.1 hk).symm.trans hm
    exact planted
  · rcases h : f.instantiate s.tokens d.tree d.ids s.registry with ⟨made₁, ids₁⟩
    rcases h' : f.instantiate s.tokens d'.tree d.ids s.registry with ⟨made₂, ids₂⟩
    rw [h, h'] at hids hmade
    rw [h] at he
    refine twins_modify (twins_lift (hmade.mapError _) ?_)
    intro made made' hk _ _
    cases (mapError_eq_ok_iff.1 hk).symm.trans he

theorem prepare_twins (payload : Payload) :
    Twins (s.prepare payload) (s.prepare payload) d d' (Prepared v twin d.tree) := by
  cases payload with
  | fragment key => exact instantiate_twins m ids key
  | text value =>
    refine twins_lift Agree.of_eq ?_
    rintro value _ _ _ rfl
    have hne : NodeKind.text value ≠ .document := by simp
    exact twins_get (twins_modify (twins_pure ⟨ids, Tree.planted_push m.wellFormed hne,
      _, fun _ _ h => Or.inl h, m.push hne hne rfl, Or.inr ⟨rfl, rfl⟩⟩))

include sound

theorem set_twins (target value : String) :
    Twins (s.set target value) (s.set target value) d d' (Same v) := by
  rw [set]
  refine twins_get (twins_lift (selectOne_mirrors m s target) ?_)
  intro r r' hr _ hrr
  refine twins_lift Agree.of_eq ?_
  rintro value _ _ _ rfl
  refine twins_get (twins_ite (by rw [m.stringValue hrr]) ?_ ?_)
  · intro _
    exact twins_pure ⟨rfl, ⟨_, m⟩, ids⟩
  · intro _
    have present := in_of_selectOne sound m.wellFormed hr
    refine twins_change (assign_mirrors m hrr present value) ?_
    rintro t u ⟨twin', _, m'⟩
    exact twins_pure ⟨rfl, ⟨twin', m'⟩, ids⟩

omit ids in
/-- A new node is placed and then something more is done. -/
theorem place_twins {anchor : String} {a a' : NodeId} (ha : s.selectElement d.tree anchor = .ok a)
    (haa : twin a a') {e e' : Draft} {node node' : NodeId}
    (prepared : Prepared v twin d.tree node e node' e') (placement : Placement)
    {next next' : Unit → Edit OperationResult}
    (hnext : ∀ (twin' : NodeId → NodeId → Prop) (t u : Tree), t.Mirrors v twin' u →
      twin' node node' → Twins (next ()) (next' ()) { e with tree := t } { e' with tree := u }
        (Same v)) :
    Twins (change (fun t => place t a node placement) >>= next)
      (change (fun t => place t a' node' placement) >>= next') e e' (Same v) := by
  obtain ⟨helement, hattached⟩ := element_of_selectElement sound m.wellFormed ha
  obtain ⟨twin', more, m', hnode⟩ := prepared.mirrors
  refine twins_change (place_mirrors m.wellFormed prepared.planted helement hattached m'
    (more _ _ haa) hnode placement) ?_
  intro t u m''
  exact hnext twin' t u m'' hnode

theorem insert_twins (target anchor : String) (payload : Payload) (placement : Placement) :
    Twins (s.insert target anchor payload placement) (s.insert target anchor payload placement)
      d d' (Same v) := by
  rw [insert]
  refine twins_get (twins_lift (select_mirrors m s target) ?_)
  intro nodes nodes' _ _ hnodes
  refine twins_ite (by rw [isEmpty_eq_of_forall₂ hnodes]) ?_ ?_
  · intro _
    exact twins_pure ⟨rfl, ⟨_, m⟩, ids⟩
  · intro _
    refine twins_get (twins_lift (selectElement_mirrors m s anchor) ?_)
    intro a a' ha _ haa
    refine (prepare_twins m ids payload).bind ?_
    intro node e node' e' prepared
    refine place_twins sound m ha haa prepared placement ?_
    intro twin' t u m' _
    exact twins_pure ⟨rfl, ⟨twin', m'⟩, prepared.ids⟩

omit sound in
theorem remove_twins (target : String) :
    Twins (s.remove target) (s.remove target) d d' (Same v) := by
  rw [remove]
  refine twins_get (twins_lift (select_mirrors m s target) ?_)
  intro nodes nodes' _ _ hnodes
  refine twins_ite (by rw [isEmpty_eq_of_forall₂ hnodes]) ?_ ?_
  · intro _
    exact twins_pure ⟨rfl, ⟨_, m⟩, ids⟩
  · intro _
    exact twins_modify (twins_pure ⟨rfl, ⟨_, removeNodes_mirrors m hnodes⟩, ids⟩)

theorem ensurePath_twins (target anchor fragment : String) (placement : Placement) :
    Twins (s.ensurePath target anchor fragment placement)
      (s.ensurePath target anchor fragment placement) d d' (Same v) := by
  rw [ensurePath]
  refine twins_get (twins_lift (select_mirrors m s target) ?_)
  intro nodes nodes' _ _ hnodes
  refine twins_ite (by rw [isEmpty_eq_of_forall₂ hnodes]) ?_ ?_
  · intro _
    exact twins_pure ⟨rfl, ⟨_, m⟩, ids⟩
  · intro _
    refine twins_get (twins_lift (selectElement_mirrors m s anchor) ?_)
    intro a a' ha _ haa
    refine (instantiate_twins m ids fragment).bind ?_
    intro node e node' e' prepared
    refine place_twins sound m ha haa prepared placement ?_
    intro twin' t u m' _
    refine twins_get (twins_lift (select_mirrors m' s target) ?_)
    intro reached reached' _ _ hreached
    refine twins_ite (by rw [isEmpty_eq_of_forall₂ hreached]) ?_ ?_
    · intro _
      exact twins_modify (twins_throw _)
    · intro _
      exact twins_pure ⟨rfl, ⟨twin', m'⟩, prepared.ids⟩

theorem ensureAttr_twins (target attr value : String) :
    Twins (s.ensureAttr target attr value) (s.ensureAttr target attr value) d d' (Same v) := by
  rw [ensureAttr]
  refine twins_get (twins_lift (selectElement_mirrors m s target) ?_)
  intro x y hx _ hxy
  have helement := (element_of_selectElement sound m.wellFormed hx).1
  cases s.registry.attribute? attr with
  | none => exact twins_throw _
  | some name =>
    refine twins_lift Agree.of_eq ?_
    rintro value _ _ _ rfl
    refine twins_get (twins_ite (by rw [m.value_attribute? hxy]) ?_ ?_)
    · intro _
      exact twins_pure ⟨rfl, ⟨_, m⟩, ids⟩
    · intro _
      refine twins_change (m.setAttribute hxy helement rfl value) ?_
      intro t u m'
      exact twins_pure ⟨rfl, ⟨_, m'⟩, ids⟩

end Edits

/-! ## Whole operations and runs -/

/-- The trees mirror one another, and the rest is equal. -/
structure Workspaces (P : Type) (v : View) (w w' : Workspace P) : Prop where
  tree : ∃ twin, w.tree.Mirrors v twin w'.tree
  ids : w.ids = w'.ids
  package : w.package = w'.package

variable {P : Type} {s : Session} {w w' : Workspace P}

/-- Edits that are twins are twins as operations on workspaces. -/
theorem edit_twins {action : Edit OperationResult} (h : Workspaces P v w w')
    (twins : Twins action action ⟨w.tree, w.ids⟩ ⟨w'.tree, w'.ids⟩ (Same v)) :
    (edit w action).1 = (edit w' action).1 ∧
      (edit w action).2.package = (edit w' action).2.package ∧
      ∀ result, (edit w action).1 = .ok result →
        Workspaces P v (edit w action).2 (edit w' action).2 := by
  simp only [edit]
  unfold Twins at twins
  rcases ha : action.run.run ⟨w.tree, w.ids⟩ with ⟨e | result, d⟩
  · rcases ha' : action.run.run ⟨w'.tree, w'.ids⟩ with ⟨e' | result', d'⟩
    · rw [ha, ha'] at twins
      refine ⟨congrArg Except.error twins, h.package, ?_⟩
      rintro _ ⟨⟩
    · rw [ha, ha'] at twins
      exact twins.elim
  · rcases ha' : action.run.run ⟨w'.tree, w'.ids⟩ with ⟨e' | result', d'⟩
    · rw [ha, ha'] at twins
      exact twins.elim
    · rw [ha, ha'] at twins
      obtain ⟨hresult, htree, hids⟩ := twins
      exact ⟨congrArg Except.ok hresult, h.package, fun _ _ => ⟨htree, hids, h.package⟩⟩

theorem action_twins (sound : s.registry.Sound) (h : Workspaces P v w w') {operation : Operation}
    {action : Edit OperationResult} (ha : s.action? operation = some action) :
    Twins action action ⟨w.tree, w.ids⟩ ⟨w'.tree, w'.ids⟩ (Same v) := by
  obtain ⟨⟨twin, m⟩, ids, _⟩ := h
  have hd : (Draft.mk w.tree w.ids).tree.Mirrors v twin (Draft.mk w'.tree w'.ids).tree := m
  cases operation with
  | set target value =>
    rw [← Option.some.inj ha]
    exact set_twins sound hd ids target value
  | insert target anchor payload placement =>
    rw [← Option.some.inj ha]
    exact insert_twins sound hd ids target anchor payload placement
  | remove target =>
    rw [← Option.some.inj ha]
    exact remove_twins hd ids target
  | ensurePath target anchor fragment placement =>
    rw [← Option.some.inj ha]
    exact ensurePath_twins sound hd ids target anchor fragment placement
  | ensurePart part fragment => cases ha
  | ensureAttr target attr value =>
    rw [← Option.some.inj ha]
    exact ensureAttr_twins sound hd ids target attr value

variable [Package P]

theorem execute_mirrors (sound : s.registry.Sound) (h : Workspaces P v w w')
    (operation : Operation) :
    (s.execute w operation).1 = (s.execute w' operation).1 ∧
      (s.execute w operation).2.package = (s.execute w' operation).2.package ∧
      ∀ result, (s.execute w operation).1 = .ok result →
        Workspaces P v (s.execute w operation).2 (s.execute w' operation).2 := by
  cases ha : s.action? operation with
  | some action =>
    rw [execute_eq_edit ha, execute_eq_edit ha]
    exact edit_twins h (action_twins sound h ha)
  | none =>
    obtain ⟨part, fragment, rfl⟩ := ensurePart_of_action? ha
    simp only [execute, h.package]
    exact ⟨trivial, trivial, fun _ _ => ⟨h.tree, h.ids, rfl⟩⟩

theorem applyOperation_mirrors (sound : s.registry.Sound) (h : Workspaces P v w w') (index : Nat)
    (record : OperationRecord) :
    (s.applyOperation w index record).1 = (s.applyOperation w' index record).1 ∧
      Workspaces P v (s.applyOperation w index record).2 (s.applyOperation w' index record).2 := by
  obtain ⟨hresult, hpackage, hok⟩ := execute_mirrors sound h record.operation
  rcases hw : s.execute w record.operation with ⟨e | result, left⟩
  · rcases hw' : s.execute w' record.operation with ⟨e' | result', left'⟩
    · rw [hw, hw'] at hresult hpackage
      cases hresult
      obtain ⟨htree, hids⟩ := rollback_draft hw
      obtain ⟨htree', hids'⟩ := rollback_draft hw'
      have hroll : Workspaces P v (rollback record.operation.kind w left)
          (rollback record.operation.kind w' left') := by
        refine ⟨?_, ?_, hpackage⟩
        · rw [htree, htree']
          exact h.tree
        · rw [hids, hids', h.ids]
      simp only [applyOperation, hw, hw']
      split
      · exact ⟨rfl, hroll⟩
      · exact ⟨rfl, hroll⟩
    · rw [hw, hw'] at hresult
      cases hresult
  · rw [hw] at hresult hok
    rcases hw' : s.execute w' record.operation with ⟨e' | result', left'⟩
    · rw [hw'] at hresult
      cases hresult
    · rw [hw'] at hresult hok
      simp only [applyOperation, hw, hw']
      exact ⟨by rw [Except.ok.inj hresult], hok result rfl⟩

theorem run_mirrors (sound : s.registry.Sound) (h : Workspaces P v w w') (index : Nat)
    (records : List OperationRecord) :
    (s.run w index records).1 = (s.run w' index records).1 ∧
      Workspaces P v (s.run w index records).2 (s.run w' index records).2 := by
  induction records generalizing w w' index with
  | nil => exact ⟨rfl, h⟩
  | cons record records ih =>
    obtain ⟨hresult, hleft⟩ := applyOperation_mirrors sound h index record
    rcases ha : s.applyOperation w index record with ⟨error | result, left⟩
    · rcases ha' : s.applyOperation w' index record with ⟨error' | result', left'⟩
      · rw [ha, ha'] at hresult hleft
        rw [run_cons_error ha, run_cons_error ha']
        exact ⟨by rw [Except.error.inj hresult], hleft⟩
      · rw [ha, ha'] at hresult
        cases hresult
    · rcases ha' : s.applyOperation w' index record with ⟨error' | result', left'⟩
      · rw [ha, ha'] at hresult
        cases hresult
      · rw [ha, ha'] at hresult hleft
        obtain ⟨hrest, hend⟩ := ih hleft (index + 1)
        rw [run_cons_ok ha, run_cons_ok ha']
        exact ⟨by rw [hrest, Except.ok.inj hresult], hend⟩

end Session

end PartPatch
