import PartPatch.Proofs.Fragment.Identifiers
import PartPatch.Proofs.Patch.Reach

/-!
# Identifiers over a session

The counter of a namespace looks at the document once and then follows only what it gives out. So
identifiers given out differ from each other, but one may be in use already if an operation has put
it into the document after the counter had looked. That is the only way in which this happens.
-/

namespace PartPatch

set_option autoImplicit false

/-- Whether operations of this kind put values into the tree. -/
def Operation.writes : Operation → Bool
  | .set _ _ | .insert _ _ _ _ | .ensurePath _ _ _ _ | .ensureAttr _ _ _ => true
  | .remove _ | .ensurePart _ _ => false

namespace Tree

variable {t u : Tree} {x : NodeId} {e : Element}

theorem attached_mono (h : ∀ p c, u.Parent p c → t.Parent p c) (hx : u.Attached x) :
    t.Attached x := by
  induction hx with
  | refl => exact attached_document t
  | tail _ hpx ih => exact ih.tail (h _ _ hpx)

theorem holds_of_detach (h : (t.detach x).Holds e) : t.Holds e := by
  obtain ⟨y, hy, he⟩ := h
  refine ⟨y, attached_mono ?_ hy, ?_⟩
  · intro p c hpc
    rw [Parent, parent?_detach] at hpc
    split at hpc
    · cases hpc
    · exact hpc
  · rwa [element?_eq_some_iff, kind?_detach, ← element?_eq_some_iff] at he

theorem holds_of_modifyElement {g : Element → Element} (h : (t.modifyElement x g).Holds e) :
    t.Holds e ∨ ∃ e', t.Holds e' ∧ e = g e' := by
  obtain ⟨y, hy, he⟩ := h
  have hattached : t.Attached y := by
    apply attached_mono _ hy
    intro p c hpc
    rwa [Parent, parent?_modifyElement] at hpc
  rw [element?_modifyElement] at he
  split at he
  · obtain ⟨e', he', rfl⟩ := Option.map_eq_some_iff.1 he
    exact Or.inr ⟨e', ⟨y, hattached, he'⟩, rfl⟩
  · exact Or.inl ⟨y, hattached, he⟩

theorem holds_of_removeAttribute {localName : String} {namespaceUri : Option String}
    (h : (t.removeAttribute x localName namespaceUri).1.Holds e) :
    ∃ e', t.Holds e' ∧ e.attributes ⊆ e'.attributes := by
  unfold removeAttribute at h
  split at h
  · exact ⟨e, h, List.Subset.refl _⟩
  · rcases holds_of_modifyElement h with h | ⟨e', he', rfl⟩
    · exact ⟨e, h, List.Subset.refl _⟩
    · exact ⟨e', he', List.filter_subset_self _⟩

end Tree

namespace Session

open Edit
open Allocator (Advances)
open Registry (itemFragment itemNumbers)

variable {P : Type} {s : Session} {w left : Workspace P} {t : Tree} {operation : Operation}
  {f : Fragment} {given : List ((String × String) × String)} {space : IdentifierSpace}
  {name label id text : String}

/-! ## What one operation gives out -/

/-- The operation comes to giving out the identifiers of the fragment. -/
def Issues (s : Session) (t : Tree) (operation : Operation) (f : Fragment) : Prop :=
  ∃ target anchor key placement,
    (operation = .insert target anchor (.fragment key) placement ∨
      operation = .ensurePath target anchor key placement) ∧
    s.select t target = .ok [] ∧ (∃ a, s.selectElement t anchor = .ok a) ∧
    s.fragment key = .ok f ∧ ∃ resolved, f.resolveTokens s.tokens = .ok resolved

/-- The operation gives out these identifiers, and maybe more after them, whether it succeeds or
fails in the end. -/
def GivesOut (s : Session) (w : Workspace P) (operation : Operation)
    (given : List ((String × String) × String)) : Prop :=
  ∃ f count left, s.Issues w.tree operation f ∧
    Fragment.allocateAll s.registry f.name w.tree (f.identifiers.take count) w.ids =
      (.ok given, left)

theorem issues_insert_iff {target anchor : String} {payload : Payload} {placement : Placement} :
    s.Issues t (.insert target anchor payload placement) f ↔ ∃ key, payload = .fragment key ∧
      s.select t target = .ok [] ∧ (∃ a, s.selectElement t anchor = .ok a) ∧
      s.fragment key = .ok f ∧ ∃ resolved, f.resolveTokens s.tokens = .ok resolved := by
  constructor
  · rintro ⟨_, _, key, _, e | e, h⟩
    · cases e
      exact ⟨key, rfl, h⟩
    · cases e
  · rintro ⟨key, rfl, h⟩
    exact ⟨target, anchor, key, placement, Or.inl rfl, h⟩

theorem issues_ensurePath_iff {target anchor key : String} {placement : Placement} :
    s.Issues t (.ensurePath target anchor key placement) f ↔
      s.select t target = .ok [] ∧ (∃ a, s.selectElement t anchor = .ok a) ∧
      s.fragment key = .ok f ∧ ∃ resolved, f.resolveTokens s.tokens = .ok resolved := by
  constructor
  · rintro ⟨_, _, _, _, e | e, h⟩
    · cases e
    · cases e
      exact h
  · intro h
    exact ⟨target, anchor, key, placement, Or.inr rfl, h⟩

/-- An operation that succeeds either gives out all identifiers of its fragment or leaves the
allocator alone. -/
def Settles (s : Session) (t : Tree) (a b : Allocator) (operation : Operation) : Prop :=
  (∃ f given, s.Issues t operation f ∧
      Fragment.allocateAll s.registry f.name t f.identifiers a = (.ok given, b)) ∨
    (∀ f, ¬ s.Issues t operation f) ∧ b = a

theorem settles_of_instantiate {d : Draft} {key : String}
    (issues : ∀ f, s.fragment key = .ok f → (∃ resolved, f.resolveTokens s.tokens = .ok resolved) →
      s.Issues d.tree operation f) :
    Ends (s.instantiate key) d (fun _ d' => s.Settles d.tree d.ids d'.ids operation)
      fun _ _ => True := by
  rw [ends_instantiate]
  refine ⟨?_, fun _ _ => trivial⟩
  intro f hf
  refine ⟨?_, fun _ _ _ => trivial⟩
  intro made ids hmade
  obtain ⟨hall, hresolved⟩ := Fragment.instantiate_eq_ok hmade
  exact Or.inl ⟨f, made.values.identifiers, issues f hf ⟨_, hresolved⟩, hall⟩

theorem settles_of_change {d d' : Draft} {g : Tree → Except TreeError Tree}
    (h : s.Settles t d.ids d'.ids operation) :
    Ends (change g) d' (fun _ d' => s.Settles t d.ids d'.ids operation) fun _ _ => True := by
  rw [ends_change]
  exact ⟨fun _ _ => h, fun _ _ => trivial⟩

theorem settles_insert (s : Session) (d : Draft) (target anchor : String) (payload : Payload)
    (placement : Placement) :
    Ends (s.insert target anchor payload placement) d
      (fun _ d' => s.Settles d.tree d.ids d'.ids (.insert target anchor payload placement))
      fun _ _ => True := by
  rw [ends_insert]
  refine ⟨?_, fun _ _ => trivial⟩
  intro nodes hnodes
  refine ⟨?_, ?_⟩
  · intro hne
    refine Or.inr ⟨?_, rfl⟩
    intro f issues
    obtain ⟨_, _, hnil, _⟩ := issues_insert_iff.1 issues
    exact hne (Except.ok.inj (hnodes.symm.trans hnil))
  · rintro rfl
    refine ⟨?_, fun _ _ => trivial⟩
    intro a ha
    rw [ends_prepare]
    refine ⟨?_, ?_⟩
    · rintro key rfl
      have issues : ∀ f, s.fragment key = .ok f →
          (∃ resolved, f.resolveTokens s.tokens = .ok resolved) →
          s.Issues d.tree (.insert target anchor (.fragment key) placement) f := by
        intro f hf hresolved
        exact issues_insert_iff.2 ⟨key, rfl, hnodes, ⟨a, ha⟩, hf, hresolved⟩
      apply (settles_of_instantiate issues).mono
      · intro node d' h
        exact settles_of_change h
      · exact fun _ _ _ => trivial
    · rintro value rfl
      refine ⟨?_, fun _ _ => trivial⟩
      intro v _
      apply settles_of_change
      refine Or.inr ⟨?_, rfl⟩
      intro f issues
      obtain ⟨_, e, _⟩ := issues_insert_iff.1 issues
      cases e

theorem settles_ensurePath (s : Session) (d : Draft) (target anchor key : String)
    (placement : Placement) :
    Ends (s.ensurePath target anchor key placement) d
      (fun _ d' => s.Settles d.tree d.ids d'.ids (.ensurePath target anchor key placement))
      fun _ _ => True := by
  rw [ends_ensurePath]
  refine ⟨?_, fun _ _ => trivial⟩
  intro nodes hnodes
  refine ⟨?_, ?_⟩
  · intro hne
    refine Or.inr ⟨?_, rfl⟩
    intro f issues
    exact hne (Except.ok.inj (hnodes.symm.trans (issues_ensurePath_iff.1 issues).1))
  · rintro rfl
    refine ⟨?_, fun _ _ => trivial⟩
    intro a ha
    have issues : ∀ f, s.fragment key = .ok f →
        (∃ resolved, f.resolveTokens s.tokens = .ok resolved) →
        s.Issues d.tree (.ensurePath target anchor key placement) f := by
      intro f hf hresolved
      exact issues_ensurePath_iff.2 ⟨hnodes, ⟨a, ha⟩, hf, hresolved⟩
    apply (settles_of_instantiate issues).mono
    · intro node d' h
      apply (settles_of_change h).mono
      · intro _ d'' h'
        exact ⟨fun _ _ => ⟨fun _ => trivial, fun _ => h'⟩, fun _ _ => trivial⟩
      · exact fun _ _ _ => trivial
    · exact fun _ _ _ => trivial

theorem settles_of_action {action : Edit OperationResult} (h : s.action? operation = some action)
    (d : Draft) :
    Ends action d (fun _ d' => s.Settles d.tree d.ids d'.ids operation) fun _ _ => True := by
  cases operation with
  | set target value =>
    have none : ∀ f, ¬ s.Issues d.tree (.set target value) f := by simp [Issues]
    rw [← Option.some.inj h, ends_set]
    simp [ends_change, Settles, none]
  | insert target anchor payload placement =>
    rw [← Option.some.inj h]
    exact settles_insert s d target anchor payload placement
  | remove target =>
    have none : ∀ f, ¬ s.Issues d.tree (.remove target) f := by simp [Issues]
    rw [← Option.some.inj h, ends_remove]
    simp [Settles, none]
  | ensurePath target anchor key placement =>
    rw [← Option.some.inj h]
    exact settles_ensurePath s d target anchor key placement
  | ensurePart part key => cases h
  | ensureAttr target attr value =>
    have none : ∀ f, ¬ s.Issues d.tree (.ensureAttr target attr value) f := by simp [Issues]
    rw [← Option.some.inj h, ends_ensureAttr]
    simp [ends_change, Settles, none]

theorem fragment_of_issues {f f' : Fragment} (h : s.Issues t operation f)
    (h' : s.Issues t operation f') : f = f' := by
  cases operation with
  | insert target anchor payload placement =>
    obtain ⟨key, hkey, _, _, hf, _⟩ := issues_insert_iff.1 h
    obtain ⟨key', hkey', _, _, hf', _⟩ := issues_insert_iff.1 h'
    cases hkey.symm.trans hkey'
    exact Except.ok.inj (hf.symm.trans hf')
  | ensurePath target anchor key placement =>
    obtain ⟨_, _, hf, _⟩ := issues_ensurePath_iff.1 h
    obtain ⟨_, _, hf', _⟩ := issues_ensurePath_iff.1 h'
    exact Except.ok.inj (hf.symm.trans hf')
  | _ => simp [Issues] at h

section Executed

variable [Package P] {result : OperationResult}

theorem settles_of_execute (h : s.execute w operation = (.ok result, left)) :
    s.Settles w.tree w.ids left.ids operation := by
  cases ha : s.action? operation with
  | none =>
    obtain ⟨part, key, rfl⟩ := ensurePart_of_action? ha
    refine Or.inr ⟨?_, (execute_ensurePart h).2.2⟩
    simp [Issues]
  | some action =>
    rw [execute_eq_edit ha] at h
    exact (edit_ends (settles_of_action ha _) h).1 result rfl

theorem advances_of_execute (sound : s.registry.Sound)
    (hspace : s.registry.identifierSpace? name = some space)
    (h : s.execute w operation = (.ok result, left)) : Advances space w.tree w.ids left.ids := by
  rcases settles_of_execute h with ⟨f, given, _, hall⟩ | ⟨_, hids⟩
  · exact Fragment.advances_of_allocateAll sound.space_name hspace hall
  · rw [hids]
    exact .refl space w.tree w.ids

/-- What an operation that succeeds gives out is given out on the way to the allocator it leaves. -/
theorem givenOut_of_execute (sound : s.registry.Sound)
    (hspace : s.registry.identifierSpace? name = some space)
    (gives : s.GivesOut w operation given) (hid : ((name, label), id) ∈ given)
    (h : s.execute w operation = (.ok result, left)) :
    ∃ n, Fragment.GivenOut space w.tree w.ids left.ids id n := by
  obtain ⟨f, count, b, issues, hpart⟩ := gives
  rcases settles_of_execute h with ⟨f', given', issues', hall⟩ | ⟨none, _⟩
  · cases fragment_of_issues issues issues'
    obtain ⟨n, out⟩ := Fragment.givenOut_of_allocateAll sound.space_name hspace hpart hid
    have happend := Fragment.allocateAll_append hpart (f.identifiers.drop count)
    rw [List.take_append_drop, hall] at happend
    obtain ⟨hrest, hleft⟩ := Prod.mk.inj happend
    obtain ⟨rest, hrest, _⟩ := map_eq_ok_iff.1 hrest.symm
    have advances : Advances space w.tree b left.ids :=
      Fragment.advances_of_allocateAll sound.space_name hspace (Prod.ext hrest hleft.symm)
    obtain ⟨m, hm, hle⟩ := out.le_current
    obtain ⟨m', hm', hle'⟩ := advances.current? hm
    exact ⟨n, out.eq, out.le_maxNumber, out.previous_lt, m', hm', hle.trans hle'⟩
  · exact absurd issues (none f)

end Executed

theorem eq_of_alreadyApplied {action : Edit OperationResult}
    (h : s.action? operation = some action) (d : Draft) :
    Ends action d (fun result d' => result = .alreadyApplied → d' = d) fun _ _ => True := by
  cases operation with
  | set target value =>
    rw [← Option.some.inj h, ends_set]
    simp [ends_change]
  | insert target anchor payload placement =>
    rw [← Option.some.inj h, ends_insert]
    simp [ends_prepare, ends_instantiate, ends_change]
  | remove target =>
    rw [← Option.some.inj h, ends_remove]
    simp
  | ensurePath target anchor key placement =>
    rw [← Option.some.inj h, ends_ensurePath]
    simp [ends_instantiate, ends_change]
  | ensurePart part key => cases h
  | ensureAttr target attr value =>
    rw [← Option.some.inj h, ends_ensureAttr]
    simp [ends_change]

/-! ## What one operation puts into use -/

theorem inUse_removeNode {n : NodeRef} (h : space.InUse (removeNode t n) text) :
    space.InUse t text := by
  cases n with
  | element x => exact h.mono fun e he => ⟨e, Tree.holds_of_detach he, List.Subset.refl _⟩
  | «attribute» x index =>
    simp only [removeNode] at h
    split at h
    · exact h.mono fun _ he => Tree.holds_of_removeAttribute he
    · exact h

theorem inUse_removeNodes {nodes : List NodeRef}
    (h : space.InUse (nodes.foldl removeNode t) text) : space.InUse t text := by
  induction nodes generalizing t with
  | nil => exact h
  | cons n nodes ih => exact inUse_removeNode (ih h)

theorem inUse_of_action {action : Edit OperationResult} (h : s.action? operation = some action)
    (d : Draft) :
    Ends action d (fun result d' => (result = .applied ∧ operation.writes = true) ∨
      ∀ space text, IdentifierSpace.InUse space d'.tree text → space.InUse d.tree text)
      fun _ _ => True := by
  cases operation with
  | set target value =>
    rw [← Option.some.inj h, ends_set]
    simp [ends_change, Operation.writes]
  | insert target anchor payload placement =>
    rw [← Option.some.inj h, ends_insert]
    simp [ends_prepare, ends_instantiate, ends_change, Operation.writes]
  | remove target =>
    rw [← Option.some.inj h, ends_remove]
    refine ⟨?_, fun _ _ => trivial⟩
    intro nodes _
    refine ⟨fun _ => Or.inr fun _ _ used => used, ?_⟩
    intro _
    exact Or.inr fun _ _ used => inUse_removeNodes used
  | ensurePath target anchor key placement =>
    rw [← Option.some.inj h, ends_ensurePath]
    simp [ends_instantiate, ends_change, Operation.writes]
  | ensurePart part key => cases h
  | ensureAttr target attr value =>
    rw [← Option.some.inj h, ends_ensureAttr]
    simp [ends_change, Operation.writes]

theorem inUse_of_execute [Package P] {result : OperationResult}
    (h : s.execute w operation = (.ok result, left)) :
    (result = .applied ∧ operation.writes = true) ∨
      ∀ space text, IdentifierSpace.InUse space left.tree text → space.InUse w.tree text := by
  cases ha : s.action? operation with
  | none =>
    obtain ⟨part, key, rfl⟩ := ensurePart_of_action? ha
    rw [(execute_ensurePart h).2.1]
    exact Or.inr fun _ _ used => used
  | some action =>
    rw [execute_eq_edit ha] at h
    exact (edit_ends (inUse_of_action ha _) h).1 result rfl

/-! ## A whole session -/

variable [Package P] {m : Move} {moves : List Move}

theorem execute_of_applied {index : Nat} {record : OperationRecord}
    (h : (s.applyOperation w index record).1 = .ok .applied) :
    s.execute w record.operation = (.ok .applied, (s.applyOperation w index record).2) := by
  rcases he : s.execute w record.operation with ⟨e | result, left⟩
  · simp only [applyOperation, he] at h
    split at h
    · cases h
    · cases h
  · simp only [applyOperation, he] at h ⊢
    cases h
    rfl

/-- The allocator keeps no traces of an operation that is not applied. -/
theorem ids_of_not_applied {index : Nat} {record : OperationRecord}
    (h : (s.applyOperation w index record).1 ≠ .ok .applied) :
    (s.applyOperation w index record).2.ids = w.ids := by
  rcases applyOperation_draft s w index record with ⟨result, he, hresult⟩ | ⟨_, hids⟩
  · cases ha : s.action? record.operation with
    | none =>
      obtain ⟨part, key, heq⟩ := ensurePart_of_action? ha
      rw [heq] at he
      exact (execute_ensurePart he).2.2
    | some action =>
      rcases carried_of_execute he with rfl | rfl
      · exact absurd hresult h
      · rw [execute_eq_edit ha] at he
        have hdraft := (edit_ends (eq_of_alreadyApplied ha _) he).1 _ rfl rfl
        exact congrArg Draft.ids hdraft
  · exact hids

theorem advances_move (sound : s.registry.Sound)
    (hspace : s.registry.identifierSpace? name = some space) (w : Workspace P) (m : Move) :
    Advances space w.tree w.ids (s.move w m).ids := by
  cases m with
  | operation index record =>
    rcases applyOperation_draft s w index record with ⟨result, h, _⟩ | ⟨_, hids⟩
    · exact advances_of_execute sound hspace h
    · rw [move, hids]
      exact .refl space w.tree w.ids
  | compaction => exact .refl space w.tree w.ids

/-- What only writing can put into use. -/
theorem inUse_move (wf : w.tree.WellFormed) (used : space.InUse (s.move w m).tree text) :
    space.InUse w.tree text ∨ ∃ index record, m = .operation index record ∧
      record.operation.writes = true ∧ (s.applyOperation w index record).1 = .ok .applied := by
  cases m with
  | operation index record =>
    rcases applyOperation_draft s w index record with ⟨result, h, hresult⟩ | ⟨htree, _⟩
    · rcases inUse_of_execute h with ⟨rfl, hwrites⟩ | unchanged
      · exact Or.inr ⟨index, record, rfl, hwrites, hresult⟩
      · exact Or.inl (unchanged space text used)
    · rw [move, htree] at used
      exact Or.inl used
  | compaction =>
    refine Or.inl (used.mono ?_)
    intro e he
    exact ⟨e, (wf.holds_compact_iff e).1 he, List.Subset.refl _⟩

/-- The move puts an identifier into use that the counter of its namespace has yet to reach. -/
structure Overtakes (s : Session) (w : Workspace P) (m : Move) (space : IdentifierSpace)
    (n : Nat) : Prop where
  writes : ∃ index record, m = .operation index record ∧ record.operation.writes = true ∧
    (s.applyOperation w index record).1 = .ok .applied
  unused : ¬ space.InUse w.tree (space.format n)
  used : space.InUse (s.move w m).tree (space.format n)
  ahead : ∃ c, (s.move w m).ids.current? space.name = some c ∧ c < n

theorem current?_stage (sound : s.registry.Sound)
    (hspace : s.registry.identifierSpace? name = some space) {i j c : Nat} (hij : i ≤ j)
    (hj : j ≤ moves.length) (hc : (s.stage w moves i).ids.current? space.name = some c) :
    ∃ c', (s.stage w moves j).ids.current? space.name = some c' ∧ c ≤ c' := by
  induction j, hij using Nat.le_induction with
  | base => exact ⟨c, hc, Nat.le_refl c⟩
  | succ j _ ih =>
    obtain ⟨c', hc', hle⟩ := ih (Nat.le_of_succ_le hj)
    rw [stage_succ (List.getElem?_eq_getElem hj)]
    obtain ⟨c'', hc'', hle'⟩ := (advances_move sound hspace _ _).current? hc'
    exact ⟨c'', hc'', hle.trans hle'⟩

/-- An identifier in use that is still to be given out was put there after the counter looked. -/
theorem overtaken_of_inUse (sound : s.registry.Sound)
    (hspace : s.registry.identifierSpace? name = some space) (reached : s.Reached w)
    (unseeded : w.ids.current? space.name = none) {count n : Nat} (hcount : count ≤ moves.length)
    (hn : n ≤ Text.maxNumber)
    (hlt : (s.stage w moves count).ids.previous space (s.stage w moves count).tree < n)
    (used : space.InUse (s.stage w moves count).tree (space.format n)) :
    ∃ i m, moves[i]? = some m ∧ s.Overtakes (s.stage w moves i) m space n ∧
      ∀ j, i < j → j ≤ count → space.InUse (s.stage w moves j).tree (space.format n) := by
  have wf : ∀ count, (s.stage w moves count).tree.WellFormed := by
    intro count
    exact (reached.follow _).wellFormed sound
  induction count with
  | zero =>
    obtain ⟨c, hc, _⟩ := Allocator.exists_current?_of_inUse (wf 0) hn used hlt
    rw [stage_zero, unseeded] at hc
    cases hc
  | succ count ih =>
    obtain ⟨c, hc, hcn⟩ := Allocator.exists_current?_of_inUse (wf (count + 1)) hn used hlt
    have hm : moves[count]? = some moves[count] := List.getElem?_eq_getElem hcount
    rw [stage_succ hm] at hc used
    by_cases before : space.InUse (s.stage w moves count).tree (space.format n)
    · have hle := (advances_move sound hspace (s.stage w moves count) moves[count]).previous_le
      rw [Allocator.previous_of_current? hc] at hle
      obtain ⟨i, m, hi, passed, stays⟩ := ih (Nat.le_of_succ_le hcount) (hle.trans_lt hcn) before
      refine ⟨i, m, hi, passed, ?_⟩
      intro j hij hj
      rcases Nat.le_succ_iff.1 hj with hj | rfl
      · exact stays j hij hj
      · rw [stage_succ hm]
        exact used
    · have writes := (inUse_move (wf count) used).resolve_left before
      refine ⟨count, moves[count], hm, ⟨writes, before, used, c, hc, hcn⟩, ?_⟩
      intro j hij hj
      rw [Nat.le_antisymm hj hij, stage_succ hm]
      exact used

/-- What an operation gives out in a session that began with a document that was read: the
identifiers differ from each other and from those that applied operations gave out before, and one
of them is in use already if and only if an operation has overtaken its counter. -/
theorem identifiers_fresh {d : Registry.Document} (compiled : Registry.compile d = .ok s.registry)
    {source : String} (read : Xml.read source = .ok w.tree) (new : w.ids = .empty)
    (moves : List Move) (gives : s.GivesOut (s.follow w moves) operation given)
    (hid : ((name, label), id) ∈ given) :
    Fragment.Distinct given ∧
    (∀ i index record, moves[i]? = some (.operation index record) →
      (s.applyOperation (s.stage w moves i) index record).1 = .ok .applied →
      ∀ earlier, s.GivesOut (s.stage w moves i) record.operation earlier →
      ∀ label' id', ((name, label'), id') ∈ earlier → id' ≠ id) ∧
    (∀ i index record, moves[i]? = some (.operation index record) →
      (s.applyOperation (s.stage w moves i) index record).1 ≠ .ok .applied →
      (s.stage w moves (i + 1)).ids = (s.stage w moves i).ids) ∧
    ∃ space n, s.registry.identifierSpace? name = some space ∧ id = space.format n ∧
      (space.InUse (s.follow w moves).tree id ↔
        ∃ i m, moves[i]? = some m ∧ s.Overtakes (s.stage w moves i) m space n ∧
          ∀ j, i < j → j ≤ moves.length → space.InUse (s.stage w moves j).tree id) := by
  have sound := Registry.sound_of_compile compiled
  have reached : s.Reached w := by
    have := Reached.start (s := s) w.package read
    rwa [← new] at this
  obtain ⟨f, count, left, issues, hall⟩ := gives
  obtain ⟨space, hspace⟩ := Fragment.exists_space_of_allocateAll hall hid
  obtain ⟨n, out⟩ := Fragment.givenOut_of_allocateAll sound.space_name hspace hall hid
  rw [← stage_length] at out
  refine ⟨Fragment.distinct_of_allocateAll sound.space_name hall, ?_, ?_, space, n, hspace,
    out.eq, ?_⟩
  · intro i index record hi applied earlier gives' label' id' hid'
    have hilt : i < moves.length := (List.getElem?_eq_some_iff.1 hi).1
    obtain ⟨k, out'⟩ := givenOut_of_execute sound hspace gives' hid' (execute_of_applied applied)
    obtain ⟨c, hc, hkc⟩ := out'.le_current
    have hmove : (s.stage w moves (i + 1)).ids.current? space.name = some c := by
      rw [stage_succ hi]
      exact hc
    obtain ⟨c', hc', hcc'⟩ := current?_stage sound hspace hilt (Nat.le_refl _) hmove
    have hlt := out.previous_lt
    rw [Allocator.previous_of_current? hc'] at hlt
    have hne : k ≠ n := by omega
    rw [out.eq, out'.eq]
    exact IdentifierSpace.format_ne out'.le_maxNumber out.le_maxNumber hne
  · intro i index record hi unapplied
    rw [stage_succ hi]
    exact ids_of_not_applied unapplied
  · rw [out.eq, ← stage_length]
    constructor
    · intro used
      have unseeded : w.ids.current? space.name = none := by
        rw [new]
        rfl
      exact overtaken_of_inUse sound hspace reached unseeded (Nat.le_refl _) out.le_maxNumber
        out.previous_lt used
    · rintro ⟨i, m, hi, _, stays⟩
      exact stays moves.length (List.getElem?_eq_some_iff.1 hi).1 (Nat.le_refl _)

/-- The counter looks and gives out 2; then 3 is written by hand. -/
def numberByHand : List Move :=
  [.operation 0 ⟨.insert "gap" "list" (.fragment "item") .append, false⟩,
    .operation 1 ⟨.ensureAttr "list" "id" "3", false⟩]

def afterNumberByHand : Workspace MemoryPackage where
  tree := {
    nodes := #[⟨.document, none, [1]⟩, ⟨.element ⟨.plain "list", [⟨.plain "id", "3"⟩], []⟩, some 0,
        [2, 3]⟩,
      ⟨.element ⟨.plain "item", [⟨.plain "id", "1"⟩], []⟩, some 1, []⟩,
      ⟨.element ⟨.plain "item", [⟨.plain "id", "2"⟩], []⟩, some 1, []⟩]
    header := none }
  ids := ⟨.ofList [("n", 2)]⟩
  package := .empty

theorem follow_numberByHand : itemList.follow oneItem numberByHand = afterNumberByHand := by
  cbv

theorem givesOut_numberByHand : itemList.GivesOut afterNumberByHand
    (.insert "gap" "list" (.fragment "item") .append) [(("n", "x"), "3")] := by
  have hselect : itemList.select afterNumberByHand.tree "gap" = .ok [] := by cbv
  have hanchor : itemList.selectElement afterNumberByHand.tree "list" = .ok 1 := by cbv
  have hfragment : itemList.fragment "item" = .ok itemFragment := by cbv
  have hresolved : itemFragment.resolveTokens itemList.tokens = .ok [] := by cbv
  have hall : Fragment.allocateAll itemList.registry itemFragment.name afterNumberByHand.tree
      (itemFragment.identifiers.take 1) afterNumberByHand.ids =
        (.ok [(("n", "x"), "3")], ⟨.ofList [("n", 3)]⟩) := by cbv
  have issues : itemList.Issues afterNumberByHand.tree
      (.insert "gap" "list" (.fragment "item") .append) itemFragment :=
    issues_insert_iff.2 ⟨"item", rfl, hselect, ⟨1, hanchor⟩, hfragment, [], hresolved⟩
  exact ⟨itemFragment, 1, _, issues, hall⟩

theorem inUse_numberByHand : itemNumbers.InUse afterNumberByHand.tree "3" := by
  have parent : afterNumberByHand.tree.Parent Tree.documentId 1 := by cbv
  have element : afterNumberByHand.tree.element? 1 =
      some ⟨.plain "list", [⟨.plain "id", "3"⟩], []⟩ := by cbv
  have covers : itemNumbers.covers ⟨.plain "id", "3"⟩ = true := by cbv
  have attached := (Tree.attached_document afterNumberByHand.tree).tail parent
  exact ⟨_, ⟨1, attached, element⟩, _, List.mem_cons_self, covers, rfl⟩

theorem identifierSpace?_itemList :
    itemList.registry.identifierSpace? "n" = some itemNumbers := by
  cbv

/-- The identifier 3 is given out although it is in use. -/
theorem givesOut_identifier_in_use :
    Registry.compile Registry.itemList = .ok itemList.registry ∧
    Xml.read "<list><item id='1'/></list>" = .ok oneItem.tree ∧ oneItem.ids = .empty ∧
    itemList.registry.identifierSpace? "n" = some itemNumbers ∧
    itemList.GivesOut (itemList.follow oneItem numberByHand)
      (.insert "gap" "list" (.fragment "item") .append) [(("n", "x"), "3")] ∧
    itemNumbers.InUse (itemList.follow oneItem numberByHand).tree "3" := by
  rw [follow_numberByHand]
  exact ⟨Registry.compile_itemList, read_oneItem, rfl, identifierSpace?_itemList,
    givesOut_numberByHand, inUse_numberByHand⟩

theorem identifiers_fresh_numberByHand :
    itemList.GivesOut (itemList.follow oneItem numberByHand)
      (.insert "gap" "list" (.fragment "item") .append) [(("n", "x"), "3")] ∧
    ∃ i m n, numberByHand[i]? = some m ∧ itemNumbers.format n = "3" ∧
      itemList.Overtakes (itemList.stage oneItem numberByHand i) m itemNumbers n := by
  have gives := givesOut_numberByHand
  have used := inUse_numberByHand
  rw [← follow_numberByHand] at gives used
  have compiled : Registry.compile Registry.itemList = .ok itemList.registry :=
    Registry.compile_itemList
  obtain ⟨_, _, _, space, n, hspace, hid, iff⟩ :=
    identifiers_fresh compiled read_oneItem rfl numberByHand gives List.mem_cons_self
  cases Option.some.inj (hspace.symm.trans identifierSpace?_itemList)
  obtain ⟨i, m, hm, passed, _⟩ := iff.1 used
  exact ⟨gives, i, m, n, hm, hid.symm, passed⟩

end Session

end PartPatch
