import PartPatch.Proofs.Xml.Growth

/-!
# What reading comes to

While a document is read, the open elements lead up from the current node to the document, and
nothing stands behind that node. So every new node is the last one in document order, and the nodes
of what is read are named in that order. An end tag without an open element does not get as far as
the tree, and all that a tree can object to is a second root.
-/

namespace PartPatch.Xml

set_option autoImplicit false

variable {opened opened' : List (List Char)} {b b' : Building} {event : Event} {fault : Fault}
  {kind : NodeKind}

/-! ## What holds all the time -/

namespace Building

/-- The open elements lead from the current node up to the document, with nothing behind them, and
the nodes are named in document order. -/
structure Tidy (b : Building) : Prop where
  sound : b.Sound
  lineage : b.tree.lineage b.current = b.frames.map Frame.id ++ [Tree.documentId]
  last : b.tree.LastDown b.current
  inOrder : b.tree.InOrder

namespace Tidy

theorem attached (h : b.Tidy) : b.tree.Attached b.current := by
  have hmem : Tree.documentId ∈ b.tree.lineage b.current := by
    rw [h.lineage]
    exact List.mem_append_right _ List.mem_cons_self
  exact h.sound.wellFormed.mem_lineage_iff.1 hmem

theorem inOrder_added (h : b.Tidy) (added : b.Added kind b') : b'.tree.InOrder :=
  added.sprouted.inOrder h.sound.wellFormed h.attached h.last h.inOrder

theorem lineage_added (h : b.Tidy) (added : b.Added kind b') :
    b'.tree.lineage b.current = b.frames.map Frame.id ++ [Tree.documentId] := by
  rw [← h.lineage]
  exact added.extends_.lineage h.sound.wellFormed added.sound.wellFormed h.sound.current_lt

theorem leaf (h : b.Tidy) (added : b.Added kind b') : b'.Tidy where
  sound := added.sound
  lineage := by
    rw [current_congr added.frames, added.frames]
    exact h.lineage_added added
  last := by
    rw [current_congr added.frames]
    exact added.sprouted.lastDown h.sound.wellFormed h.sound.current_lt h.last
  inOrder := h.inOrder_added added

theorem opens (h : b.Tidy) {e : Element} (added : b.Added (.element e) b') :
    (⟨b'.tree, ⟨b.tree.size, e.declarations⟩ :: b.frames⟩ : Building).Tidy where
  sound := added.sound_open
  lineage := by
    have below := added.sound.wellFormed.lineage_of_parent added.sprouted.parent_new
    rwa [h.lineage_added added] at below
  last := added.sprouted.lastDown_new h.sound.wellFormed h.sound.current_lt h.last
  inOrder := by
    have order := h.inOrder_added added
    exact order

/-- The element that was opened before the innermost one is its parent. -/
theorem parent (h : b.Tidy) {frame : Frame} {frames : List Frame}
    (hframes : b.frames = frame :: frames) :
    b.tree.Parent (⟨b.tree, frames⟩ : Building).current frame.id ∧
      b.tree.lineage (⟨b.tree, frames⟩ : Building).current =
        frames.map Frame.id ++ [Tree.documentId] := by
  have path := h.lineage
  rw [current, hframes, h.sound.wellFormed.lineage_eq] at path
  have above : ((b.tree.parent? frame.id).map b.tree.lineage).getD [] =
      frames.map Frame.id ++ [Tree.documentId] := (List.cons.inj path).2
  cases hp : b.tree.parent? frame.id with
  | none =>
    rw [hp] at above
    exact absurd above.symm (List.append_ne_nil_of_right_ne_nil _ (List.cons_ne_nil _ _))
  | some p =>
    rw [hp, Option.map_some, Option.getD_some] at above
    have first : p = (⟨b.tree, frames⟩ : Building).current := by
      rw [h.sound.wellFormed.lineage_eq] at above
      cases frames with
      | nil => exact (List.cons.inj above).1
      | cons outer frames => exact (List.cons.inj above).1
    rw [first] at hp above
    exact ⟨hp, above⟩

theorem closes (h : b.Tidy) {frame : Frame} {frames : List Frame}
    (hframes : b.frames = frame :: frames) : (⟨b.tree, frames⟩ : Building).Tidy where
  sound := by
    refine ⟨h.sound.wellFormed, fun outer houter => h.sound.frames outer ?_⟩
    rw [hframes]
    exact List.mem_cons_of_mem _ houter
  lineage := (h.parent hframes).2
  last := by
    intro p c hpc hc
    refine h.last p c hpc ?_
    rw [current, hframes]
    exact Relation.ReflTransGen.tail hc (h.parent hframes).1
  inOrder := h.inOrder

theorem withHeader (h : b.Tidy) (header : Option Header) :
    (⟨{ b.tree with header }, b.frames⟩ : Building).Tidy where
  sound := ⟨h.sound.wellFormed.withHeader header, h.sound.frames⟩
  lineage := by
    have same : b.tree.Extends { b.tree with header } :=
      ⟨Nat.le_refl _, fun _ _ => rfl, fun _ _ => rfl⟩
    rw [← h.lineage]
    exact same.lineage h.sound.wellFormed (h.sound.wellFormed.withHeader header) h.sound.current_lt
  last := h.last
  inOrder := h.inOrder

/-- Every event keeps the order. -/
theorem step (h : b.Tidy) (hstep : b.step event = .ok b') : b'.Tidy := by
  have leaf : ∀ {kind : NodeKind} {b' : Building} {id : NodeId}, kind ≠ .document →
      b.add kind = .ok (b', id) → b'.Tidy :=
    fun hkind hadd => h.leaf (added_of_add h.sound hkind hadd).2
  cases next_of_step hstep with
  | header hread => exact h.withHeader _
  | opens hread hadd =>
    obtain ⟨rfl, added⟩ := added_of_add h.sound (by simp) hadd
    rw [added.frames]
    exact h.opens added
  | empty hread hadd => exact leaf (by simp) hadd
  | closes hframes => exact h.closes hframes
  | outside hframes => exact h
  | text hadd => exact leaf (by simp) hadd
  | characterData hadd => exact leaf (by simp) hadd
  | comment hadd => exact leaf (by simp) hadd
  | skipped => exact h

end Tidy

end Building

/-! ## Faults -/

/-- The error is one that reading is said to have. -/
def Error.Documented : Error → Prop
  | .malformed _ _ | .undeclaredPrefix _ _ | .missingRoot => True
  | .unexpectedClose _ => False
  | .tree error => error = .multipleRoots

def Fault.Documented (fault : Fault) : Prop :=
  ∀ position, (fault.at position).Documented

theorem documented_of_elementNamespace {rawName : String} {qualifier : Option String}
    {scope : Scope} (h : elementNamespace rawName qualifier scope = .error fault) :
    fault.Documented := by
  unfold elementNamespace at h
  split at h
  · cases h
  · split at h
    · cases h
      exact fun _ => trivial
    · cases h

theorem documented_of_resolveAttribute {rawName name value : String} {scope : Scope}
    (h : resolveAttribute rawName scope name value = .error fault) : fault.Documented := by
  unfold resolveAttribute at h
  split at h
  · cases h
  · split at h
    · cases h
    · cases h
      exact fun _ => trivial

theorem documented_of_readElement {scope : Scope} {inside : List Char}
    (h : readElement scope inside = .error fault) : fault.Documented := by
  unfold readElement at h
  split at h
  · cases h
    exact fun _ => trivial
  · rcases splitName (tagName inside) with ⟨qualifier, localName⟩
    rcases bind_eq_error_iff.1 h with h | ⟨_, _, h⟩
    · exact documented_of_elementNamespace h
    · rcases bind_eq_error_iff.1 h with h | ⟨_, _, h⟩
      · obtain ⟨_, _, h⟩ := exists_of_mapM_eq_error h
        exact documented_of_resolveAttribute h
      · cases h

namespace Building

/-- A new node fits below the current one unless it is a second root. -/
theorem documented_of_add (sound : b.Sound) (hkind : kind ≠ .document)
    (h : b.add kind = .error fault) : fault.Documented := by
  have planted := Tree.planted_push sound.wellFormed hkind
  have fits := planted.fits sound.wellFormed sound.current
  simp only [add, Tree.appendChild] at h
  rcases Tree.insertAt_eq planted.wellFormed fits
    ((b.tree.push kind).1.children b.current).length with ⟨_, heq⟩ | ⟨_, heq⟩
  · rw [heq] at h
    cases h
    exact fun _ => rfl
  · rw [heq] at h
    cases h

/-- Of a tag the element may not be read, or not be added. -/
theorem documented_of_tag (sound : b.Sound) {inside : List Char}
    {finish : Element → Building × NodeId → Except Fault Building}
    (finishes : ∀ e made, ∃ b', finish e made = .ok b')
    (h : (do let e ← readElement b.scope inside
             finish e (← b.add (.element e))) = .error fault) : fault.Documented := by
  rcases bind_eq_error_iff.1 h with h | ⟨e, _, h⟩
  · exact documented_of_readElement h
  · rcases bind_eq_error_iff.1 h with h | ⟨made, _, h⟩
    · exact documented_of_add sound (by simp) h
    · obtain ⟨_, hb⟩ := finishes e made
      cases hb.symm.trans h

theorem documented_of_step (sound : b.Sound) (h : b.step event = .error fault)
    (inside : ∀ name, event = .endTag name → b.frames ≠ []) : fault.Documented := by
  have leaf : ∀ {kind : NodeKind}, kind ≠ .document →
      (b.add kind).map Prod.fst = .error fault → fault.Documented :=
    fun hkind hadd => documented_of_add sound hkind (map_eq_error_iff.1 hadd)
  cases event with
  | header inside =>
    simp only [Building.step] at h
    split at h
    · cases h
      exact fun _ => trivial
    · cases h
  | startTag inside => exact documented_of_tag sound (fun _ _ => ⟨_, rfl⟩) h
  | emptyTag inside => exact documented_of_tag sound (fun _ _ => ⟨_, rfl⟩) h
  | endTag name =>
    simp only [Building.step] at h
    split at h
    · next heq => exact absurd heq (inside name rfl)
    · cases h
  | text raw =>
    simp only [Building.step] at h
    split at h
    · cases h
    · split at h
      · cases h
        exact fun _ => trivial
      · exact leaf (by simp) h
  | characterData s => exact leaf (by simp) h
  | comment s => exact leaf (by simp) h
  | skipped => cases h

end Building

/-! ## Runs -/

/-- The tree under construction is tidy, with as many open elements as names of open elements. -/
def InStep (opened : List (List Char)) (b : Building) : Prop :=
  opened.length = b.frames.length ∧ b.Tidy

theorem InStep.next (h : InStep opened b) (htake : take opened b event = .ok (opened', b')) :
    InStep opened' b' := by
  obtain ⟨length, tidy⟩ := h
  obtain ⟨hmatch, hstep⟩ := step_of_take htake
  refine ⟨?_, tidy.step hstep⟩
  have kept : ∀ {kind : NodeKind} {b' : Building} {id : NodeId}, kind ≠ .document →
      b.add kind = .ok (b', id) → opened.length = b'.frames.length := by
    intro kind b' id hkind hadd
    rw [(Building.added_of_add tidy.sound hkind hadd).2.frames, length]
  cases Building.next_of_step hstep with
  | header hread =>
    cases hmatch
    exact length
  | opens hread hadd =>
    cases hmatch
    exact congrArg Nat.succ (kept (by simp) hadd)
  | empty hread hadd =>
    cases hmatch
    exact kept (by simp) hadd
  | closes hframes =>
    rw [hframes] at length
    cases opened with
    | nil => cases hmatch
    | cons top rest =>
      rw [matchTags] at hmatch
      split at hmatch
      · cases hmatch
        exact Nat.succ.inj length
      · cases hmatch
  | outside hframes =>
    cases hmatch
    exact length
  | text hadd =>
    cases hmatch
    exact kept (by simp) hadd
  | characterData hadd =>
    cases hmatch
    exact kept (by simp) hadd
  | comment hadd =>
    cases hmatch
    exact kept (by simp) hadd
  | skipped =>
    cases hmatch
    exact length

theorem InStep.documented (h : InStep opened b) (htake : take opened b event = .error fault) :
    fault.Documented := by
  obtain ⟨length, tidy⟩ := h
  unfold take at htake
  split at htake
  · cases htake
    exact fun _ => trivial
  · next rest hmatch =>
    refine Building.documented_of_step tidy.sound (map_eq_error_iff.1 htake) ?_
    rintro name rfl hframes
    rw [hframes, List.length_nil, List.length_eq_zero_iff] at length
    rw [length] at hmatch
    cases hmatch

/-- What is wrong with a text is that no event can be read, or a fault of one event. -/
theorem fault_of_build {I : List (List Char) → Building → Prop}
    (step : ∀ {c s event r opened b opened' b'}, readEvent c s = .ok (event, r) →
      take opened b event = .ok (opened', b') → I opened b → I opened' b')
    (whole : List Char) {s : List Char} {error : Error}
    (hbuild : build whole opened b s = .error error) (h : I opened b) :
    (∃ position cause, error = .malformed position cause) ∨
      ∃ opened b event fault position, I opened b ∧ take opened b event = .error fault ∧
        error = fault.at position := by
  induction hs : s.length using Nat.strong_induction_on generalizing opened b s with
  | _ n ih =>
    unfold build at hbuild
    split at hbuild
    · cases hbuild
    · next c t =>
      split at hbuild
      · cases hbuild
        exact Or.inl ⟨_, _, rfl⟩
      · next event r hr hevent =>
        split at hbuild
        · next fault htake =>
          cases hbuild
          exact Or.inr ⟨opened, b, event, fault, _, h, htake, rfl⟩
        · next opened' b'' htake =>
          exact ih r.length (hs ▸ hr) hbuild (step hevent htake h) rfl

theorem inStep_empty : InStep [] ⟨Tree.empty, []⟩ := by
  refine ⟨rfl, ⟨Tree.wellFormed_empty, fun _ h => by cases h⟩, rfl, ?_, rfl⟩
  intro p c hpc
  rw [Tree.Parent, Tree.parent?_empty] at hpc
  cases hpc

theorem documented_of_read {source : String} {error : Error} (h : read source = .error error) :
    error.Documented := by
  simp only [read] at h
  split at h
  · next error' hbuild =>
    cases h
    rcases fault_of_build (fun _ htake h => h.next htake) _ hbuild inStep_empty with
      ⟨position, cause, rfl⟩ | ⟨opened, b, event, fault, position, inStep, htake, rfl⟩
    · trivial
    · exact inStep.documented htake position
  · cases h
    trivial
  · split at h
    · cases h
    · cases h
      trivial

theorem inOrder_of_read {source : String} {t : Tree} (h : read source = .ok t) : t.InOrder := by
  obtain ⟨_, inStep⟩ := invariant_of_build (I := InStep) (fun _ htake h => h.next htake) _
    (build_of_read h).1 inStep_empty
  exact inStep.2.inOrder

/-- Reading fails in the documented ways only, and never over the end tags that the tree keeps
account of. What is read has one root, and its nodes are attached and named in document order. -/
theorem read_outcome (source : String) :
    (∀ error, read source = .error error → error.Documented) ∧
    ∀ t, read source = .ok t →
      t.WellFormed ∧ (∃ root, t.childElements Tree.documentId = [root]) ∧
      (∀ x < t.size, t.Attached x) ∧ (∀ x < t.size, t.position x = x) ∧
      t.compact = (t, 0) := by
  refine ⟨fun error h => documented_of_read h, fun t h => ?_⟩
  have wf := wellFormed_of_read h
  have order := inOrder_of_read h
  refine ⟨wf, ?_, fun x hx => (order.attached_iff wf).2 hx, fun x hx => order.position hx,
    order.compact wf⟩
  have one := wf.one_root
  have some := (build_of_read h).2
  rw [Tree.root?] at some
  cases hroots : t.childElements Tree.documentId with
  | nil =>
    rw [hroots] at some
    cases some
  | cons root others =>
    rw [hroots, List.length_cons] at one
    have none := Nat.le_zero.1 (Nat.le_of_succ_le_succ one)
    rw [List.length_eq_zero_iff.1 none]
    exact ⟨root, rfl⟩

/-- A document with a comment before its root, and one without a root. -/
theorem read_outcome_both : ∃ t,
    read "<!--n--><a><b>x</b></a>" = .ok t ∧ t.size = 5 ∧ t.position 3 = 3 ∧ t.compact = (t, 0) ∧
    read "<!--n-->" = .error .missingRoot ∧ Error.missingRoot.Documented := by
  have rooted : read "<!--n--><a><b>x</b></a>" = .ok ⟨#[⟨.document, none, [1, 2]⟩,
      ⟨.comment "n", some 0, []⟩, ⟨.element ⟨.plain "a", [], []⟩, some 0, [3]⟩,
      ⟨.element ⟨.plain "b", [], []⟩, some 2, [4]⟩, ⟨.text "x", some 3, []⟩], none⟩ := by
    cbv
  have bare : read "<!--n-->" = .error .missingRoot := by cbv
  obtain ⟨-, -, -, position, compact⟩ := (read_outcome _).2 _ rooted
  exact ⟨_, rooted, rfl, position 3 (by decide), compact, bare, (read_outcome _).1 _ bare⟩

end PartPatch.Xml
