import PartPatch.Proofs.Except
import PartPatch.Proofs.Tree.Elements
import PartPatch.Xml.Reader

/-!
# Documents that were read

Each event adds at most one node, below the document or an open element, so what is read is well
formed.
-/

namespace PartPatch

set_option autoImplicit false

namespace Tree

theorem node?_empty (id : NodeId) :
    empty.node? id = if id = documentId then some ⟨.document, none, []⟩ else none := by
  rw [node?, empty]
  cases id with
  | zero => rfl
  | succ n => rfl

theorem children_empty (id : NodeId) : empty.children id = [] := by
  rw [children_eq, node?_empty]
  split <;> rfl

theorem parent?_empty (id : NodeId) : empty.parent? id = none := by
  rw [parent?, node?_empty]
  split <;> rfl

theorem wellFormed_empty : empty.WellFormed where
  document_iff id := by
    rw [kind?, node?_empty]
    split <;> simp_all
  document_top := parent?_empty _
  mem_children_iff p c := by simp [children_empty, parent?_empty]
  nodup_children p := by
    rw [children_empty]
    exact List.nodup_nil
  holder p c h := by
    rw [children_empty] at h
    cases h
  one_root := by
    rw [childElements, children_empty]
    exact Nat.zero_le 1
  grounded := by
    constructor
    intro x
    constructor
    intro p h
    rw [Parent, parent?_empty] at h
    cases h

/-- The header plays no part in the shape of a tree. -/
theorem WellFormed.withHeader {t : Tree} (wf : t.WellFormed) (header : Option Header) :
    { t with header }.WellFormed :=
  wf.of_same_links (fun _ => rfl) (fun _ => rfl) (fun _ => Iff.rfl) fun _ _ => rfl

end Tree

namespace Xml

/-- The parts of an element that a tag opens. -/
theorem readElement_eq_ok {scope : Scope} {inside : List Char} {e : Element}
    (h : readElement scope inside = .ok e) :
    ∃ pairs, tagAttributes inside = .ok pairs ∧
      e.declarations = pairs.filterMap (fun (name, value) => declaration? name value) ∧
      splitName (tagName inside) = (e.name.qualifier, e.name.localName) ∧
      elementNamespace (String.ofList (tagName inside)) e.name.qualifier
        (e.declarations :: scope) = .ok e.name.namespaceUri ∧
      (pairs.filter fun (name, value) => (declaration? name value).isNone).mapM
        (fun (name, value) => resolveAttribute (String.ofList (tagName inside))
          (e.declarations :: scope) name value) = .ok e.attributes := by
  unfold readElement at h
  split at h
  · cases h
  · next pairs hpairs =>
    rcases hsplit : splitName (tagName inside) with ⟨qualifier, localName⟩
    rw [hsplit] at h
    obtain ⟨uri, huri, h⟩ := bind_eq_ok_iff.1 h
    obtain ⟨attributes, hattributes, h⟩ := bind_eq_ok_iff.1 h
    cases h
    exact ⟨pairs, hpairs, rfl, rfl, huri, hattributes⟩

theorem resolveAttribute_eq_ok {rawName name value : String} {scope : Scope} {a : Attribute}
    (h : resolveAttribute rawName scope name value = .ok a) :
    (a.name.qualifier = none ∧ a.name.namespaceUri = none) ∨
      a.name.namespaceUri.isSome = true ∧ a.name.namespaceUri = lookup? a.name.qualifier scope := by
  unfold resolveAttribute at h
  split at h
  · cases h
    exact Or.inl ⟨rfl, rfl⟩
  · split at h
    · next uri huri =>
      cases h
      exact Or.inr ⟨rfl, huri.symm⟩
    · cases h

theorem elementNamespace_eq_ok {rawName : String} {qualifier : Option String} {scope : Scope}
    {uri : Option String} (h : elementNamespace rawName qualifier scope = .ok uri) :
    uri.getD "" = (lookup? qualifier scope).getD "" := by
  unfold elementNamespace at h
  split at h
  · next uri' huri =>
    rw [huri, ← Except.ok.inj h]
    split
    · next hempty => rw [hempty]; rfl
    · rfl
  · next hnone =>
    rw [hnone]
    split at h
    · cases h
    · cases h
      rfl

/-- What is being built is a well-formed tree whose open nodes are elements. -/
structure Building.Sound (b : Building) : Prop where
  wellFormed : b.tree.WellFormed
  frames : ∀ frame ∈ b.frames, b.tree.isElement frame.id = true

variable {b b' : Building}

namespace Building

theorem Sound.current (h : b.Sound) :
    b.current = Tree.documentId ∨ b.tree.isElement b.current = true := by
  unfold Building.current
  split
  · next frame frames heq =>
    refine Or.inr (h.frames frame ?_)
    rw [heq]
    exact List.mem_cons_self
  · exact Or.inl rfl

theorem Sound.add (h : b.Sound) {kind : NodeKind} (hkind : kind ≠ .document) {id : NodeId}
    (hadd : b.add kind = .ok (b', id)) :
    b'.Sound ∧ b'.frames = b.frames ∧ b'.tree.kind? id = some kind := by
  have planted := Tree.planted_push h.wellFormed hkind
  have fits := planted.fits h.wellFormed h.current
  simp only [Building.add, Tree.appendChild] at hadd
  rcases Tree.insertAt_eq planted.wellFormed fits
    ((b.tree.push kind).1.children b.current).length with ⟨_, heq⟩ | ⟨root, heq⟩
  · rw [heq] at hadd
    cases hadd
  · rw [heq] at hadd
    cases hadd
    have ext := planted.extends_.link planted.top_lt (Nat.le_refl _) b.current
      ((b.tree.push kind).1.children b.current).length
    refine ⟨⟨fits.wellFormed_link planted.wellFormed root _, ?_⟩, rfl, ?_⟩
    · intro frame hframe
      exact ext.isElement (h.frames frame hframe)
    · change (Tree.link _ _ _ _).kind? _ = _
      rw [Tree.kind?_link, Tree.kind?_push, if_pos (Tree.push_snd _ _)]

/-- What an event makes of a tree under construction. -/
inductive Next (b : Building) : Event → Building → Prop
  | header {inside : List Char} {header : Header} (hread : readHeader inside = .ok header) :
    Next b (.header inside) ⟨{ b.tree with header := some header }, b.frames⟩
  | opens {inside : List Char} {e : Element} {b' : Building} {id : NodeId}
    (hread : readElement b.scope inside = .ok e) (hadd : b.add (.element e) = .ok (b', id)) :
    Next b (.startTag inside) ⟨b'.tree, ⟨id, e.declarations⟩ :: b'.frames⟩
  | empty {inside : List Char} {e : Element} {b' : Building} {id : NodeId}
    (hread : readElement b.scope inside = .ok e) (hadd : b.add (.element e) = .ok (b', id)) :
    Next b (.emptyTag inside) b'
  | closes {name : List Char} {frame : Frame} {frames : List Frame}
    (hframes : b.frames = frame :: frames) : Next b (.endTag name) ⟨b.tree, frames⟩
  | outside {raw : List Char} (hframes : b.frames = []) : Next b (.text raw) b
  | text {raw : List Char} {s : String} {b' : Building} {id : NodeId}
    (hadd : b.add (.text s) = .ok (b', id)) : Next b (.text raw) b'
  | characterData {s : List Char} {b' : Building} {id : NodeId}
    (hadd : b.add (.text (String.ofList s)) = .ok (b', id)) : Next b (.characterData s) b'
  | comment {s : List Char} {b' : Building} {id : NodeId}
    (hadd : b.add (.comment (String.ofList s)) = .ok (b', id)) : Next b (.comment s) b'
  | skipped : Next b .skipped b

theorem next_of_step {event : Event} (hstep : b.step event = .ok b') : b.Next event b' := by
  cases event with
  | header inside =>
    simp only [Building.step] at hstep
    split at hstep
    · cases hstep
    · next hread =>
      cases hstep
      exact .header hread
  | startTag inside =>
    simp only [Building.step, bind_eq_ok_iff] at hstep
    obtain ⟨element, hread, ⟨b'', id⟩, hadd, hb⟩ := hstep
    cases hb
    exact .opens hread hadd
  | emptyTag inside =>
    simp only [Building.step, bind_eq_ok_iff] at hstep
    obtain ⟨element, hread, ⟨b'', id⟩, hadd, hb⟩ := hstep
    cases hb
    exact .empty hread hadd
  | endTag name =>
    simp only [Building.step] at hstep
    split at hstep
    · cases hstep
    · next hframes =>
      cases hstep
      exact .closes hframes
  | text raw =>
    simp only [Building.step] at hstep
    split at hstep
    · next hframes =>
      cases hstep
      exact .outside hframes
    · split at hstep
      · cases hstep
      · obtain ⟨⟨_, id⟩, hadd, rfl⟩ := map_eq_ok_iff.1 hstep
        exact .text hadd
  | characterData s =>
    obtain ⟨⟨_, id⟩, hadd, rfl⟩ := map_eq_ok_iff.1 hstep
    exact .characterData hadd
  | comment s =>
    obtain ⟨⟨_, id⟩, hadd, rfl⟩ := map_eq_ok_iff.1 hstep
    exact .comment hadd
  | skipped =>
    cases hstep
    exact .skipped

theorem Sound.step (h : b.Sound) {event : Event} (hstep : b.step event = .ok b') : b'.Sound := by
  cases next_of_step hstep with
  | header hread => exact ⟨h.wellFormed.withHeader _, h.frames⟩
  | opens hread hadd =>
    obtain ⟨sound, _, hk⟩ := h.add (by simp) hadd
    refine ⟨sound.wellFormed, ?_⟩
    intro frame hframe
    rcases List.mem_cons.1 hframe with rfl | hframe
    · exact Tree.isElement_iff.2 ⟨_, hk⟩
    · exact sound.frames frame hframe
  | empty hread hadd => exact (h.add (by simp) hadd).1
  | closes hframes =>
    refine ⟨h.wellFormed, fun outer houter => h.frames outer ?_⟩
    rw [hframes]
    exact List.mem_cons_of_mem _ houter
  | outside hframes => exact h
  | text hadd => exact (h.add (by simp) hadd).1
  | characterData hadd => exact (h.add (by simp) hadd).1
  | comment hadd => exact (h.add (by simp) hadd).1
  | skipped => exact h

end Building

/-- What holds of the tree under construction and the names of its open elements goes on to hold if
every event keeps it. -/
theorem invariant_of_build {I : List (List Char) → Building → Prop}
    (step : ∀ {c s event r opened b opened' b'}, readEvent c s = .ok (event, r) →
      take opened b event = .ok (opened', b') → I opened b → I opened' b')
    (whole : List Char) {opened : List (List Char)} {s : List Char}
    (hbuild : build whole opened b s = .ok b') (h : I opened b) : ∃ opened', I opened' b' := by
  induction hs : s.length using Nat.strong_induction_on generalizing opened b s with
  | _ n ih =>
    unfold build at hbuild
    split at hbuild
    · cases hbuild
      exact ⟨opened, h⟩
    · next c t =>
      split at hbuild
      · cases hbuild
      · next event r hr hevent =>
        split at hbuild
        · cases hbuild
        · next opened' b'' htake =>
          exact ih r.length (hs ▸ hr) hbuild (step hevent htake h) rfl

theorem step_of_take {opened opened' : List (List Char)} {event : Event}
    (h : take opened b event = .ok (opened', b')) :
    matchTags opened event = .ok opened' ∧ b.step event = .ok b' := by
  unfold take at h
  split at h
  · cases h
  · next rest hrest =>
    obtain ⟨made, hstep, e⟩ := map_eq_ok_iff.1 h
    cases e
    exact ⟨hrest, hstep⟩

theorem build_of_read {source : String} {t : Tree} (h : read source = .ok t) :
    build (withoutByteOrderMark source.toList) [] ⟨Tree.empty, []⟩
      (withoutByteOrderMark source.toList) = .ok ⟨t, []⟩ ∧ t.root?.isSome = true := by
  simp only [read] at h
  split at h
  · cases h
  · cases h
  · next tree hbuild =>
    split at h
    · next hroot =>
      cases h
      exact ⟨hbuild, hroot⟩
    · cases h

/-- What is read is a well-formed tree. -/
theorem wellFormed_of_read {source : String} {t : Tree} (h : read source = .ok t) :
    t.WellFormed := by
  have start : (⟨Tree.empty, []⟩ : Building).Sound :=
    ⟨Tree.wellFormed_empty, fun _ h => by cases h⟩
  have step : ∀ {c s event r opened b opened' b'}, readEvent c s = .ok (event, r) →
      take opened b event = .ok (opened', b') → b.Sound → b'.Sound := by
    intro c s event r opened b opened' b' _ htake sound
    exact sound.step (step_of_take htake).2
  obtain ⟨_, sound⟩ := invariant_of_build (I := fun _ b => b.Sound) step _ (build_of_read h).1 start
  exact sound.wellFormed

/-- All elements so far were resolved. -/
theorem Building.every_step {I : Element → Prop}
    (hread : ∀ scope inside e, readElement scope inside = .ok e → I e) (h : b.tree.Every I)
    {event : Event} (hstep : b.step event = .ok b') : b'.tree.Every I := by
  have added : ∀ {kind : NodeKind} {b' : Building} {id : NodeId}, (∀ e, kind = .element e → I e) →
      b.add kind = .ok (b', id) → b'.tree.Every I := by
    intro kind b' id hkind hadd
    simp only [Building.add] at hadd
    split at hadd
    · next tree happend =>
      cases hadd
      exact (h.push hkind).insertAt happend
    · cases hadd
  have element : ∀ {inside : List Char} {e : Element} {b' : Building} {id : NodeId},
      readElement b.scope inside = .ok e → b.add (.element e) = .ok (b', id) →
        b'.tree.Every I := by
    intro inside e b' id he hadd
    refine added ?_ hadd
    rintro _ ⟨⟩
    exact hread _ _ _ he
  cases next_of_step hstep with
  | header _ => exact h
  | opens he hadd =>
    have every := element he hadd
    exact every
  | empty he hadd => exact element he hadd
  | closes _ => exact h
  | outside _ => exact h
  | text hadd => exact added (by simp) hadd
  | characterData hadd => exact added (by simp) hadd
  | comment hadd => exact added (by simp) hadd
  | skipped => exact h

/-- The elements of a document are what its tags read as. -/
theorem every_of_read {I : Element → Prop}
    (hread : ∀ scope inside e, readElement scope inside = .ok e → I e) {source : String} {t : Tree}
    (h : read source = .ok t) : t.Every I := by
  have start : Tree.empty.Every I := by
    intro x e he
    rw [Tree.element?_eq_some_iff, Tree.kind?, Tree.node?_empty] at he
    split at he
    · cases he
    · cases he
  have step : ∀ {c s event r opened b opened' b'}, readEvent c s = .ok (event, r) →
      take opened b event = .ok (opened', b') → b.tree.Every I → b'.tree.Every I := by
    intro c s event r opened b opened' b' _ htake hb
    exact Building.every_step hread hb (step_of_take htake).2
  obtain ⟨_, every⟩ :=
    invariant_of_build (I := fun _ b => b.tree.Every I) step _ (build_of_read h).1 start
  exact every

end Xml

end PartPatch
