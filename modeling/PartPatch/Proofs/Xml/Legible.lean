import PartPatch.Proofs.Xml.Document

/-!
# Read documents are legible

The names of an element that was read are resolved in the declarations on its ancestors, no comment
holds the end of a comment and no value of the header holds the end of the header. So if the names
are plain, the content can be written and read again.
-/

namespace PartPatch

set_option autoImplicit false

/-- The declarations are the ones in force below the node, innermost first. -/
inductive Tree.Scoped (t : Tree) : NodeId → Xml.Scope → Prop where
  | document : Scoped t documentId []
  | element {p x : NodeId} {scope : Xml.Scope} {e : Element} (above : Scoped t p scope)
    (parent : t.Parent p x) (here : t.element? x = some e) :
    Scoped t x (e.declarations :: scope)

namespace Tree

variable {t u : Tree} {p x : NodeId} {scope other : Xml.Scope}

theorem Scoped.extends (h : t.Extends u) (hx : t.Scoped x scope) : u.Scoped x scope := by
  induction hx with
  | document => exact .document
  | element above parent here ih =>
    refine .element ih ?_ ?_
    · rw [Parent, h.parents _ (lt_size_of_parent? parent)]
      exact parent
    · rw [element?_eq_some_iff] at here ⊢
      rw [h.kinds _ (lt_size_of_kind? here), here]

theorem Scoped.unique (wf : t.WellFormed) (h : t.Scoped x scope) (h' : t.Scoped x other) :
    scope = other := by
  induction h generalizing other with
  | document =>
    cases h' with
    | document => rfl
    | element above parent here => exact absurd rfl (wf.ne_document_of_parent parent)
  | element above parent here ih =>
    cases h' with
    | document => exact absurd rfl (wf.ne_document_of_parent parent)
    | element above' parent' here' =>
      rw [parent_unique parent' parent] at above'
      rw [ih above']
      cases here.symm.trans here'
      rfl

/-- What reading leaves in a tree. -/
structure AsRead (t : Tree) : Prop where
  elements : ∀ x e, t.element? x = some e →
    ∃ p scope, t.Parent p x ∧ t.Scoped p scope ∧ e.Resolved scope ∧ e.Opens
  comments : ∀ x s, t.kind? x = some (.comment s) → ¬ ['-', '-', '>'] <:+: s.toList
  header : ∀ h, t.header = some h → h.Closed

end Tree

namespace Xml

variable {s name value inside : List Char} {a : RawAttribute} {h : Header} {event : Event}
  {b b' : Building} {kind : NodeKind}

/-! ## The header -/

theorem suffix_skipSpace (s : List Char) : skipSpace s <:+ s :=
  List.dropWhile_suffix _

theorem infix_of_readValue {r : Shorter s} (h : readValue s = .ok (value, r)) :
    value <:+: s ∧ r.1 <:+ s := by
  unfold readValue at h
  split at h
  · cases h
  · next quote t hskip =>
    have ht : t <:+ s := (List.suffix_cons quote t).trans (hskip ▸ suffix_skipSpace s)
    split at h
    · split at h
      · cases h
      · next hmark =>
        cases h
        have hcut := (cutMark?_eq_some (List.cons_ne_nil _ _)).1 ⟨_, hmark⟩
        have hwhole := Text.append_of_cut? hcut
        rw [List.append_assoc] at hwhole
        have hvalue : value <:+: t := ⟨[], _, hwhole.symm⟩
        rw [← List.append_assoc] at hwhole
        exact ⟨hvalue.trans ht.isInfix, List.IsSuffix.trans ⟨_, hwhole.symm⟩ ht⟩
    · cases h

theorem infix_of_readAttribute {r : Shorter s} (h : readAttribute s = .ok (some (a, r))) :
    a.value <:+: s ∧ r.1 <:+ s := by
  unfold readAttribute at h
  split at h
  · cases h
  · next c t hskip =>
    split at h
    · next u hequals =>
      have hu : u <:+ s := by
        have ht : t <:+ s := (List.suffix_cons c t).trans (hskip ▸ suffix_skipSpace s)
        have hdrop : t.dropWhile inAttributeName <:+ s := (List.dropWhile_suffix _).trans ht
        exact (List.suffix_cons _ u).trans (hequals ▸ (suffix_skipSpace _).trans hdrop)
      split at h
      · cases h
      · next hread =>
        cases h
        obtain ⟨hvalue, hrest⟩ := infix_of_readValue hread
        exact ⟨hvalue.trans hu.isInfix, hrest.trans hu⟩
    · cases h

theorem infix_of_findAttribute (h : findAttribute name s = .ok (some value)) : value <:+: s := by
  induction s using findAttribute.induct name with
  | case1 s cause hread =>
    rw [findAttribute, hread] at h
    cases h
  | case2 s hread =>
    rw [findAttribute, hread] at h
    cases h
  | case3 s a r hr hread hname =>
    rw [findAttribute, hread] at h
    simp only [if_pos hname] at h
    cases h
    exact (infix_of_readAttribute hread).1
  | case4 s a r hr hread hname ih =>
    rw [findAttribute, hread] at h
    simp only [if_neg hname] at h
    exact (ih h).trans (infix_of_readAttribute hread).2.isInfix

theorem closed_of_readHeader (hread : readHeader inside = .ok h) (hinside : ¬ ['?', '>'] <:+: inside) :
    h.Closed := by
  have values : ∀ value ∈ h.values, value.toList <:+: inside := by
    unfold readHeader at hread
    split at hread
    · cases hread
    · cases hread
    · next first r hfirst =>
      split at hread
      · cases hread
      · obtain ⟨encoding, hencoding, hread⟩ := bind_eq_ok_iff.1 hread
        obtain ⟨standalone, hstandalone, hread⟩ := bind_eq_ok_iff.1 hread
        cases hread
        intro value hvalue
        simp only [Header.values, List.mem_cons, List.mem_append, Option.mem_toList,
          Option.map_eq_some_iff] at hvalue
        rcases hvalue with rfl | ⟨v, rfl, rfl⟩ | ⟨v, rfl, rfl⟩
        · rw [String.toList_ofList]
          exact (infix_of_readAttribute hfirst).1
        · rw [String.toList_ofList]
          exact infix_of_findAttribute hencoding
        · rw [String.toList_ofList]
          exact infix_of_findAttribute hstandalone
  intro value hvalue inside
  exact hinside (inside.trans (values value hvalue))

/-! ## One event after the other -/

theorem opens_of_readElement {scope : Scope} {e : Element} (hread : readElement scope inside = .ok e)
    (hinside : ∀ c ∈ inside.head?, c ≠ '!' ∧ c ≠ '?') : e.Opens := by
  intro c hc
  rw [(resolved_of_readElement hread).2, tagName] at hc
  refine hinside c ?_
  cases inside with
  | nil => exact hc
  | cons d inside =>
    rw [List.takeWhile_cons] at hc
    split at hc
    · exact hc
    · cases hc

namespace Building

/-- What reading has left so far, and the scopes of the open elements. -/
structure Lawful (b : Building) : Prop where
  sound : b.Sound
  asRead : b.tree.AsRead
  frames : ∀ frame frames, frame :: frames <:+ b.frames →
    b.tree.Scoped frame.id ((frame :: frames).map Frame.declarations)

theorem Lawful.scope_current (h : b.Lawful) : b.tree.Scoped b.current b.scope := by
  unfold current scope
  cases hframes : b.frames with
  | nil => exact .document
  | cons frame frames =>
    exact h.frames frame frames ⟨[], hframes.symm⟩

theorem Lawful.added (h : b.Lawful) (added : b.Added kind b')
    (element : ∀ e, kind = .element e → e.Resolved b.scope ∧ e.Opens)
    (comment : ∀ s, kind = .comment s → ¬ ['-', '-', '>'] <:+: s.toList) : b'.Lawful := by
  refine ⟨added.sound, ⟨?_, ?_, ?_⟩, ?_⟩
  · intro x e he
    rw [Tree.element?_eq_some_iff, added.kinds] at he
    split at he
    · next hx =>
      obtain ⟨resolved, opens⟩ := element e (Option.some.inj he)
      refine ⟨b.current, b.scope, ?_, h.scope_current.extends added.extends_, resolved, opens⟩
      rw [hx]
      exact added.sprouted.parent_new
    · obtain ⟨p, scope, parent, hscope, hnames⟩ :=
        h.asRead.elements x e (Tree.element?_eq_some_iff.2 he)
      refine ⟨p, scope, ?_, hscope.extends added.extends_, hnames⟩
      rw [Tree.Parent, added.extends_.parents x (Tree.lt_size_of_parent? parent)]
      exact parent
  · intro x s hs
    rw [added.kinds] at hs
    split at hs
    · exact comment s (Option.some.inj hs)
    · exact h.asRead.comments x s hs
  · rw [added.header]
    exact h.asRead.header
  · intro frame frames hframes
    rw [added.frames] at hframes
    exact (h.frames frame frames hframes).extends added.extends_

theorem Lawful.leaf (h : b.Lawful) (hkind : kind ≠ .document) (element : ∀ e, kind ≠ .element e)
    (comment : ∀ s, kind = .comment s → ¬ ['-', '-', '>'] <:+: s.toList)
    {id : NodeId} (hadd : b.add kind = .ok (b', id)) : b'.Lawful :=
  h.added (added_of_add h.sound hkind hadd).2 (fun e he => absurd he (element e)) comment

theorem Lawful.tag (h : b.Lawful) {e : Element} {id : NodeId}
    (hread : readElement b.scope inside = .ok e) (hinside : ∀ c ∈ inside.head?, c ≠ '!' ∧ c ≠ '?')
    (hadd : b.add (.element e) = .ok (b', id)) :
    id = b.tree.size ∧ b.Added (.element e) b' ∧ b'.Lawful := by
  obtain ⟨hid, added⟩ := added_of_add h.sound (by simp) hadd
  refine ⟨hid, added, h.added added ?_ ?_⟩
  · rintro _ ⟨⟩
    exact ⟨(resolved_of_readElement hread).1, opens_of_readElement hread hinside⟩
  · rintro _ ⟨⟩

theorem Lawful.withHeader (lawful : b.Lawful) (closed : h.Closed) :
    (⟨{ b.tree with header := some h }, b.frames⟩ : Building).Lawful := by
  have same : b.tree.Extends { b.tree with header := some h } :=
    ⟨Nat.le_refl _, fun _ _ => rfl, fun _ _ => rfl⟩
  refine ⟨⟨lawful.sound.wellFormed.withHeader _, lawful.sound.frames⟩,
    ⟨?_, lawful.asRead.comments, ?_⟩, ?_⟩
  · intro x e he
    obtain ⟨p, scope, parent, hscope, hnames⟩ := lawful.asRead.elements x e he
    exact ⟨p, scope, parent, hscope.extends same, hnames⟩
  · rintro _ ⟨⟩
    exact closed
  · intro frame frames hframes
    exact (lawful.frames frame frames hframes).extends same

theorem Lawful.step (h : b.Lawful) (sane : event.Sane) (hstep : b.step event = .ok b') :
    b'.Lawful := by
  have sound := h.sound.step hstep
  cases next_of_step hstep with
  | header hread => exact h.withHeader (closed_of_readHeader hread sane)
  | opens hread hadd =>
    obtain ⟨rfl, added, lawful⟩ := h.tag hread sane hadd
    refine ⟨sound, lawful.asRead, ?_⟩
    intro frame frames hframes
    rcases List.suffix_cons_iff.1 hframes with heq | hrest
    · cases heq
      have above := lawful.scope_current
      rw [current_congr added.frames] at above
      exact .element above added.sprouted.parent_new (Tree.element?_eq_some_iff.2 added.kind?_new)
    · exact lawful.frames frame frames hrest
  | empty hread hadd => exact (h.tag hread sane hadd).2.2
  | closes heq =>
    refine ⟨sound, h.asRead, ?_⟩
    intro frame' frames' hframes
    apply h.frames
    rw [heq]
    exact hframes.trans (List.suffix_cons _ _)
  | outside _ => exact h
  | text hadd => exact h.leaf (by simp) (by simp) (by simp) hadd
  | characterData hadd => exact h.leaf (by simp) (by simp) (by simp) hadd
  | comment hadd =>
    refine h.leaf (by simp) (by simp) ?_ hadd
    rintro _ ⟨⟩
    rw [String.toList_ofList]
    exact sane
  | skipped => exact h

end Building

/-- What reading leaves in the tree that is read. -/
theorem asRead_of_read {source : String} {t : Tree} (h : read source = .ok t) : t.AsRead := by
  have start : (⟨Tree.empty, []⟩ : Building).Lawful := by
    refine ⟨⟨Tree.wellFormed_empty, fun _ h => by cases h⟩, ⟨?_, ?_, ?_⟩, ?_⟩
    · intro x e he
      rw [Tree.element?_eq_some_iff, Tree.kind?, Tree.node?_empty] at he
      split at he <;> cases he
    · intro x s hs
      rw [Tree.kind?, Tree.node?_empty] at hs
      split at hs <;> cases hs
    · rintro _ ⟨⟩
    · intro frame frames hframes
      cases List.eq_nil_of_suffix_nil hframes
  have step : ∀ {c s event r opened b opened' b'}, readEvent c s = .ok (event, r) →
      take opened b event = .ok (opened', b') → b.Lawful → b'.Lawful := by
    intro c s event r opened b opened' b' hread htake lawful
    exact lawful.step (sane_of_readEvent hread) (step_of_take htake).2
  obtain ⟨_, lawful⟩ :=
    invariant_of_build (I := fun _ b => b.Lawful) step _ (build_of_read h).1 start
  exact lawful.asRead

end Xml

/-! ## The content -/

namespace Content

theorem legibleAll_append {scope : Xml.Scope} {cs ds : List Content} :
    LegibleAll scope (cs ++ ds) ↔ LegibleAll scope cs ∧ LegibleAll scope ds := by
  induction cs with
  | nil => simp [LegibleAll]
  | cons c cs ih => rw [List.cons_append, LegibleAll, LegibleAll, ih, and_assoc]

theorem legibleAll_flatMap {scope : Xml.Scope} {α : Type} {f : α → List Content} {xs : List α}
    (h : ∀ x ∈ xs, LegibleAll scope (f x)) : LegibleAll scope (xs.flatMap f) := by
  induction xs with
  | nil => trivial
  | cons x xs ih =>
    rw [List.flatMap_cons, legibleAll_append]
    exact ⟨h x List.mem_cons_self, ih fun y hy => h y (List.mem_cons_of_mem x hy)⟩

end Content

namespace Tree

variable {t : Tree}

theorem legibleAll_contentUpTo (wf : t.WellFormed) (hread : t.AsRead) (plain : t.Every Element.Plain)
    (fuel : Nat) : ∀ {p x : NodeId} {scope : Xml.Scope}, t.Scoped p scope → t.Parent p x →
    Content.LegibleAll scope (t.contentUpTo fuel x) := by
  induction fuel with
  | zero =>
    intro p x scope _ _
    trivial
  | succ fuel ih =>
    intro p x scope hscope parent
    rw [contentUpTo]
    split
    · next e he =>
      have he := element?_eq_some_iff.2 he
      obtain ⟨p', scope', parent', hscope', resolved, opens⟩ := hread.elements x e he
      rw [parent_unique parent' parent] at hscope'
      rw [hscope'.unique wf hscope] at resolved
      refine ⟨⟨⟨resolved, plain x e he, opens⟩, ?_⟩, trivial⟩
      refine Content.legibleAll_flatMap ?_
      intro c hc
      exact ih (.element hscope parent he) ((wf.mem_children_iff x c).1 hc)
    · exact ⟨trivial, trivial⟩
    · next s hs => exact ⟨hread.comments x s hs, trivial⟩
    · trivial

theorem legibleAll_content (wf : t.WellFormed) (hread : t.AsRead) (plain : t.Every Element.Plain) :
    Content.LegibleAll [] t.content := by
  refine Content.legibleAll_flatMap ?_
  intro c hc
  exact legibleAll_contentUpTo wf hread plain t.size .document ((wf.mem_children_iff _ c).1 hc)

end Tree

end PartPatch
