import PartPatch.Proofs.Except
import PartPatch.Proofs.Tree.Compact
import PartPatch.Proofs.Tree.Mirror
import PartPatch.Proofs.Tree.Plant

/-!
# Changes in trees that mirror one another

The same change at paired nodes leaves trees that mirror one another, and is refused in both or in
neither. What is added on both sides is paired with each other. Compaction keeps a pair for each
attached node.
-/

namespace PartPatch

set_option autoImplicit false

namespace View

variable {v : View} {q r : QName} {as bs : List Attribute}

theorem matches_congr (h : v.name q = v.name r) (localName : String)
    (namespaceUri : Option String) :
    q.Matches localName namespaceUri ↔ r.Matches localName namespaceUri := by
  rw [← v.matches_name q, h, v.matches_name r]

/-- Names that look the same mean the same. -/
theorem meaning_eq (h : v.name q = v.name r) :
    q.localName = r.localName ∧ q.namespaceUri = r.namespaceUri :=
  (matches_congr h _ _).2 r.matches_self

theorem map_setValue (hname : v.name q = v.name r) (value : String)
    (h : as.map v.attr = bs.map v.attr) :
    (setValue q value as).map v.attr = (setValue r value bs).map v.attr := by
  obtain ⟨hlocal, huri⟩ := meaning_eq hname
  induction as generalizing bs with
  | nil =>
    cases bs with
    | nil =>
      rw [setValue, setValue, List.map_singleton, List.map_singleton, attr, attr, hname]
    | cons b bs => cases h
  | cons a as ih =>
    cases bs with
    | nil => cases h
    | cons b bs =>
      obtain ⟨hab, hrest⟩ := List.cons.inj h
      have hnames : v.name a.name = v.name b.name := congrArg Attribute.name hab
      rw [setValue, setValue, ← hlocal, ← huri]
      by_cases hm : a.name.Matches q.localName q.namespaceUri
      · rw [if_pos hm, if_pos ((matches_congr hnames _ _).1 hm), List.map_cons, List.map_cons,
          hrest, attr, attr, hnames]
      · rw [if_neg hm, if_neg (fun hm' => hm ((matches_congr hnames _ _).2 hm')), List.map_cons,
          List.map_cons, hab, ih hrest]

theorem map_filter_matches (h : as.map v.attr = bs.map v.attr) (localName : String)
    (namespaceUri : Option String) :
    (as.filter fun a => ¬ a.name.Matches localName namespaceUri).map v.attr =
      (bs.filter fun b => ¬ b.name.Matches localName namespaceUri).map v.attr := by
  have seen : ∀ cs : List Attribute,
      (cs.filter fun c => ¬ c.name.Matches localName namespaceUri).map v.attr =
        (cs.map v.attr).filter fun c => ¬ c.name.Matches localName namespaceUri := by
    intro cs
    rw [List.filter_map]
    congr 1
    apply List.filter_congr
    intro c _
    simp only [Function.comp_apply, attr, v.matches_name]
  rw [seen, seen, h]

end View

namespace Tree

variable {v : View} {twin : NodeId → NodeId → Prop} {t t' u u' : Tree}
  {x y parent parent' child child' : NodeId}

/-- The pairs, and one more. -/
def joined (twin : NodeId → NodeId → Prop) (x y : NodeId) : NodeId → NodeId → Prop :=
  fun a b => twin a b ∨ a = x ∧ b = y

/-- The trees mirror one another with pairs that may be more than the given ones. -/
def MirrorsBeyond (v : View) (twin : NodeId → NodeId → Prop) (t u : Tree) : Prop :=
  ∃ twin', (∀ x y, twin x y → twin' x y) ∧ t.Mirrors v twin' u

theorem Mirrors.beyond (m : t.Mirrors v twin u) : t.MirrorsBeyond v twin u :=
  ⟨twin, fun _ _ h => h, m⟩

namespace Mirrors

variable (m : t.Mirrors v twin u)
include m

/-! ## Elements are changed -/

theorem modifyElement (h : twin x y) {f g : Element → Element}
    (hv : ∀ d e, v.element d = v.element e → v.element (f d) = v.element (g e)) :
    (t.modifyElement x f).Mirrors v twin (u.modifyElement y g) where
  wellFormed := m.wellFormed.modifyElement x f
  mirrored := m.mirrored.modifyElement y g
  header := m.header
  document := m.document
  one_to_one := m.one_to_one
  kinds := by
    intro a b hab
    rw [kind?_modifyElement, kind?_modifyElement]
    by_cases hax : a = x
    · rw [if_pos hax, if_pos ((m.one_to_one hab h).1 hax)]
      rcases m.kind?_cases hab with ⟨d, e, hd, he, hde⟩ | ⟨k, hne, hk, hl⟩
      · rw [hd, he]
        exact ⟨_, _, rfl, rfl, congrArg NodeKind.element (hv d e hde)⟩
      · rw [hk, hl]
        cases k with
        | element e => cases hne
        | _ => exact ⟨_, _, rfl, rfl, rfl⟩
    · rw [if_neg hax, if_neg (fun hb => hax ((m.one_to_one hab h).2 hb))]
      exact m.kinds hab
  parents := by
    intro a b hab
    rw [parent?_modifyElement, parent?_modifyElement]
    exact m.parents hab
  children := by
    intro a b hab
    rw [children_modifyElement, children_modifyElement]
    exact m.children hab

theorem setAttribute (h : twin x y) (hx : t.isElement x = true) {q r : QName}
    (hname : v.name q = v.name r) (value : String) :
    Agree (Mirrors v twin) (t.setAttribute x q value) (u.setAttribute y r value) := by
  have hy : u.isElement y = true := by rwa [← m.isElement h]
  rw [Tree.setAttribute, Tree.setAttribute, if_pos hx, if_pos hy]
  refine m.modifyElement h ?_
  intro d e hde
  have hattributes := View.map_setValue hname value (v.map_attr_eq hde)
  simp only [View.element, Element.mk.injEq] at hde ⊢
  exact ⟨hde.1, hattributes, hde.2.2⟩

theorem removeAttribute (h : twin x y) (localName : String) (namespaceUri : Option String) :
    (t.removeAttribute x localName namespaceUri).1.Mirrors v twin
      (u.removeAttribute y localName namespaceUri).1 := by
  rw [Tree.removeAttribute, Tree.removeAttribute]
  rcases m.element?_cases h with ⟨ht, hu⟩ | ⟨d, e, ht, hu, _⟩
  · rw [ht, hu]
    exact m
  · rw [ht, hu]
    refine m.modifyElement h ?_
    intro d e hde
    have hattributes := View.map_filter_matches (v.map_attr_eq hde) localName namespaceUri
    simp only [View.element, Element.mk.injEq] at hde ⊢
    exact ⟨hde.1, hattributes, hde.2.2⟩

/-! ## Nodes are taken from their parents -/

theorem cut {gone gone' : NodeId → Bool} (hgone : ∀ x y, twin x y → gone x = gone' y)
    (h : t.Cut gone t') (h' : u.Cut gone' u') : t'.Mirrors v twin u' where
  wellFormed := m.wellFormed.cut h
  mirrored := m.mirrored.cut h'
  header := by rw [h.header, h'.header, m.header]
  document := m.document
  one_to_one := m.one_to_one
  kinds := by
    intro x y hxy
    rw [h.kinds, h'.kinds]
    exact m.kinds hxy
  parents := by
    intro x y hxy
    rw [h.parents, h'.parents, hgone x y hxy]
    split
    · exact .none
    · exact m.parents hxy
  children := by
    intro x y hxy
    rw [h.children, h'.children]
    refine List.rel_filter ?_ (m.children hxy)
    intro c d hcd
    exact Eq.congr_left (congrArg not (hgone c d hcd))

theorem detach (h : twin x y) : (t.detach x).Mirrors v twin (u.detach y) := by
  refine m.cut ?_ (cut_detach m.wellFormed x) (cut_detach m.mirrored y)
  intro a b hab
  exact decide_eq_decide.2 (m.one_to_one hab h)

theorem clear (h : twin x y) : (t.clear x).Mirrors v twin (u.clear y) := by
  refine m.cut ?_ (cut_clear m.wellFormed x) (cut_clear m.mirrored y)
  intro a b hab
  exact decide_eq_decide.2 (m.mem_iff (m.children h) hab)

/-! ## A node is added -/

theorem push {k l : NodeKind} (hk : k ≠ .document) (hl : l ≠ .document)
    (h : v.kind k = v.kind l) :
    (t.push k).1.Mirrors v (joined twin t.size u.size) (u.push l).1 where
  wellFormed := m.wellFormed.push hk
  mirrored := m.mirrored.push hl
  header := m.header
  document := Or.inl m.document
  one_to_one := by
    have left : ∀ {x y}, twin x y → x ≠ t.size := fun hxy => Nat.ne_of_lt (m.lt_size_left hxy)
    have right : ∀ {x y}, twin x y → y ≠ u.size := fun hxy => Nat.ne_of_lt (m.lt_size_right hxy)
    rintro x x' y y' (hxy | ⟨rfl, rfl⟩) (hxy' | ⟨rfl, rfl⟩)
    · exact m.one_to_one hxy hxy'
    · exact iff_of_false (left hxy) (right hxy)
    · exact iff_of_false (left hxy').symm (right hxy').symm
    · exact iff_of_true rfl rfl
  kinds := by
    rintro x y (hxy | ⟨rfl, rfl⟩)
    · rw [kind?_push, kind?_push, if_neg (Nat.ne_of_lt (m.lt_size_left hxy)),
        if_neg (Nat.ne_of_lt (m.lt_size_right hxy))]
      exact m.kinds hxy
    · rw [kind?_push, kind?_push, if_pos rfl, if_pos rfl]
      exact ⟨k, l, rfl, rfl, h⟩
  parents := by
    rintro x y (hxy | ⟨rfl, rfl⟩)
    · rw [parent?_push, parent?_push]
      have hp := m.parents hxy
      generalize t.parent? x = p at hp
      generalize u.parent? y = q at hp
      cases hp with
      | none => exact .none
      | some hpq => exact .some (Or.inl hpq)
    · rw [parent?_push, parent?_push, parent?_size, parent?_size]
      exact .none
  children := by
    rintro x y (hxy | ⟨rfl, rfl⟩)
    · rw [children_push, children_push]
      exact (m.children hxy).imp fun _ _ hcd => Or.inl hcd
    · rw [children_push, children_push, children_of_size_le (Nat.le_refl _),
        children_of_size_le (Nat.le_refl _)]
      exact .nil

/-! ## A node is attached -/

theorem fits (hp : twin parent parent') (hc : twin child child') (fits : t.Fits parent child) :
    u.Fits parent' child' where
  present := m.lt_size_right hc
  ne_document h := fits.ne_document ((m.eq_document_iff hc).2 h)
  free := by
    have h := m.parents hc
    rw [fits.free] at h
    generalize u.parent? child' = q at h
    cases h
    rfl
  holder := by
    rcases fits.holder with h | h
    · exact Or.inl ((m.eq_document_iff hp).1 h)
    · exact Or.inr (by rwa [← m.isElement hp])
  acyclic h := by
    obtain ⟨a, ha, hap⟩ := m.atOrAbove hp h
    rw [(m.one_to_one ha hc).2 rfl] at hap
    exact fits.acyclic hap

theorem secondRoot_iff (hp : twin parent parent') (hc : twin child child') :
    t.SecondRoot parent child ↔ u.SecondRoot parent' child' := by
  rw [SecondRoot, SecondRoot, m.eq_document_iff hp, m.isElement hc, m.isSome_root?]

omit m in
theorem forall₂_insertIdx {xs ys : List NodeId} (h : List.Forall₂ twin xs ys) (hc : twin x y)
    (position : Nat) : List.Forall₂ twin (xs.insertIdx position x) (ys.insertIdx position y) := by
  induction h generalizing position with
  | nil =>
    cases position with
    | zero => exact .cons hc .nil
    | succ position => exact .nil
  | cons hab hrest ih =>
    cases position with
    | zero => exact .cons hc (.cons hab hrest)
    | succ position => exact .cons hab (ih position)

theorem link (fits : t.Fits parent child) (root : ¬ t.SecondRoot parent child)
    (hp : twin parent parent') (hc : twin child child') (position : Nat) :
    (t.link parent position child).Mirrors v twin (u.link parent' position child') where
  wellFormed := fits.wellFormed_link m.wellFormed root position
  mirrored := by
    refine (m.fits hp hc fits).wellFormed_link m.mirrored ?_ position
    rwa [← m.secondRoot_iff hp hc]
  header := m.header
  document := m.document
  one_to_one := m.one_to_one
  kinds := by
    intro x y hxy
    rw [kind?_link, kind?_link]
    exact m.kinds hxy
  parents := by
    intro x y hxy
    rw [parent?_link fits.present, parent?_link (m.lt_size_right hc)]
    by_cases hx : x = child
    · rw [if_pos hx, if_pos ((m.one_to_one hxy hc).1 hx)]
      exact .some hp
    · rw [if_neg hx, if_neg (fun hy => hx ((m.one_to_one hxy hc).2 hy))]
      exact m.parents hxy
  children := by
    intro x y hxy
    rw [children_link (m.lt_size_left hp), children_link (m.lt_size_right hp)]
    have h := m.children hxy
    by_cases hx : x = parent
    · rw [if_pos hx, if_pos ((m.one_to_one hxy hp).1 hx), h.length_eq]
      exact forall₂_insertIdx h hc _
    · rw [if_neg hx, if_neg (fun hy => hx ((m.one_to_one hxy hp).2 hy))]
      exact h

theorem insertAt (fits : t.Fits parent child) (hp : twin parent parent') (hc : twin child child')
    (position : Nat) :
    Agree (Mirrors v twin) (t.insertAt parent position child)
      (u.insertAt parent' position child') := by
  rcases insertAt_eq m.wellFormed fits position with ⟨root, ht⟩ | ⟨root, ht⟩
  · rcases insertAt_eq m.mirrored (m.fits hp hc fits) position with ⟨_, hu⟩ | ⟨root', _⟩
    · rw [ht, hu]
      exact rfl
    · exact absurd ((m.secondRoot_iff hp hc).1 root) root'
  · rcases insertAt_eq m.mirrored (m.fits hp hc fits) position with ⟨root', _⟩ | ⟨_, hu⟩
    · exact absurd ((m.secondRoot_iff hp hc).2 root') root
    · rw [ht, hu]
      exact m.link fits root hp hc position

theorem appendChild (fits : t.Fits parent child) (hp : twin parent parent')
    (hc : twin child child') :
    Agree (Mirrors v twin) (t.appendChild parent child) (u.appendChild parent' child') := by
  rw [Tree.appendChild, Tree.appendChild, (m.children hp).length_eq]
  exact m.insertAt fits hp hc _

/-- A node that has a parent stands at the same place as its twin. -/
theorem place? (hx : t.Parent parent x) (h : twin x y) :
    ∃ parent' position, twin parent parent' ∧ t.place? x = some (parent, position) ∧
      u.place? y = some (parent', position) := by
  have hmem := (m.wellFormed.mem_children_iff parent x).2 hx
  obtain ⟨position, hposition⟩ := Option.isSome_iff_exists.1 (List.isSome_idxOf?.2 hmem)
  have hrel := m.parents h
  rw [hx] at hrel
  generalize hq : u.parent? y = q at hrel
  cases hrel with
  | some hpq =>
    next parent' =>
    refine ⟨parent', position, hpq, ?_, ?_⟩
    · rw [Tree.place?, hx]
      simp only [hposition, Option.map_some]
    · rw [Tree.place?, hq]
      simp only [← m.idxOf? (m.children hpq) h, hposition, Option.map_some]

theorem insertBefore (hx : t.Parent parent x) (h : twin x y) (fits : t.Fits parent child)
    (hc : twin child child') :
    Agree (Mirrors v twin) (t.insertBefore x child) (u.insertBefore y child') := by
  obtain ⟨parent', position, hp, ht, hu⟩ := m.place? hx h
  rw [Tree.insertBefore, Tree.insertBefore, ht, hu]
  exact m.insertAt fits hp hc position

theorem insertAfter (hx : t.Parent parent x) (h : twin x y) (fits : t.Fits parent child)
    (hc : twin child child') :
    Agree (Mirrors v twin) (t.insertAfter x child) (u.insertAfter y child') := by
  obtain ⟨parent', position, hp, ht, hu⟩ := m.place? hx h
  rw [Tree.insertAfter, Tree.insertAfter, ht, hu]
  exact m.insertAt fits hp hc (position + 1)

/-! ## Content is added -/

theorem setText (h : twin x y) (hx : t.isElement x = true) (text : String) :
    Agree (MirrorsBeyond v twin) (t.setText x text) (u.setText y text) := by
  have hy : u.isElement y = true := by rwa [← m.isElement h]
  rw [Tree.setText, Tree.setText, if_pos hx, if_pos hy]
  have mc := m.clear h
  by_cases htext : text = ""
  · simp only [if_pos htext]
    exact mc.beyond
  · simp only [if_neg htext]
    have hne : NodeKind.text text ≠ .document := by simp
    have holds : x = documentId ∨ (t.clear x).isElement x = true := by
      rw [isElement_eq_of_kind? (kind?_clear t x x)]
      exact Or.inr hx
    have fits := (planted_push mc.wellFormed hne).fits mc.wellFormed holds
    refine ((mc.push hne hne rfl).appendChild fits (Or.inl h) (Or.inr ⟨rfl, rfl⟩)).mono ?_
    intro t' u' m'
    exact ⟨_, fun _ _ hab => Or.inl hab, m'⟩

end Mirrors

mutual

/-- The same content is planted in both trees. -/
theorem Mirrors.plant : ∀ (c : Content) {t u : Tree} {twin : NodeId → NodeId → Prop},
    t.Mirrors v twin u →
    ∃ t' x u' y twin', t.plant c = .ok (t', x) ∧ u.plant c = .ok (u', y) ∧
      (∀ a b, twin a b → twin' a b) ∧ t'.Mirrors v twin' u' ∧ twin' x y
  | .element e children, t, u, twin, m => by
    have hne : NodeKind.element e ≠ .document := by simp
    have mp := m.push hne hne rfl
    have he : (t.push (.element e)).1.isElement t.size = true :=
      isElement_iff.2 ⟨e, by rw [kind?_push, if_pos rfl]⟩
    obtain ⟨t', u', twin', ht, hu, more, m'⟩ := plantAll children mp (Or.inr ⟨rfl, rfl⟩) he
    refine ⟨t', t.size, u', u.size, twin', ?_, ?_, fun a b h => more a b (Or.inl h), m',
      more _ _ (Or.inr ⟨rfl, rfl⟩)⟩
    · rw [Tree.plant]
      change (do return (← (t.push (.element e)).1.plantAll t.size children, t.size)) = _
      rw [ht]
      rfl
    · rw [Tree.plant]
      change (do return (← (u.push (.element e)).1.plantAll u.size children, u.size)) = _
      rw [hu]
      rfl
  | .text s, t, u, twin, m => by
    have hne : NodeKind.text s ≠ .document := by simp
    exact ⟨_, _, _, _, _, rfl, rfl, fun _ _ h => Or.inl h, m.push hne hne rfl, Or.inr ⟨rfl, rfl⟩⟩
  | .comment s, t, u, twin, m => by
    have hne : NodeKind.comment s ≠ .document := by simp
    exact ⟨_, _, _, _, _, rfl, rfl, fun _ _ h => Or.inl h, m.push hne hne rfl, Or.inr ⟨rfl, rfl⟩⟩

theorem Mirrors.plantAll : ∀ (cs : List Content) {t u : Tree} {twin : NodeId → NodeId → Prop}
    {parent parent' : NodeId}, t.Mirrors v twin u → twin parent parent' →
    t.isElement parent = true →
    ∃ t' u' twin', t.plantAll parent cs = .ok t' ∧ u.plantAll parent' cs = .ok u' ∧
      (∀ a b, twin a b → twin' a b) ∧ t'.Mirrors v twin' u'
  | [], t, u, twin, parent, parent', m, hp, _ =>
    ⟨t, u, twin, by rw [Tree.plantAll], by rw [Tree.plantAll], fun _ _ h => h, m⟩
  | c :: cs, t, u, twin, parent, parent', m, hp, helement => by
    obtain ⟨t₁, x, u₁, y, twin₁, ht, hu, more, m₁, hxy⟩ := plant c m
    obtain ⟨_, _, ht', planted⟩ := plant_spec c m.wellFormed
    cases ht.symm.trans ht'
    obtain ⟨t₂, ht₂, _, extends₂, _⟩ := planted.appendChild m.wellFormed helement
    have fits := planted.fits m.wellFormed (Or.inr helement)
    have happend := m₁.appendChild fits (more _ _ hp) hxy
    rw [ht₂] at happend
    rcases hu₂ : u₁.appendChild parent' y with e | u₂
    · rw [hu₂] at happend
      exact happend.elim
    · rw [hu₂] at happend
      obtain ⟨t', u', twin', ht', hu', more', m'⟩ :=
        plantAll cs happend (more _ _ hp) (extends₂.isElement helement)
      refine ⟨t', u', twin', ?_, ?_, fun a b h => more' a b (more a b h), m'⟩
      · rw [Tree.plantAll, ht]
        change (do (← t₁.appendChild parent x).plantAll parent cs) = _
        rw [ht₂]
        exact ht'
      · rw [Tree.plantAll, hu]
        change (do (← u₁.appendChild parent' y).plantAll parent' cs) = _
        rw [hu₂]
        exact hu'

end

/-! ## Compaction -/

theorem WellFormed.forall₂_renames (wf : t.WellFormed) {xs : List NodeId}
    (h : ∀ x ∈ xs, t.Attached x) :
    List.Forall₂ (fun x i => t.Renames i x) xs (xs.filterMap (t.preorder.idxOf? ·)) := by
  induction xs with
  | nil => exact .nil
  | cons x xs ih =>
    obtain ⟨i, hi⟩ := wf.exists_renames (h x List.mem_cons_self)
    rw [List.filterMap_cons_some (f := (t.preorder.idxOf? ·)) (wf.renames_iff.2 hi)]
    exact .cons hi (ih fun y hy => h y (List.mem_cons_of_mem x hy))

theorem WellFormed.mirrors_attachedPart (wf : t.WellFormed) (v : View) :
    t.Mirrors v (fun x i => t.Renames i x) t.attachedPart where
  wellFormed := wf
  mirrored := wf.attachedPart
  header := rfl
  document := wf.renames_document
  one_to_one := by
    intro x y i j hi hj
    constructor
    · intro h
      rw [h] at hi
      exact wf.renames_unique hi hj
    · intro h
      rw [h] at hi
      exact Option.some.inj (hi.symm.trans hj)
  kinds := by
    intro x i hi
    obtain ⟨node, hn⟩ := lt_size_iff.1 (wf.lt_size_of_attached (wf.attached_of_renames hi))
    have hk : t.kind? x = some node.kind := by rw [kind?, hn]; rfl
    exact ⟨node.kind, node.kind, hk, by rw [wf.kind?_attachedPart hi, hk], rfl⟩
  parents := by
    intro x i hi
    cases hp : t.parent? x with
    | none =>
      cases hq : t.attachedPart.parent? i with
      | none => exact .none
      | some j =>
        obtain ⟨p, y, _, hy, hpy⟩ := wf.parent_attachedPart_iff.1 hq
        cases hi.symm.trans hy
        cases hp.symm.trans hpy
    | some p =>
      have hattached : t.Attached p := by
        rcases atOrAbove_iff.1 (wf.attached_of_renames hi) with e | h
        · exact absurd e (wf.ne_document_of_parent hp)
        · obtain ⟨q, hq, hqx⟩ := above_iff.1 h
          rwa [parent_unique hqx hp] at hq
      obtain ⟨j, hj⟩ := wf.exists_renames hattached
      have hji : t.attachedPart.Parent j i := wf.parent_attachedPart_iff.2 ⟨p, x, hj, hi, hp⟩
      rw [hji]
      exact .some hj
  children := by
    intro x i hi
    rw [wf.children_attachedPart hi]
    apply wf.forall₂_renames
    intro c hc
    exact wf.attached_of_mem_children (wf.attached_of_renames hi) hc

theorem WellFormed.mirrors_compact (wf : t.WellFormed) (v : View) :
    ∃ twin, t.Mirrors v twin t.compact.1 := by
  rcases compact_eq wf with h | h
  · rw [h]
    exact ⟨_, wf.mirrors_self v⟩
  · rw [h]
    exact ⟨_, wf.mirrors_attachedPart v⟩

end Tree

end PartPatch
