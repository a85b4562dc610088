import PartPatch.Proofs.Except
import PartPatch.Proofs.Tree.Compact
import PartPatch.Proofs.Tree.Plant

/-!
# The elements of a tree after a change

What holds of all elements in the array, attached or not, still holds after a change if it holds of
what the change makes of an element and of what it adds.
-/

namespace PartPatch

set_option autoImplicit false

variable {I J : Element → Prop}

namespace Content

mutual

/-- All elements of the content have the property. -/
def Every (I : Element → Prop) : Content → Prop
  | .element e children => I e ∧ EveryAll I children
  | .text _ => True
  | .comment _ => True

def EveryAll (I : Element → Prop) : List Content → Prop
  | [] => True
  | c :: cs => Every I c ∧ EveryAll I cs

end

theorem everyAll_iff {cs : List Content} : EveryAll I cs ↔ ∀ c ∈ cs, c.Every I := by
  induction cs with
  | nil => simp [EveryAll]
  | cons c cs ih => rw [EveryAll, ih, List.forall_mem_cons]

theorem everyAll_append {cs ds : List Content} :
    EveryAll I (cs ++ ds) ↔ EveryAll I cs ∧ EveryAll I ds := by
  rw [everyAll_iff, everyAll_iff, everyAll_iff, List.forall_mem_append]

mutual

theorem Every.mono (hIJ : ∀ e, I e → J e) : ∀ {c : Content}, c.Every I → c.Every J
  | .element e _, h => by
    rw [Every] at h ⊢
    exact ⟨hIJ e h.1, EveryAll.mono hIJ h.2⟩
  | .text _, _ => trivial
  | .comment _, _ => trivial

theorem EveryAll.mono (hIJ : ∀ e, I e → J e) : ∀ {cs : List Content}, EveryAll I cs → EveryAll J cs
  | [], _ => trivial
  | _ :: _, h => by
    rw [EveryAll] at h ⊢
    exact ⟨Every.mono hIJ h.1, EveryAll.mono hIJ h.2⟩

end

mutual

/-- All elements of the content have the property, and no comment holds the end of a comment. -/
def Clear (I : Element → Prop) : Content → Prop
  | .element e children => I e ∧ ClearAll I children
  | .text _ => True
  | .comment s => ¬ ['-', '-', '>'] <:+: s.toList

def ClearAll (I : Element → Prop) : List Content → Prop
  | [] => True
  | c :: cs => Clear I c ∧ ClearAll I cs

end

theorem clearAll_append {cs ds : List Content} :
    ClearAll I (cs ++ ds) ↔ ClearAll I cs ∧ ClearAll I ds := by
  induction cs with
  | nil => simp [ClearAll]
  | cons c cs ih => rw [List.cons_append, ClearAll, ClearAll, ih, and_assoc]

mutual

theorem Clear.mono (hIJ : ∀ e, I e → J e) : ∀ {c : Content}, c.Clear I → c.Clear J
  | .element e _, h => by
    rw [Clear] at h ⊢
    exact ⟨hIJ e h.1, ClearAll.mono hIJ h.2⟩
  | .text _, _ => trivial
  | .comment _, h => h

theorem ClearAll.mono (hIJ : ∀ e, I e → J e) : ∀ {cs : List Content}, ClearAll I cs → ClearAll J cs
  | [], _ => trivial
  | _ :: _, h => by
    rw [ClearAll] at h ⊢
    exact ⟨Clear.mono hIJ h.1, ClearAll.mono hIJ h.2⟩

end

mutual

theorem Clear.every : ∀ {c : Content}, c.Clear I → c.Every I
  | .element e _, h => by
    rw [Clear] at h
    rw [Every]
    exact ⟨h.1, ClearAll.every h.2⟩
  | .text _, _ => trivial
  | .comment _, _ => trivial

theorem ClearAll.every : ∀ {cs : List Content}, ClearAll I cs → EveryAll I cs
  | [], _ => trivial
  | _ :: _, h => by
    rw [ClearAll] at h
    rw [EveryAll]
    exact ⟨Clear.every h.1, ClearAll.every h.2⟩

end

end Content

namespace Tree

variable {t u : Tree} {x parent child : NodeId} {e : Element}

/-- All elements in the array have the property. -/
def Every (I : Element → Prop) (t : Tree) : Prop :=
  ∀ x e, t.element? x = some e → I e

theorem everyAll_contentUpTo (h : t.Every I) (fuel : Nat) :
    ∀ x, Content.EveryAll I (t.contentUpTo fuel x) := by
  induction fuel with
  | zero =>
    intro x
    trivial
  | succ fuel ih =>
    intro x
    rw [contentUpTo]
    split
    · next e he =>
      refine ⟨⟨h x e (element?_eq_some_iff.2 he), ?_⟩, trivial⟩
      rw [Content.everyAll_iff]
      intro c hc
      obtain ⟨y, _, hc⟩ := List.mem_flatMap.1 hc
      exact Content.everyAll_iff.1 (ih y) c hc
    · exact ⟨trivial, trivial⟩
    · exact ⟨trivial, trivial⟩
    · trivial

theorem everyAll_content (h : t.Every I) : Content.EveryAll I t.content := by
  rw [Content.everyAll_iff]
  intro c hc
  obtain ⟨y, _, hc⟩ := List.mem_flatMap.1 hc
  exact Content.everyAll_iff.1 (everyAll_contentUpTo h t.size y) c hc

namespace Every

theorem mono (h : t.Every I) (hIJ : ∀ e, I e → J e) : t.Every J :=
  fun x e he => hIJ e (h x e he)

/-- Parents and children do not matter. -/
theorem of_kinds (h : t.Every I) (kinds : ∀ x, u.kind? x = t.kind? x) : u.Every I := by
  intro x e he
  apply h x e
  rwa [element?_eq_some_iff, ← kinds, ← element?_eq_some_iff]

theorem push (h : t.Every I) {kind : NodeKind} (hkind : ∀ e, kind = .element e → I e) :
    (t.push kind).1.Every I := by
  intro x e he
  rw [element?_eq_some_iff, kind?_push] at he
  split at he
  · exact hkind e (Option.some.inj he)
  · exact h x e (element?_eq_some_iff.2 he)

theorem modifyElement (h : t.Every I) {f : Element → Element} (hIJ : ∀ e, I e → J e)
    (hf : ∀ e, t.element? x = some e → I e → J (f e)) : (t.modifyElement x f).Every J := by
  intro y e he
  rw [element?_modifyElement] at he
  split at he
  · next hy =>
    obtain ⟨e', he', rfl⟩ := Option.map_eq_some_iff.1 he
    rw [hy] at he'
    exact hf e' he' (h x e' he')
  · exact hIJ e (h y e he)

theorem insertAt (h : t.Every I) {position : Nat}
    (hu : t.insertAt parent position child = .ok u) : u.Every I := by
  have hlink : u = t.link parent position child := by
    unfold Tree.insertAt at hu
    repeat' split at hu
    all_goals cases hu
    · rfl
    · rfl
  rw [hlink]
  exact h.of_kinds (kind?_link t parent position child)

theorem insertBefore (h : t.Every I) {reference : NodeId}
    (hu : t.insertBefore reference child = .ok u) : u.Every I := by
  unfold Tree.insertBefore at hu
  split at hu
  · cases hu
  · exact h.insertAt hu

theorem insertAfter (h : t.Every I) {reference : NodeId}
    (hu : t.insertAfter reference child = .ok u) : u.Every I := by
  unfold Tree.insertAfter at hu
  split at hu
  · cases hu
  · exact h.insertAt hu

theorem detach (h : t.Every I) (x : NodeId) : (t.detach x).Every I :=
  h.of_kinds (kind?_detach t x)

theorem setText (h : t.Every I) {text : String} (hu : t.setText x text = .ok u) : u.Every I := by
  have hclear : (t.clear x).Every I := h.of_kinds (kind?_clear t x)
  unfold Tree.setText at hu
  split at hu
  · split at hu
    · cases hu
      exact hclear
    · refine insertAt (hclear.push ?_) hu
      intro e he
      cases he
  · cases hu

theorem setAttribute (h : t.Every I) {name : QName} {value : String} (hIJ : ∀ e, I e → J e)
    (hf : ∀ e, t.element? x = some e → I e →
      J { e with attributes := setValue name value e.attributes })
    (hu : t.setAttribute x name value = .ok u) : u.Every J := by
  unfold Tree.setAttribute at hu
  split at hu
  · cases hu
    exact h.modifyElement hIJ hf
  · cases hu

theorem removeAttribute (h : t.Every I) {localName : String} {namespaceUri : Option String}
    (hf : ∀ e, I e → ∀ attributes, attributes.Sublist e.attributes → I { e with attributes }) :
    (t.removeAttribute x localName namespaceUri).1.Every I := by
  unfold Tree.removeAttribute
  split
  · exact h
  · exact h.modifyElement (fun _ he => he) fun e _ he => hf e he _ List.filter_sublist

theorem compact (h : t.Every I) (wf : t.WellFormed) : t.compact.1.Every I := by
  rcases compact_eq wf with hc | hc
  · rwa [hc]
  · rw [hc]
    intro i e he
    rw [element?_eq_some_iff] at he
    obtain ⟨x, hx⟩ := wf.lt_size_attachedPart (lt_size_of_kind? he)
    rw [wf.kind?_attachedPart hx] at he
    exact h x e (element?_eq_some_iff.2 he)

mutual

theorem plant : ∀ (c : Content) {t u : Tree} {top : NodeId}, t.Every I → c.Every I →
    t.plant c = .ok (u, top) → u.Every I
  | .element e children, t, u, top, h, hc, hu => by
    rw [Content.Every] at hc
    rw [Tree.plant] at hu
    obtain ⟨v, hv, e⟩ := bind_eq_ok_iff.1 hu
    cases e
    refine plantAll children (h.push ?_) hc.2 hv
    rintro _ ⟨⟩
    exact hc.1
  | .text s, t, u, top, h, hc, hu => by
    cases hu
    refine h.push ?_
    rintro _ ⟨⟩
  | .comment s, t, u, top, h, hc, hu => by
    cases hu
    refine h.push ?_
    rintro _ ⟨⟩

theorem plantAll : ∀ (cs : List Content) {t u : Tree} {parent : NodeId}, t.Every I →
    Content.EveryAll I cs → t.plantAll parent cs = .ok u → u.Every I
  | [], t, u, parent, h, _, hu => by
    rw [Tree.plantAll] at hu
    cases hu
    exact h
  | c :: cs, t, u, parent, h, hc, hu => by
    rw [Content.EveryAll] at hc
    rw [Tree.plantAll] at hu
    obtain ⟨⟨v, top⟩, hv, hu⟩ := bind_eq_ok_iff.1 hu
    obtain ⟨w, hw, hu⟩ := bind_eq_ok_iff.1 hu
    exact plantAll cs ((plant c h hc.1 hv).insertAt hw) hc.2 hu

end

end Every

end Tree

/-- Only the name that is set is new. -/
theorem name_of_mem_setValue {name : QName} {value : String} {attributes : List Attribute}
    {a : Attribute} (h : a ∈ setValue name value attributes) :
    a.name = name ∨ ∃ b ∈ attributes, a.name = b.name := by
  induction attributes with
  | nil =>
    rw [setValue, List.mem_singleton] at h
    rw [h]
    exact Or.inl rfl
  | cons b rest ih =>
    rw [setValue] at h
    split at h
    · rcases List.mem_cons.1 h with rfl | h
      · exact Or.inr ⟨b, List.mem_cons_self, rfl⟩
      · exact Or.inr ⟨a, List.mem_cons_of_mem b h, rfl⟩
    · rcases List.mem_cons.1 h with rfl | h
      · exact Or.inr ⟨a, List.mem_cons_self, rfl⟩
      · rcases ih h with e | ⟨c, hc, e⟩
        · exact Or.inl e
        · exact Or.inr ⟨c, List.mem_cons_of_mem b hc, e⟩

end PartPatch
