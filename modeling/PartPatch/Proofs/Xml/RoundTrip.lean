import Mathlib
import PartPatch.Proofs.Tree.Skeleton
import PartPatch.Proofs.Xml.Legible

/-!
# Writing and reading

Reading undoes writing, whatever the texts and the values of attributes are: what comes back is the
normal form of what was written.
-/

namespace PartPatch

set_option autoImplicit false

variable {e f : Element} {scope : Xml.Scope}

/-! ## Elements with other values -/

theorem Element.exists_attribute_of_skeleton (same : f.skeleton = e.skeleton) :
    ∀ a ∈ f.attributes, ∃ b ∈ e.attributes, b.name = a.name := by
  intro a ha
  have hmem : a.name ∈ e.attributes.map Attribute.name := by
    rw [← Element.names_of_skeleton same]
    exact List.mem_map_of_mem ha
  exact List.mem_map.1 hmem

theorem Element.Plain.of_skeleton (h : e.Plain) (same : f.skeleton = e.skeleton) : f.Plain := by
  refine ⟨?_, ?_, ?_⟩
  · rw [Element.name_of_skeleton same]
    exact h.name
  · intro a ha
    obtain ⟨b, hb, hab⟩ := Element.exists_attribute_of_skeleton same a ha
    rw [← hab]
    exact h.attributes b hb
  · rw [Element.declarations_of_skeleton same]
    exact h.declarations

theorem Element.Resolved.of_skeleton (h : e.Resolved scope) (same : f.skeleton = e.skeleton) :
    f.Resolved scope := by
  have hname := Element.name_of_skeleton same
  have hdeclarations := Element.declarations_of_skeleton same
  refine ⟨?_, ?_, ?_, ?_⟩
  · rw [hname]
    exact h.name
  · rw [hname, hdeclarations]
    exact h.namespaceUri
  · intro a ha
    obtain ⟨b, hb, hab⟩ := Element.exists_attribute_of_skeleton same a ha
    rw [hname, hdeclarations, ← hab]
    exact h.attributes b hb
  · have hattributes := congrArg (List.map QName.qualified) (Element.names_of_skeleton same)
    have hpairs : f.pairs.map Prod.fst = e.pairs.map Prod.fst := by
      simp only [List.map_map] at hattributes
      simp only [Element.pairs, List.map_append, List.map_map, hdeclarations]
      exact congrArg _ hattributes
    rw [hpairs]
    exact h.distinct

theorem Element.Legible.of_skeleton (h : e.Legible scope) (same : f.skeleton = e.skeleton) :
    f.Legible scope := by
  refine ⟨h.resolved.of_skeleton same, h.plain.of_skeleton same, ?_⟩
  rw [Element.Opens, Element.name_of_skeleton same]
  exact h.opens

namespace Content

mutual

theorem Legible.of_skeleton : ∀ {c d : Content} {scope : Xml.Scope}, c.Legible scope →
    d.skeleton = c.skeleton → d.Legible scope
  | .element e cs, .element f ds, scope, h, same => by
    rw [skeleton, skeleton, Content.element.injEq] at same
    have hdeclarations := Element.declarations_of_skeleton same.1
    rw [Legible] at h ⊢
    rw [hdeclarations]
    exact ⟨h.1.of_skeleton same.1, LegibleAll.of_skeleton h.2 same.2⟩
  | .text _, .text _, scope, _, _ => trivial
  | .comment s, .comment r, scope, h, same => by
    rw [skeleton, skeleton, Content.comment.injEq] at same
    rwa [same]
  | .element _ _, .text _, _, _, same => by cases same
  | .element _ _, .comment _, _, _, same => by cases same
  | .text _, .element _ _, _, _, same => by cases same
  | .text _, .comment _, _, _, same => by cases same
  | .comment _, .element _ _, _, _, same => by cases same
  | .comment _, .text _, _, _, same => by cases same

theorem LegibleAll.of_skeleton : ∀ {cs ds : List Content} {scope : Xml.Scope},
    LegibleAll scope cs → skeletons ds = skeletons cs → LegibleAll scope ds
  | [], [], _, _, _ => trivial
  | c :: cs, d :: ds, scope, h, same => by
    rw [skeletons, skeletons, List.cons.injEq] at same
    rw [LegibleAll] at h ⊢
    exact ⟨Legible.of_skeleton h.1 same.1, LegibleAll.of_skeleton h.2 same.2⟩
  | [], _ :: _, _, _, same => by cases same
  | _ :: _, [], _, _, same => by cases same

end

end Content

namespace Xml

/-! ## Documents with other texts -/

/-- A document that was read can be given any texts and values, written and read again. -/
theorem read_write {source : String} {t u : Tree} (hread : read source = .ok t)
    (plain : t.Every Element.Plain) (quotable : ∀ h, t.header = some h → h.Quotable)
    (same : u.skeleton = t.skeleton) :
    ∃ v, read (write u) = .ok v ∧ v.header = u.header ∧
      v.content = Content.normalDocument u.content := by
  have wf := wellFormed_of_read hread
  have asRead := asRead_of_read hread
  have hskeletons : Content.skeletons u.content = Content.skeletons t.content := by
    rw [← Tree.content_skeleton, ← Tree.content_skeleton, same]
  have legible := (Tree.legibleAll_content wf asRead plain).of_skeleton hskeletons
  have root : u.content.countP Content.isElement = 1 := by
    have hsome := (build_of_read hread).2
    have hone := wf.one_root
    have hcount := wf.countP_contentBelow Tree.documentId
    rw [← Tree.content] at hcount
    rw [← Content.countP_skeletons, hskeletons, Content.countP_skeletons]
    rw [Tree.root?, List.isSome_head?, ← List.length_pos_iff] at hsome
    omega
  have hheader := t.header_of_skeleton same
  refine read_write_of_legible legible root ?_
  intro h hh
  rw [hheader] at hh
  exact ⟨quotable h hh, asRead.header h hh⟩

/-- An element with two texts next to one another. -/
def twoTexts : Tree where
  nodes := #[⟨.document, none, [1]⟩,
    ⟨.element ⟨.plain "list", [⟨.plain "id", "1"⟩], [⟨some "p", "urn:doc"⟩]⟩, some 0, [2, 3, 4, 5]⟩,
    ⟨.text "a", some 1, []⟩, ⟨.text "b", some 1, []⟩,
    ⟨.element ⟨⟨some "p", "item", some "urn:doc"⟩, [], []⟩, some 1, []⟩, ⟨.text "c", some 1, []⟩]
  header := some ⟨"1.0", none, some "yes"⟩

/-- The same with markup for texts. -/
def markupTexts : Tree where
  nodes := #[⟨.document, none, [1]⟩,
    ⟨.element ⟨.plain "list", [⟨.plain "id", "\"/>"⟩], [⟨some "p", "urn:doc"⟩]⟩, some 0,
      [2, 3, 4, 5]⟩,
    ⟨.text "<", some 1, []⟩, ⟨.text "&lt;", some 1, []⟩,
    ⟨.element ⟨⟨some "p", "item", some "urn:doc"⟩, [], []⟩, some 1, []⟩, ⟨.text "", some 1, []⟩]
  header := some ⟨"1.0", none, some "yes"⟩

theorem quotable_twoTexts : ∀ h, twoTexts.header = some h → h.Quotable ∧ h.Closed := by
  rintro _ ⟨⟩
  unfold Header.Quotable Header.Closed
  decide

theorem read_twoTexts : read (headerText ⟨"1.0", none, some "yes"⟩ ++
    "<list xmlns:p='urn:doc' id='1'>a<![CDATA[b]]><p:item/>c</list>") = .ok twoTexts := by
  obtain ⟨quotable, closed⟩ := quotable_twoTexts _ rfl
  refine read_of_build ?_ (by decide)
  intro whole
  rw [String.toList_append, build_headerText quotable closed]
  cbv

theorem plain_twoTexts : twoTexts.Every Element.Plain := by
  intro x e he
  rcases x with _ | _ | _ | _ | _ | _ | x
  · cases he
  · cases he
    refine ⟨isName_of_all (by decide) (by decide), ?_, ?_⟩
    · intro a ha
      rw [List.mem_singleton.1 ha]
      exact isName_of_all (by decide) (by decide)
    · intro d hd q hq
      rw [List.mem_singleton.1 hd] at hq
      cases hq
      exact List.all_eq_true.1 (by decide)
  · cases he
  · cases he
  · cases he
    exact ⟨isName_of_all (by decide) (by decide), by simp, by simp⟩
  · cases he
  · cases he

theorem read_write_markupTexts :
    markupTexts.skeleton = twoTexts.skeleton ∧
    ∃ v, read (write markupTexts) = .ok v ∧ v.header = markupTexts.header ∧
      v.content = [.element ⟨.plain "list", [⟨.plain "id", "\"/>"⟩], [⟨some "p", "urn:doc"⟩]⟩
        [.text "<&lt;", .element ⟨⟨some "p", "item", some "urn:doc"⟩, [], []⟩ []]] := by
  have same : markupTexts.skeleton = twoTexts.skeleton := by cbv
  refine ⟨same, ?_⟩
  exact read_write read_twoTexts plain_twoTexts (fun h hh => (quotable_twoTexts h hh).1) same

end Xml

end PartPatch
