import PartPatch.Fragment.Instance
import PartPatch.Proofs.Registry.Compile
import PartPatch.Proofs.Tree.Elements

/-!
# The names of a registry

Every name that a compiled registry gives to an element or attribute has a prefix if and only if it
has a namespace, and then the namespace is the one that the registry binds the prefix to. So have
all names of an instance of a fragment.
-/

namespace PartPatch

set_option autoImplicit false

/-- The name has the namespace of its prefix, if it has a prefix, and else none. -/
inductive QName.Within (namespaces : Entries String) : QName → Prop where
  | plain (localName : String) : Within namespaces (.plain localName)
  | prefixed {qualifier uri : String} (localName : String)
    (h : namespaces.find? qualifier = some uri) :
    Within namespaces ⟨some qualifier, localName, some uri⟩

/-- All names of the element are such names. -/
def Element.Within (namespaces : Entries String) (e : Element) : Prop :=
  e.name.Within namespaces ∧ ∀ a ∈ e.attributes, a.name.Within namespaces

/-- The element declares nothing itself, and its name and those of its attributes have the
property. -/
structure Element.Bare (P : QName → List QName → Prop) (e : Element) : Prop where
  declarations : e.declarations = []
  names : P e.name (e.attributes.map Attribute.name)

namespace FragmentNode

variable {P Q : QName → List QName → Prop} {v : Fragment.Values}

mutual

/-- The name of every element and those of its attributes have the property. -/
def Each (P : QName → List QName → Prop) : FragmentNode → Prop
  | .node name attributes _ children => P name (attributes.map Prod.fst) ∧ EachAll P children

def EachAll (P : QName → List QName → Prop) : List FragmentNode → Prop
  | [] => True
  | n :: ns => Each P n ∧ EachAll P ns

end

mutual

theorem clear_render_iff : ∀ {n : FragmentNode},
    (n.render v).Clear (Element.Bare P) ↔ n.Each P
  | .node name attributes text children => by
    have texts : Content.ClearAll (Element.Bare P)
        (text.toList.map fun t => .text (v.render t)) := by
      cases text with
      | none => trivial
      | some t => exact ⟨trivial, trivial⟩
    have names : (attributes.map fun a => Attribute.mk a.1 (v.render a.2)).map Attribute.name =
        attributes.map Prod.fst := by
      rw [List.map_map]
      rfl
    rw [render, Content.Clear, Content.clearAll_append, clearAll_renderAll_iff, Each]
    constructor
    · rintro ⟨⟨_, h⟩, _, children⟩
      rw [names] at h
      exact ⟨h, children⟩
    · rintro ⟨h, children⟩
      rw [← names] at h
      exact ⟨⟨rfl, h⟩, texts, children⟩

theorem clearAll_renderAll_iff : ∀ {ns : List FragmentNode},
    Content.ClearAll (Element.Bare P) (renderAll v ns) ↔ EachAll P ns
  | [] => by rw [renderAll, Content.ClearAll, EachAll]
  | n :: ns => by
    rw [renderAll, Content.ClearAll, EachAll, clear_render_iff, clearAll_renderAll_iff]

end

end FragmentNode

namespace Registry

variable {namespaces : Entries String} {q : QName} {symbol : String}

theorem within_of_resolve {d : NameDefinition} (h : d.resolve namespaces = .ok q) :
    q.Within namespaces := by
  unfold NameDefinition.resolve at h
  split at h
  next qualifier name _ =>
  split at h
  · cases h
  · split at h
    · cases h
      exact .plain name
    · split at h
      · next uri huri =>
        cases h
        exact .prefixed name huri
      · cases h

theorem localName_of_resolve {d : NameDefinition} (h : d.resolve namespaces = .ok q) :
    ':' ∉ q.localName.toList := by
  unfold NameDefinition.resolve at h
  split at h
  next qualifier name _ =>
  split at h
  · cases h
  · next hname =>
    rw [not_or, List.contains_iff_mem] at hname
    split at h
    · cases h
      exact hname.2
    · split at h
      · cases h
        exact hname.2
      · cases h

theorem exists_definition {names : Entries NameDefinition}
    (h : (resolvedNames namespaces names).find? symbol = some q) :
    ∃ definition : NameDefinition, definition.resolve namespaces = .ok q := by
  rw [resolvedNames, Entries.find?_filterMap_eq_some_iff] at h
  obtain ⟨d, _, hd⟩ := h
  exact ⟨d, toOption_eq_some_iff.1 hd⟩

theorem within_attribute? {d : Document} (h : d.resolved.attribute? symbol = some q) :
    q.Within d.namespaces := by
  obtain ⟨_, hd⟩ := exists_definition h
  exact within_of_resolve hd

/-- The names come from definitions. -/
def Defined (namespaces : Entries String) (name : QName) (attributes : List QName) : Prop :=
  ∀ q ∈ name :: attributes, ∃ definition : NameDefinition, definition.resolve namespaces = .ok q

mutual

theorem each_of_node? {d : Document} : ∀ (definition : FragmentDefinition) {n : FragmentNode},
    d.scope.node? definition = some n → n.Each (Defined d.namespaces)
  | .node element attributes text children, n, hn => by
    simp only [Scope.node?, Option.bind_eq_bind, Option.bind_eq_some_iff] at hn
    obtain ⟨name, hname, as, has, t, ht, cs, hcs, e⟩ := hn
    cases e
    rw [FragmentNode.Each]
    refine ⟨?_, eachAll_of_nodes? children hcs⟩
    intro q hq
    rcases List.mem_cons.1 hq with rfl | hq
    · exact exists_definition hname
    · obtain ⟨⟨q, template⟩, hmem, rfl⟩ := List.mem_map.1 hq
      obtain ⟨entry, _, hentry⟩ := mem_of_mapM_eq_some has _ hmem
      simp only [Scope.attribute?, Option.bind_eq_bind, Option.bind_eq_some_iff] at hentry
      obtain ⟨q', hq', _, _, e⟩ := hentry
      cases e
      exact exists_definition hq'

theorem eachAll_of_nodes? {d : Document} :
    ∀ (definitions : List FragmentDefinition) {ns : List FragmentNode},
      d.scope.nodes? definitions = some ns → FragmentNode.EachAll (Defined d.namespaces) ns
  | [], ns, hns => by
    cases hns
    trivial
  | definition :: definitions, ns, hns => by
    simp only [Scope.nodes?, Option.bind_eq_bind, Option.bind_eq_some_iff] at hns
    obtain ⟨n, hn, ns', hns', e⟩ := hns
    cases e
    rw [FragmentNode.EachAll]
    exact ⟨each_of_node? definition hn, eachAll_of_nodes? definitions hns'⟩

end

theorem each_of_fragment? {d : Document} {f : Fragment} {key : String}
    (h : d.resolved.fragment? key = some f) : f.root.Each (Defined d.namespaces) := by
  obtain ⟨definition, _, hnode⟩ := fragment?_resolved h
  exact each_of_node? definition hnode

theorem every_render_fragment {d : Document} {f : Fragment} {key : String}
    (h : d.resolved.fragment? key = some f) (v : Fragment.Values) :
    (f.root.render v).Every (Element.Within d.namespaces) := by
  refine (FragmentNode.clear_render_iff.2 (each_of_fragment? h)).every.mono ?_
  intro e bare
  have within : ∀ q ∈ e.name :: e.attributes.map Attribute.name, q.Within d.namespaces := by
    intro q hq
    obtain ⟨_, hd⟩ := bare.names q hq
    exact within_of_resolve hd
  refine ⟨within _ List.mem_cons_self, ?_⟩
  intro a ha
  exact within _ (List.mem_cons_of_mem _ (List.mem_map_of_mem ha))

end Registry

end PartPatch
