import Mathlib
import PartPatch.Proofs.Xml.Legible

/-!
# Namespaces of a read document

At an element a prefix stands for what its first declaration says, looked for on the element itself
and then on one ancestor after the other. Reading gives every name the namespace that its prefix
stands for where the name is, and rejects a text in which a tag uses a prefix that neither the tag
itself nor a tag open around it declares.
-/

namespace PartPatch

set_option autoImplicit false

/-- What the prefix, or the absence of one, stands for at the node. -/
def Tree.uri? (t : Tree) (x : NodeId) (qualifier : Option String) : Option String :=
  if qualifier = some "xml" then some Xml.xmlNamespace
  else (t.lineage x).findSome? fun y => (t.element? y).bind fun e =>
    (e.declarations.find? fun d => d.qualifier = qualifier).map NamespaceDecl.uri

/-- The names of the element are in the namespaces that their prefixes stand for. An empty namespace
is none for the element itself, and no attribute is in a namespace without a prefix. -/
structure Element.InScope (uri? : Option String → Option String) (e : Element) : Prop where
  declared : e.name.qualifier.isSome = true → (uri? e.name.qualifier).isSome = true
  name : e.name.namespaceUri = (uri? e.name.qualifier).filter (· ≠ "")
  prefixed : ∀ a ∈ e.attributes, a.name.qualifier.isSome = true →
    (uri? a.name.qualifier).isSome = true ∧ a.name.namespaceUri = uri? a.name.qualifier
  unprefixed : ∀ a ∈ e.attributes, a.name.qualifier = none → a.name.namespaceUri = none

namespace Tree

variable {t : Tree} {x : NodeId} {scope : Xml.Scope}

/-- The reader's stack of declarations leads to the same declaration. -/
theorem uri?_of_scoped (wf : t.WellFormed) (h : t.Scoped x scope) (qualifier : Option String) :
    t.uri? x qualifier = Xml.lookup? qualifier scope := by
  by_cases hxml : qualifier = some "xml"
  · rw [uri?, Xml.lookup?, if_pos hxml, if_pos hxml]
  · induction h with
    | document =>
      have hdocument : t.element? documentId = none := by
        rw [Tree.element?, (wf.document_iff documentId).2 rfl]
      rw [uri?, if_neg hxml, wf.lineage_eq, wf.document_top, Xml.lookup?, if_neg hxml]
      simp [hdocument]
    | @element p x scope e above parent here ih =>
      rw [uri?, if_neg hxml] at ih ⊢
      rw [wf.lineage_of_parent parent, List.findSome?_cons, here, Xml.lookup?_cons hxml, ← ih]
      cases hown : e.declarations.find? fun d => d.qualifier = qualifier with
      | none => rw [Option.bind_some, hown, Option.map_none, Option.none_or]
      | some d => rw [Option.bind_some, hown, Option.map_some, Option.some_or]

end Tree

namespace Xml

variable {scope : Scope} {inside : List Char} {e : Element} {qualifier : String} {b b' : Building}
  {event : Event} {es : List Event}

/-- A name that is taken has a prefix that is bound, if it has one. -/
theorem of_elementNamespace {rawName : String} {qualifier uri : Option String}
    (h : elementNamespace rawName qualifier scope = .ok uri) :
    (qualifier.isSome = true → (lookup? qualifier scope).isSome = true) ∧
      uri = (lookup? qualifier scope).filter (· ≠ "") := by
  unfold elementNamespace at h
  split at h
  · next bound hbound =>
    rw [hbound, ← Except.ok.inj h]
    refine ⟨fun _ => rfl, ?_⟩
    by_cases hempty : bound = ""
    · simp [Option.filter, hempty]
    · simp [Option.filter, hempty]
  · next hnone =>
    rw [hnone]
    split at h
    · cases h
    · cases h
      exact ⟨fun hq => hq, rfl⟩

/-- Without a prefix an attribute is in no namespace. -/
theorem unprefixed_of_resolveAttribute {rawName name value : String} {a : Attribute}
    (h : resolveAttribute rawName scope name value = .ok a) (hq : a.name.qualifier = none) :
    a.name.namespaceUri = none := by
  unfold resolveAttribute at h
  split at h
  · cases h
    rfl
  · split at h
    · cases h
      cases hq
    · cases h

/-- The names of an element that a tag opens are in scope. -/
theorem inScope_of_resolved (h : e.Resolved scope) :
    e.InScope fun qualifier => lookup? qualifier (e.declarations :: scope) := by
  obtain ⟨declared, name⟩ := of_elementNamespace h.namespaceUri
  refine ⟨declared, name, ?_, ?_⟩
  · intro a ha hq
    obtain ⟨hsome, hbound⟩ := h.bound a ha hq
    exact ⟨hbound ▸ hsome, hbound⟩
  · intro a ha hq
    exact unprefixed_of_resolveAttribute (h.attributes a ha a.value).2 hq

/-! ## The markup of a text -/

/-- The markup of a text, piece by piece. -/
def events (s : List Char) : Except Malformation (List Event) :=
  match s with
  | [] => .ok []
  | c :: t =>
    match readEvent c t with
    | .error cause => .error cause
    | .ok (event, ⟨r, _⟩) => (events r).map (event :: ·)
termination_by s.length
decreasing_by
  all_goals
    simp only [List.length_cons] at *
    omega

/-- What stands inside of the tag, if the event opens an element. -/
def Event.tag? : Event → Option (List Char)
  | .startTag inside => some inside
  | .emptyTag inside => some inside
  | _ => none

/-- The tags whose elements are open behind the event, innermost first. -/
def openTags (tags : List (List Char)) : Event → List (List Char)
  | .startTag inside => inside :: tags
  | .endTag _ => tags.tail
  | _ => tags

/-- The declarations that stand in a tag. -/
def tagDeclarations (inside : List Char) : List NamespaceDecl :=
  match tagAttributes inside with
  | .ok pairs => pairs.filterMap fun (name, value) => declaration? name value
  | .error _ => []

/-- The names in a tag, which are those of its element and of the attributes that declare
nothing. -/
def tagNames (inside : List Char) (pairs : List (String × String)) : List (List Char) :=
  tagName inside :: (pairs.filter fun (name, value) => (declaration? name value).isNone).map
    fun (name, _) => name.toList

/-- Every prefix in a tag is declared in it or in a tag around it. -/
def Declared (es : List Event) : Prop :=
  ∀ before event behind, es = before ++ event :: behind → ∀ inside ∈ event.tag?,
    ∃ pairs, tagAttributes inside = .ok pairs ∧
      ∀ name ∈ tagNames inside pairs, ∀ qualifier localName,
        splitName name = (some qualifier, localName) → qualifier ≠ "xml" →
          ∃ tag ∈ inside :: before.foldl openTags [],
            ∃ d ∈ tagDeclarations tag, d.qualifier = some qualifier

theorem events_of_reads {s rest : List Char} (h : Reads s event rest) :
    events s = (events rest).map (event :: ·) := by
  obtain ⟨c, t, _, rfl, hread⟩ := h
  rw [events, hread]

/-- A text that is read is taken in by its events. -/
theorem exists_events_of_build {whole : List Char} {opened : List (List Char)} {s : List Char}
    (h : build whole opened b s = .ok b') :
    ∃ es, events s = .ok es ∧ es.foldlM Building.step b = .ok b' := by
  induction hs : s.length using Nat.strong_induction_on generalizing opened b s with
  | _ n ih =>
    unfold build at h
    split at h
    · cases h
      exact ⟨[], by rw [events], rfl⟩
    · next c t =>
      split at h
      · cases h
      · next event r hr hevent =>
        split at h
        · cases h
        · next opened' b'' htake =>
          obtain ⟨es, hes, hrun⟩ := ih r.length (hs ▸ hr) h rfl
          refine ⟨event :: es, ?_, ?_⟩
          · rw [events_of_reads ⟨c, t, hr, rfl, hevent⟩, hes]
            rfl
          · rw [List.foldlM_cons, (step_of_take htake).2]
            exact hrun

theorem frames_of_add {kind : NodeKind} {id : NodeId} (h : b.add kind = .ok (b', id)) :
    b'.frames = b.frames := by
  simp only [Building.add] at h
  split at h
  · cases h
    rfl
  · cases h

theorem declarations_of_readElement (h : readElement scope inside = .ok e) :
    e.declarations = tagDeclarations inside := by
  obtain ⟨pairs, hpairs, hdeclarations, _⟩ := readElement_eq_ok h
  rw [tagDeclarations, hpairs, hdeclarations]

/-- The declarations in force while reading are those of the open tags. -/
theorem scope_of_step {tags : List (List Char)} (h : b.scope = tags.map tagDeclarations)
    (hstep : b.step event = .ok b') : b'.scope = (openTags tags event).map tagDeclarations := by
  have kept : ∀ {kind : NodeKind} {b' : Building} {id : NodeId}, b.add kind = .ok (b', id) →
      b'.scope = tags.map tagDeclarations := by
    intro kind b' id hadd
    rw [Building.scope, frames_of_add hadd]
    exact h
  cases Building.next_of_step hstep with
  | header _ => exact h
  | opens hread hadd =>
    rw [Building.scope, List.map_cons, frames_of_add hadd, declarations_of_readElement hread,
      openTags, List.map_cons, ← h]
    rfl
  | empty _ hadd => exact kept hadd
  | closes hframes =>
    rw [openTags, List.map_tail, ← h, Building.scope, Building.scope, hframes, List.map_cons,
      List.tail_cons]
  | outside _ => exact h
  | text hadd => exact kept hadd
  | characterData hadd => exact kept hadd
  | comment hadd => exact kept hadd
  | skipped => exact h

theorem scope_of_steps {tags : List (List Char)} (h : b.scope = tags.map tagDeclarations)
    (hsteps : es.foldlM Building.step b = .ok b') :
    b'.scope = (es.foldl openTags tags).map tagDeclarations := by
  induction es generalizing b tags with
  | nil =>
    cases hsteps
    exact h
  | cons event es ih =>
    rw [List.foldlM_cons, bind_eq_ok_iff] at hsteps
    obtain ⟨b'', hstep, hsteps⟩ := hsteps
    exact ih (scope_of_step h hstep) hsteps

/-- A prefix that is bound is declared somewhere. -/
theorem exists_declaration {tags : List (List Char)} (hxml : qualifier ≠ "xml")
    (h : (lookup? (some qualifier) (tags.map tagDeclarations)).isSome = true) :
    ∃ tag ∈ tags, ∃ d ∈ tagDeclarations tag, d.qualifier = some qualifier := by
  rw [lookup?, if_neg (by simpa using hxml), Option.isSome_map, List.find?_isSome] at h
  obtain ⟨d, hd, hq⟩ := h
  obtain ⟨declarations, hdeclarations, hd⟩ := List.mem_flatten.1 hd
  obtain ⟨tag, htag, rfl⟩ := List.mem_map.1 hdeclarations
  exact ⟨tag, htag, d, hd, of_decide_eq_true hq⟩

/-- The prefixes of a tag that opens an element are bound. -/
theorem bound_of_readElement (h : readElement scope inside = .ok e) :
    ∃ pairs, tagAttributes inside = .ok pairs ∧ ∀ name ∈ tagNames inside pairs,
      ∀ qualifier localName, splitName name = (some qualifier, localName) →
        (lookup? (some qualifier) (tagDeclarations inside :: scope)).isSome = true := by
  obtain ⟨pairs, hpairs, _, hown, huri, hattributes⟩ := readElement_eq_ok h
  rw [declarations_of_readElement h] at huri hattributes
  refine ⟨pairs, hpairs, ?_⟩
  intro name hname qualifier localName hsplit
  rcases List.mem_cons.1 hname with rfl | hname
  · rw [hsplit, Prod.mk.injEq] at hown
    rw [← hown.1] at huri
    exact (of_elementNamespace huri).1 rfl
  · obtain ⟨⟨written, value⟩, hpair, rfl⟩ := List.mem_map.1 hname
    obtain ⟨a, _, hresolve⟩ := mem_of_mapM_eq_ok hattributes _ hpair
    simp only [resolveAttribute, hsplit] at hresolve
    split at hresolve
    · next uri huri =>
      rw [huri]
      rfl
    · cases hresolve

/-- Events that are all taken in use no prefix that is not declared. -/
theorem declared_of_steps (h : es.foldlM Building.step ⟨Tree.empty, []⟩ = .ok b') :
    Declared es := by
  rintro before event behind rfl inside hinside
  rw [List.foldlM_append, bind_eq_ok_iff] at h
  obtain ⟨b, hbefore, h⟩ := h
  rw [List.foldlM_cons, bind_eq_ok_iff] at h
  obtain ⟨b'', hstep, _⟩ := h
  have hscope : b.scope = (before.foldl openTags []).map tagDeclarations :=
    scope_of_steps rfl hbefore
  have hread : ∃ e, readElement b.scope inside = .ok e := by
    cases event with
    | startTag inside' =>
      cases hinside
      obtain ⟨e, he, _⟩ := bind_eq_ok_iff.1 hstep
      exact ⟨e, he⟩
    | emptyTag inside' =>
      cases hinside
      obtain ⟨e, he, _⟩ := bind_eq_ok_iff.1 hstep
      exact ⟨e, he⟩
    | _ => cases hinside
  obtain ⟨e, hread⟩ := hread
  obtain ⟨pairs, hpairs, bound⟩ := bound_of_readElement hread
  refine ⟨pairs, hpairs, ?_⟩
  intro name hname qualifier localName hsplit hxml
  have hbound := bound name hname qualifier localName hsplit
  rw [hscope, ← List.map_cons] at hbound
  exact exists_declaration hxml hbound

/-- Reading resolves all names where they are, and no prefix in the text is left undeclared. -/
theorem inScope_of_read {source : String} {t : Tree} (h : read source = .ok t) :
    (∀ x e, t.element? x = some e → e.InScope (t.uri? x)) ∧
      ∃ es, events (withoutByteOrderMark source.toList) = .ok es ∧ Declared es := by
  have wf := wellFormed_of_read h
  constructor
  · intro x e he
    obtain ⟨p, scope, parent, hscope, resolved, _⟩ := (asRead_of_read h).elements x e he
    have here : t.Scoped x (e.declarations :: scope) := .element hscope parent he
    have same : t.uri? x = fun qualifier => lookup? qualifier (e.declarations :: scope) := by
      funext qualifier
      exact Tree.uri?_of_scoped wf here qualifier
    rw [same]
    exact inScope_of_resolved resolved
  · obtain ⟨es, hes, hrun⟩ := exists_events_of_build (build_of_read h).1
    exact ⟨es, hes, declared_of_steps hrun⟩

/-- A prefix is bound anew behind the attribute that uses it, and the default namespace is taken
back. -/
def shadowed : Tree where
  nodes := #[⟨.document, none, [1]⟩,
    ⟨.element ⟨⟨none, "list", some "urn:a"⟩, [], [⟨none, "urn:a"⟩, ⟨some "p", "urn:b"⟩]⟩, some 0,
      [2, 3]⟩,
    ⟨.element ⟨⟨some "p", "item", some "urn:c"⟩, [⟨⟨some "p", "id", some "urn:c"⟩, "1"⟩,
      ⟨.plain "id", "2"⟩], [⟨some "p", "urn:c"⟩]⟩, some 1, []⟩,
    ⟨.element ⟨.plain "gap", [⟨⟨some "p", "id", some "urn:b"⟩, "3"⟩], [⟨none, ""⟩]⟩, some 1, []⟩]
  header := none

def shadowedText : String :=
  "<list xmlns='urn:a' xmlns:p='urn:b'><p:item p:id='1' xmlns:p='urn:c' id='2'/>" ++
    "<gap xmlns='' p:id='3'></gap></list>"

theorem read_shadowedText : read shadowedText = .ok shadowed := by
  cbv

theorem inScope_of_read_shadowed :
    (shadowed.uri? 2 (some "p"), shadowed.uri? 3 (some "p")) = (some "urn:c", some "urn:b") ∧
    (shadowed.uri? 2 none, shadowed.uri? 3 none) = (some "urn:a", some "") ∧
    (∀ x e, shadowed.element? x = some e → e.InScope (shadowed.uri? x)) ∧
    ∃ es, events shadowedText.toList = .ok es ∧ Declared es :=
  ⟨by decide, by decide, inScope_of_read read_shadowedText⟩

end Xml

end PartPatch
