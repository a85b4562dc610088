import PartPatch.Proofs.Patch.Reach
import PartPatch.Proofs.Registry.Names
import PartPatch.Proofs.Xml.Element
import PartPatch.Proofs.Xml.Prefix

/-!
# Prefixes over a session

The names of an element come from the document, where they were resolved in one scope, or from the
registry, which binds each prefix once. Only `ensureAttr` puts a name of the registry on an element
that has names already. So where the written prefixes of an element do not lead to its namespaces,
such an attribute uses a prefix that stands for something else there, or the registry gives the
prefix `xml` another meaning.
-/

namespace PartPatch

set_option autoImplicit false

/-- The names of the element follow one binding of prefixes, the added names of attributes apart. -/
structure Element.Follows (namespaces : Entries String) (added : QName → Prop) (e : Element) :
    Prop where
  qualified : e.Qualified
  xml : ∀ q ∈ e.names, q.qualifier = some "xml" → q.namespaceUri.getD "" = Xml.xmlNamespace ∨
    namespaces.find? "xml" = some (q.namespaceUri.getD "")
  binding : ∃ binding : Option String → String,
    e.name.namespaceUri.getD "" = binding e.name.qualifier ∧
    ∀ a ∈ e.attributes, a.name.qualifier.isSome = true →
      a.name.namespaceUri.getD "" = binding a.name.qualifier ∨ added a.name

/-- Names with the prefix `xml` that the registry binds otherwise. -/
def Element.Rebinds (namespaces : Entries String) (e : Element) : Prop :=
  ∃ q ∈ e.names, q.qualifier = some "xml" ∧ q.namespaceUri.getD "" ≠ Xml.xmlNamespace ∧
    namespaces.find? "xml" = some (q.namespaceUri.getD "")

/-- An added attribute with a prefix that another name uses for another namespace. -/
def Element.Clashes (added : QName → Prop) (e : Element) : Prop :=
  ∃ a ∈ e.attributes, a.name.qualifier.isSome = true ∧ added a.name ∧
    ∃ q ∈ e.names, q.qualifier = a.name.qualifier ∧
      q.namespaceUri.getD "" ≠ a.name.namespaceUri.getD ""

namespace Element

variable {namespaces : Entries String} {added added' : QName → Prop} {e : Element} {q : QName}

theorem mem_names_iff :
    q ∈ e.names ↔ q = e.name ∨ q.qualifier.isSome = true ∧ ∃ a ∈ e.attributes, a.name = q := by
  simp [names, and_comm]

theorem Follows.mono (h : e.Follows namespaces added) (hadded : ∀ q, added q → added' q) :
    e.Follows namespaces added' := by
  obtain ⟨qualified, xml, binding, hname, hattributes⟩ := h
  refine ⟨qualified, xml, binding, hname, ?_⟩
  intro a ha hq
  exact (hattributes a ha hq).imp_right (hadded _)

theorem xml_of_within (h : q.Within namespaces) (hq : q.qualifier = some "xml") :
    namespaces.find? "xml" = some (q.namespaceUri.getD "") := by
  cases h with
  | plain localName => cases hq
  | prefixed localName huri =>
    cases hq
    exact huri

theorem isSome_of_within (h : q.Within namespaces) (hq : q.qualifier.isSome = true) :
    q.namespaceUri.isSome = true := by
  cases h with
  | plain localName => cases hq
  | prefixed localName huri => rfl

theorem Follows.of_within (h : e.Within namespaces) : e.Follows namespaces added := by
  have hbinding : ∀ q : QName, q.Within namespaces →
      q.namespaceUri.getD "" = (q.qualifier.bind namespaces.find?).getD "" := by
    intro q hq
    cases hq with
    | plain localName => rfl
    | prefixed localName huri => simp [huri]
  refine ⟨?_, ?_, fun qualifier => (qualifier.bind namespaces.find?).getD "",
    hbinding _ h.1, fun a ha _ => Or.inl (hbinding _ (h.2 a ha))⟩
  · intro a ha hq
    exact isSome_of_within (h.2 a ha) hq
  · intro q hq hxml
    refine Or.inr ?_
    rcases mem_names_iff.1 hq with rfl | ⟨_, a, ha, rfl⟩
    · exact xml_of_within h.1 hxml
    · exact xml_of_within (h.2 a ha) hxml

/-- Attributes may be left out, and others may get names that the element has or that are added. -/
theorem Follows.attributes (h : e.Follows namespaces added) {attributes : List Attribute}
    (names : ∀ a ∈ attributes, (∃ b ∈ e.attributes, a.name = b.name) ∨
      added a.name ∧ a.name.Within namespaces) :
    { e with attributes }.Follows namespaces added := by
  obtain ⟨qualified, xml, binding, hname, hattributes⟩ := h
  refine ⟨?_, ?_, binding, hname, ?_⟩
  · intro a ha hq
    rcases names a ha with ⟨b, hb, hab⟩ | ⟨_, within⟩
    · rw [hab] at hq ⊢
      exact qualified b hb hq
    · exact isSome_of_within within hq
  · intro q hq hxml
    rcases mem_names_iff.1 hq with rfl | ⟨hbound, a, ha, rfl⟩
    · exact xml _ List.mem_cons_self hxml
    · rcases names a ha with ⟨b, hb, hab⟩ | ⟨_, within⟩
      · rw [hab] at hbound hxml ⊢
        exact xml b.name (mem_names_iff.2 (Or.inr ⟨hbound, b, hb, rfl⟩)) hxml
      · exact Or.inr (xml_of_within within hxml)
  · intro a ha hq
    rcases names a ha with ⟨b, hb, hab⟩ | ⟨hadded, _⟩
    · rw [hab] at hq ⊢
      exact hattributes b hb hq
    · exact Or.inr hadded

/-- Nothing else keeps the names from being compatible. -/
theorem Follows.compatible_iff (h : e.Follows namespaces added) :
    Xml.Compatible e.names ↔ ¬ e.Rebinds namespaces ∧ ¬ e.Clashes added := by
  obtain ⟨_, xml, binding, hname, hattributes⟩ := h
  constructor
  · intro compatible
    refine ⟨?_, ?_⟩
    · rintro ⟨q, hq, hxml, hne, _⟩
      exact hne (compatible.xml q hq hxml)
    · rintro ⟨a, ha, hbound, _, q, hq, hqa, hne⟩
      have hmem := mem_names_iff.2 (Or.inr ⟨hbound, a, ha, rfl⟩)
      exact hne (compatible.agree q hq _ hmem hqa)
  · rintro ⟨rebinds, clashes⟩
    have follows : ∀ q ∈ e.names, q.namespaceUri.getD "" = binding q.qualifier ∨
        ∃ a ∈ e.attributes, a.name.qualifier.isSome = true ∧ added a.name ∧ a.name = q := by
      intro q hq
      rcases mem_names_iff.1 hq with rfl | ⟨hbound, a, ha, rfl⟩
      · exact Or.inl hname
      · exact (hattributes a ha hbound).imp_right fun hadded => ⟨a, ha, hbound, hadded, rfl⟩
    have agree : ∀ q ∈ e.names, ∀ a ∈ e.attributes, a.name.qualifier.isSome = true →
        added a.name → q.qualifier = a.name.qualifier →
        q.namespaceUri.getD "" = a.name.namespaceUri.getD "" := by
      intro q hq a ha hbound hadded hqa
      by_contra hne
      exact clashes ⟨a, ha, hbound, hadded, q, hq, hqa, hne⟩
    refine ⟨?_, ?_⟩
    · intro q hq r hr hqr
      rcases follows q hq with hbq | ⟨a, ha, hbound, hadded, rfl⟩
      · rcases follows r hr with hbr | ⟨a, ha, hbound, hadded, rfl⟩
        · rw [hbq, hbr, hqr]
        · exact agree q hq a ha hbound hadded hqr
      · exact (agree r hr a ha hbound hadded hqr.symm).symm
    · intro q hq hxml
      by_contra hne
      exact rebinds ⟨q, hq, hxml, hne, (xml q hq hxml).resolve_left hne⟩

end Element

/-! ## Documents that were read -/

namespace Xml

variable {namespaces : Entries String} {added : QName → Prop}

/-- The names of a tag are resolved in its scope. -/
theorem follows_of_readElement {scope : Scope} {inside : List Char} {e : Element}
    (h : readElement scope inside = .ok e) : e.Follows namespaces added := by
  obtain ⟨resolved, _⟩ := resolved_of_readElement h
  have hname := elementNamespace_eq_ok resolved.namespaceUri
  refine ⟨fun a ha hq => (resolved.bound a ha hq).1, ?_,
    fun qualifier => (lookup? qualifier (e.declarations :: scope)).getD "", hname,
    fun a ha hq => Or.inl (by rw [(resolved.bound a ha hq).2])⟩
  intro q hq hxml
  refine Or.inl ?_
  rcases Element.mem_names_iff.1 hq with rfl | ⟨hbound, a, ha, rfl⟩
  · rw [hname, hxml, lookup?_xml]
    rfl
  · rw [(resolved.bound a ha hbound).2, hxml, lookup?_xml]
    rfl

theorem every_follows_of_read {source : String} {t : Tree} (h : read source = .ok t) :
    t.Every (Element.Follows namespaces added) :=
  every_of_read (fun _ _ _ => follows_of_readElement) h

end Xml

/-! ## Operations -/

namespace Session

open Edit

/-- The operation puts an attribute of this name on an element if it is applied. -/
def Adds (s : Session) (operation : Operation) (q : QName) : Prop :=
  ∃ target attr value, operation = .ensureAttr target attr value ∧
    s.registry.attribute? attr = some q

section Operations

variable {s : Session} {added added' : QName → Prop} {d : Draft} {document : Registry.Document}

/-- The names of the tree's elements follow one binding each. -/
def Follows (document : Registry.Document) (added : QName → Prop) (t : Tree) : Prop :=
  t.Every (Element.Follows document.namespaces added)

theorem Follows.mono {t : Tree} (h : Follows document added t) (hadded : ∀ q, added q → added' q) :
    Follows document added' t :=
  Tree.Every.mono h fun _ he => he.mono hadded

theorem Follows.assign {t u : Tree} (h : Follows document added t) {node : NodeRef}
    {value : String} (hu : assign t node value = .ok u) : Follows document added u := by
  cases node with
  | element x => exact Tree.Every.setText h hu
  | «attribute» x index =>
    simp only [Session.assign] at hu
    split at hu
    · next a ha =>
      refine Tree.Every.setAttribute h (fun _ he => he) ?_ hu
      intro e he hfollows
      rw [Tree.attributeAt?, he, Option.bind_some] at ha
      refine hfollows.attributes ?_
      intro b hb
      rcases name_of_mem_setValue hb with hname | hold
      · exact Or.inl ⟨a, List.mem_of_getElem? ha, hname⟩
      · exact Or.inl hold
    · cases hu

theorem Follows.removeNode {t : Tree} (h : Follows document added t) (node : NodeRef) :
    Follows document added (removeNode t node) := by
  cases node with
  | element x => exact Tree.Every.detach h x
  | «attribute» x index =>
    simp only [Session.removeNode]
    split
    · refine Tree.Every.removeAttribute h ?_
      intro e he attributes hsub
      exact he.attributes fun a ha => Or.inl ⟨a, hsub.subset ha, rfl⟩
    · exact h

theorem Follows.removeNodes {t : Tree} (h : Follows document added t) (nodes : List NodeRef) :
    Follows document added (nodes.foldl Session.removeNode t) := by
  induction nodes generalizing t with
  | nil => exact h
  | cons node nodes ih => exact ih (h.removeNode node)

theorem Follows.place {t u : Tree} (h : Follows document added t) {anchor node : NodeId}
    {placement : Placement} (hu : place t anchor node placement = .ok u) :
    Follows document added u := by
  cases placement with
  | before => exact Tree.Every.insertBefore h hu
  | after => exact Tree.Every.insertAfter h hu
  | prepend => exact Tree.Every.insertAt h hu
  | append => exact Tree.Every.insertAt h hu

theorem follows_instantiate (resolved : document.resolved = s.registry)
    (h : Follows document added d.tree) (key : String) :
    Ends (s.instantiate key) d (fun _ d' => Follows document added d'.tree) fun _ _ => True := by
  rw [ends_instantiate]
  refine ⟨?_, fun _ _ => trivial⟩
  intro f hf
  refine ⟨?_, fun _ _ _ => trivial⟩
  intro made ids hmade
  have hkey : document.resolved.fragment? key = some f := by
    rw [resolved]
    unfold fragment at hf
    split at hf
    · cases hf
      assumption
    · cases hf
  have every := Registry.every_render_fragment hkey made.values
  refine Tree.Every.plant _ h ?_ (Fragment.plant_of_instantiate hmade)
  exact every.mono fun _ he => .of_within he

/-- Only `ensureAttr` adds a name. -/
theorem follows_of_action (resolved : document.resolved = s.registry)
    (h : Follows document added d.tree) {operation : Operation} {action : Edit OperationResult}
    (ha : s.action? operation = some action) :
    Ends action d (fun result d' => Follows document
      (fun q => added q ∨ result = .applied ∧ s.Adds operation q) d'.tree) fun _ _ => True := by
  have keep : ∀ {t} {result : OperationResult}, Follows document added t →
      Follows document (fun q => added q ∨ result = .applied ∧ s.Adds operation q) t :=
    fun ht => ht.mono fun _ => Or.inl
  have placed : ∀ {d : Draft} {a node : NodeId} {placement : Placement},
      Follows document added d.tree →
      Ends (change fun t => place t a node placement) d
        (fun _ d' => Follows document added d'.tree) fun _ _ => True := by
    intro d a node placement hd
    rw [ends_change]
    exact ⟨fun _ hu => hd.place hu, fun _ _ => trivial⟩
  cases operation with
  | set target value =>
    rw [← Option.some.inj ha, ends_set]
    refine ⟨fun node _ => ⟨fun v _ => ⟨fun _ => keep h, fun _ => ?_⟩, fun _ _ => trivial⟩,
      fun _ _ => trivial⟩
    rw [ends_change]
    exact ⟨fun _ hu => keep (h.assign hu), fun _ _ => trivial⟩
  | insert target anchor payload placement =>
    rw [← Option.some.inj ha, ends_insert]
    refine ⟨fun nodes _ => ⟨fun _ => keep h, fun _ => ⟨fun a _ => ?_, fun _ _ => trivial⟩⟩,
      fun _ _ => trivial⟩
    rw [ends_prepare]
    refine ⟨?_, ?_⟩
    · intro key _
      apply (follows_instantiate resolved h key).mono
      · intro node d' hd
        exact (placed hd).mono (fun _ _ => keep) fun _ _ _ => trivial
      · exact fun _ _ _ => trivial
    · intro value _
      refine ⟨fun v _ => ?_, fun _ _ => trivial⟩
      have hpush : Follows document added (d.tree.push (.text v)).1 := by
        refine Tree.Every.push h ?_
        rintro _ ⟨⟩
      exact (placed hpush).mono (fun _ _ => keep) fun _ _ _ => trivial
  | remove target =>
    rw [← Option.some.inj ha, ends_remove]
    refine ⟨fun nodes _ => ⟨fun _ => keep h, fun _ => keep (h.removeNodes nodes)⟩,
      fun _ _ => trivial⟩
  | ensurePath target anchor key placement =>
    rw [← Option.some.inj ha, ends_ensurePath]
    refine ⟨fun nodes _ => ⟨fun _ => keep h, fun _ => ⟨fun a _ => ?_, fun _ _ => trivial⟩⟩,
      fun _ _ => trivial⟩
    apply (follows_instantiate resolved h key).mono
    · intro node d' hd
      refine (placed hd).mono ?_ fun _ _ _ => trivial
      intro _ d'' hd'
      exact ⟨fun _ _ => ⟨fun _ => trivial, fun _ => keep hd'⟩, fun _ _ => trivial⟩
    · exact fun _ _ _ => trivial
  | ensurePart part key => cases ha
  | ensureAttr target attr value =>
    rw [← Option.some.inj ha, ends_ensureAttr]
    refine ⟨fun x _ => ⟨fun name hname => ⟨fun v _ => ⟨fun _ => keep h, fun _ => ?_⟩,
      fun _ _ => trivial⟩, fun _ => trivial⟩, fun _ _ => trivial⟩
    rw [ends_change]
    refine ⟨?_, fun _ _ => trivial⟩
    intro u hu
    have adds : s.Adds (.ensureAttr target attr value) name := ⟨target, attr, value, rfl, hname⟩
    have within : name.Within document.namespaces := by
      rw [← resolved] at hname
      exact Registry.within_attribute? hname
    refine Tree.Every.setAttribute h (fun _ he => he.mono fun _ => Or.inl) ?_ hu
    intro e _ he
    refine (he.mono fun _ => Or.inl).attributes ?_
    intro a hmem
    rcases name_of_mem_setValue hmem with hnew | hold
    · rw [hnew]
      exact Or.inr ⟨Or.inr ⟨rfl, adds⟩, within⟩
    · exact Or.inl hold

end Operations

/-! ## A whole session -/

variable {P : Type} [Package P] {s : Session} {w : Workspace P} {document : Registry.Document}
  {added : QName → Prop}

/-- One of the moves is an operation that is applied and puts an attribute of this name on an
element. -/
def Added (s : Session) (w : Workspace P) (moves : List Move) (q : QName) : Prop :=
  ∃ count index record, moves[count]? = some (.operation index record) ∧
    s.Adds record.operation q ∧
    (s.applyOperation (s.stage w moves count) index record).1 = .ok .applied

theorem follows_move (resolved : document.resolved = s.registry) (wf : w.tree.WellFormed)
    (h : Follows document added w.tree) (m : Move) :
    Follows document (fun q => added q ∨ ∃ index record, m = .operation index record ∧
      s.Adds record.operation q ∧ (s.applyOperation w index record).1 = .ok .applied)
      (s.move w m).tree := by
  cases m with
  | operation index record =>
    rcases applyOperation_draft s w index record with ⟨result, he, hresult⟩ | ⟨htree, _⟩
    · cases ha : s.action? record.operation with
      | none =>
        obtain ⟨part, key, hoperation⟩ := ensurePart_of_action? ha
        rw [hoperation] at he
        rw [move, (execute_ensurePart he).2.1]
        exact h.mono fun _ => Or.inl
      | some action =>
        rw [execute_eq_edit ha] at he
        have hd : Follows document added (Draft.mk w.tree w.ids).tree := h
        have hleft := (edit_ends (follows_of_action resolved hd ha) he).1 result rfl
        refine hleft.mono ?_
        rintro q (hq | ⟨happlied, adds⟩)
        · exact Or.inl hq
        · rw [happlied] at hresult
          exact Or.inr ⟨index, record, rfl, adds, hresult⟩
    · rw [move, htree]
      exact h.mono fun _ => Or.inl
  | compaction => exact (Tree.Every.compact h wf).mono fun _ he => he.mono fun _ => Or.inl

theorem follows_stage (sound : s.registry.Sound) (resolved : document.resolved = s.registry)
    (reached : s.Reached w) (h : ∀ added, Follows document added w.tree) (moves : List Move)
    (count : Nat) : Follows document (s.Added w moves) (s.stage w moves count).tree := by
  induction count with
  | zero => exact h _
  | succ count ih =>
    cases hm : moves[count]? with
    | none =>
      have hstage : s.stage w moves (count + 1) = s.stage w moves count := by
        rw [stage, stage, List.take_add_one, hm, Option.toList_none, List.append_nil]
      rw [hstage]
      exact ih
    | some m =>
      have wf := (reached.follow (moves.take count)).wellFormed sound
      rw [stage_succ hm]
      refine (follows_move resolved wf ih m).mono ?_
      rintro q (hq | ⟨index, record, rfl, adds, happlied⟩)
      · exact hq
      · exact ⟨count, index, record, hm, adds, happlied⟩

/-- The prefixes of an element that a session leaves lead to its namespaces except in two cases. -/
theorem faithful_of_session (compiled : Registry.compile document = .ok s.registry)
    {source : String} (hread : Xml.read source = .ok w.tree) (hids : w.ids = .empty)
    (moves : List Move) {x : NodeId} {e : Element}
    (he : (s.follow w moves).tree.element? x = some e) :
    Xml.Faithful ((s.follow w moves).tree.writtenScope x) e ↔
      ¬ e.Rebinds document.namespaces ∧ ¬ e.Clashes (s.Added w moves) := by
  obtain ⟨_, resolved⟩ := Registry.compile_eq_ok_iff.1 compiled
  have sound := Registry.sound_of_compile compiled
  have reached : s.Reached w := by
    have hstart : s.Reached ⟨w.tree, .empty, w.package⟩ := .start w.package hread
    rwa [← hids] at hstart
  have hfollows := follows_stage sound resolved reached
    (fun _ => Xml.every_follows_of_read hread) moves moves.length
  rw [stage_length] at hfollows
  have hfollows : e.Follows document.namespaces (s.Added w moves) := hfollows x e he
  rw [Xml.faithful_iff _ hfollows.qualified, hfollows.compatible_iff]

/-! ## One prefix for two namespaces -/

def boundTwiceDocument : Registry.Document where
  metadata := ⟨"", none, none⟩
  namespaces := .ofList [("d", "urn:doc"), ("p", "urn:reg")]
  elements := .ofList [("list", .short "d:list")]
  attributes := .ofList [("id", .short "p:id")]
  identifiers := .empty
  values := .empty
  paths := .ofList [("list", "/list")]
  fragments := .empty
  parts := .empty

/-- The registry has its own meaning for a prefix of the document. -/
def boundTwice : Session where
  registry := boundTwiceDocument.resolved
  tokens := fun _ => none
  allOptional := false

def prefixedList : Element where
  name := ⟨some "p", "list", some "urn:doc"⟩
  attributes := []
  declarations := [⟨some "p", "urn:doc"⟩, ⟨some "r", "urn:reg"⟩]

def prefixedListOnly : Workspace MemoryPackage where
  tree := {
    nodes := #[⟨.document, none, [1]⟩, ⟨.element prefixedList, some 0, []⟩]
    header := none }
  ids := .empty
  package := .empty

def numberList : List Move :=
  [.operation 0 ⟨.ensureAttr "list" "id" "7", false⟩]

def numberedList : Element :=
  { prefixedList with attributes := [⟨⟨some "p", "id", some "urn:reg"⟩, "7"⟩] }

theorem compile_boundTwice : Registry.compile boundTwiceDocument = .ok boundTwice.registry := by
  rw [Registry.compile_eq_ok_iff]
  refine ⟨?_, rfl⟩
  cbv

theorem read_prefixedList :
    Xml.read "<p:list xmlns:p='urn:doc' xmlns:r='urn:reg'/>" = .ok prefixedListOnly.tree := by
  cbv

theorem element?_numberList :
    (boundTwice.follow prefixedListOnly numberList).tree.element? 1 = some numberedList := by
  cbv

theorem writtenScope_numberList :
    (boundTwice.follow prefixedListOnly numberList).tree.writtenScope 1 = [] := by
  cbv

theorem not_faithful_numberList : ¬ Xml.Faithful [] numberedList := by
  have declarations : Xml.writtenDeclarations [] numberedList =
      [⟨some "r", "urn:reg"⟩, ⟨some "p", "urn:reg"⟩] := by cbv
  intro h
  have hname := h numberedList.name List.mem_cons_self
  rw [Xml.Means, declarations] at hname
  revert hname
  decide

/-- The attribute moves its element from one namespace to another in what is written. -/
theorem not_faithful_of_boundTwice :
    Registry.compile boundTwiceDocument = .ok boundTwice.registry ∧
    Xml.read "<p:list xmlns:p='urn:doc' xmlns:r='urn:reg'/>" = .ok prefixedListOnly.tree ∧
    (boundTwice.applyOperation prefixedListOnly 0 ⟨.ensureAttr "list" "id" "7", false⟩).1 =
      .ok .applied ∧
    (boundTwice.follow prefixedListOnly numberList).tree.Attached 1 ∧
    (boundTwice.follow prefixedListOnly numberList).tree.element? 1 = some numberedList ∧
    ¬ Xml.Faithful ((boundTwice.follow prefixedListOnly numberList).tree.writtenScope 1)
      numberedList ∧
    Xml.write (boundTwice.follow prefixedListOnly numberList).tree =
      "<p:list xmlns:r=\"urn:reg\" xmlns:p=\"urn:reg\" p:id=\"7\"/>" := by
  have applied : (boundTwice.applyOperation prefixedListOnly 0
      ⟨.ensureAttr "list" "id" "7", false⟩).1 = .ok .applied := by cbv
  have parent : (boundTwice.follow prefixedListOnly numberList).tree.Parent Tree.documentId 1 := by
    cbv
  have attached := (Tree.attached_document _).tail parent
  have written : Xml.write (boundTwice.follow prefixedListOnly numberList).tree =
      "<p:list xmlns:r=\"urn:reg\" xmlns:p=\"urn:reg\" p:id=\"7\"/>" := by cbv
  rw [writtenScope_numberList]
  exact ⟨compile_boundTwice, read_prefixedList, applied, attached, element?_numberList,
    not_faithful_numberList, written⟩

theorem faithful_of_session_boundTwice :
    ¬ Xml.Faithful ((boundTwice.follow prefixedListOnly numberList).tree.writtenScope 1)
      numberedList ∧
    numberedList.Clashes (boundTwice.Added prefixedListOnly numberList) := by
  have compiled : Registry.compile boundTwiceDocument = .ok boundTwice.registry :=
    compile_boundTwice
  have unfaithful := not_faithful_numberList
  rw [← writtenScope_numberList] at unfaithful
  have faithful := faithful_of_session compiled read_prefixedList rfl numberList
    element?_numberList
  have rebinds : ¬ numberedList.Rebinds boundTwiceDocument.namespaces := by
    rintro ⟨q, _, _, _, hxml⟩
    have hnone : boundTwiceDocument.namespaces.find? "xml" = none := by decide
    rw [hnone] at hxml
    cases hxml
  refine ⟨unfaithful, ?_⟩
  by_contra clashes
  exact unfaithful (faithful.2 ⟨rebinds, clashes⟩)

end Session

end PartPatch
