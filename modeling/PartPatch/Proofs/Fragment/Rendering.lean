import PartPatch.Proofs.Entries
import PartPatch.Proofs.Fragment.Document
import PartPatch.Proofs.Fragment.Identifiers
import PartPatch.Proofs.Registry.Compile
import PartPatch.Proofs.Tree.Pairing

/-!
# What an instance shows

An instance has the shape of its fragment, and in its texts every placeholder has been replaced: a
token by what it resolves to, a label by the identifier that its namespace gives it. Each namespace
numbers its labels in the order in which they first occur. All that can stand in the way is a token
without a value or a namespace without enough numbers.
-/

namespace PartPatch

set_option autoImplicit false

namespace Segment

def token? : Segment → Option String
  | .token name => some name
  | _ => none

def identifier? : Segment → Option (String × String)
  | .identifier space label => some (space, label)
  | _ => none

/-- What the segment stands for, if it has a value. -/
def meaning? (tokens : Token.Resolver) (identifiers : List ((String × String) × String)) :
    Segment → Option String
  | .literal text => some text
  | .token name => tokens name
  | .identifier space label => identifiers.lookup (space, label)

end Segment

/-- The text is the template with each placeholder replaced by its value. -/
def TemplateText.Says (tokens : Token.Resolver) (identifiers : List ((String × String) × String))
    (template : TemplateText) (text : String) : Prop :=
  ∃ parts, template.segments.mapM (Segment.meaning? tokens identifiers) = some parts ∧
    text = String.join parts

namespace FragmentNode

mutual

/-- All segments in the order in which they are written: those of the attributes, those of the text,
and those of the children. -/
def segments : FragmentNode → List Segment
  | .node _ attributes text children =>
    attributes.flatMap (fun a => a.2.segments) ++ text.toList.flatMap TemplateText.segments ++
      segmentsOfAll children

def segmentsOfAll : List FragmentNode → List Segment
  | [] => []
  | n :: ns => segments n ++ segmentsOfAll ns

end

mutual

theorem segments_eq : ∀ n : FragmentNode, n.segments = n.texts.flatMap TemplateText.segments
  | .node _ attributes text children => by
    rw [segments, texts, segmentsOfAll_eq children, List.flatMap_append, List.flatMap_append,
      List.flatMap_map]

theorem segmentsOfAll_eq : ∀ ns : List FragmentNode,
    segmentsOfAll ns = (textsOfAll ns).flatMap TemplateText.segments
  | [] => rfl
  | n :: ns => by
    rw [segmentsOfAll, textsOfAll, segments_eq n, segmentsOfAll_eq ns, List.flatMap_append]

end

end FragmentNode

/-- The node shows the fragment: an element of the same name, whose attributes say what those of the
fragment say, and below it a node for the text, if there is one, and then one for each child. -/
inductive Tree.Shows (t : Tree) (means : TemplateText → String → Prop) :
    FragmentNode → NodeId → Prop where
  | node {name : QName} {attributes : List (QName × TemplateText)} {text : Option TemplateText}
    {children : List FragmentNode} {x : NodeId} {values : List Attribute}
    {texts elements : List NodeId} (kind : t.kind? x = some (.element ⟨name, values, []⟩))
    (named : List.Forall₂ (fun a v => v.name = a.1 ∧ means a.2 v.value) attributes values)
    (below : t.children x = texts ++ elements)
    (written : List.Forall₂ (fun template y => ∃ s, t.kind? y = some (.text s) ∧ means template s)
      text.toList texts)
    (shown : List.Forall₂ (Tree.Shows t means) children elements) :
    Tree.Shows t means (.node name attributes text children) x

/-- The namespace has that many numbers left. -/
def IdentifierSpace.HasRoom (space : IdentifierSpace) (t : Tree) (a : Allocator) (count : Nat) :
    Prop :=
  count = 0 ∨ a.previous space t + count ≤ space.max ∧ a.previous space t + count ≤ Text.maxNumber

namespace Fragment

/-- The first token without a value, in the order in which the texts are written. -/
def firstUnresolved? (f : Fragment) (tokens : Token.Resolver) : Option String :=
  (f.root.segments.filterMap Segment.token?).find? fun name => (tokens name).isNone

/-- The label, if the namespace is the one in question. -/
def labelIn? (space : String) (i : String × String) : Option String :=
  if i.1 = space then some i.2 else none

/-- The labels of a namespace in the order of their first occurrence, each listed once. -/
def labels (f : Fragment) (space : String) : List String :=
  ((f.root.segments.filterMap Segment.identifier?).filterMap (labelIn? space)).eraseDups

/-- The instance that a fragment should have in the tree, and the allocator that is left. -/
structure Rendered (f : Fragment) (tokens : Token.Resolver) (r : Registry) (t : Tree)
    (a : Allocator) (made : Instance) (left : Allocator) : Prop where
  wellFormed : made.tree.WellFormed
  /-- The document is the same as before. -/
  alike : made.tree.Alike t
  /-- All that was in the tree is where it was. -/
  nodes : ∀ x < t.size, made.tree.kind? x = t.kind? x ∧ made.tree.parent? x = t.parent? x ∧
    made.tree.children x = t.children x
  detached : made.tree.parent? made.root = none ∧ ¬ made.tree.Attached made.root
  shows : made.tree.Shows (TemplateText.Says tokens made.values.identifiers) f.root made.root
  /-- A label has the number of its place among the labels of its namespace. -/
  numbered : ∀ name space, r.identifierSpace? name = some space →
    ∀ (j : Nat) (label : String), (f.labels name)[j]? = some label →
      made.values.identifiers.lookup (name, label) =
        some (space.format (a.previous space t + 1 + j))
  distinct : ∀ name label other id, made.values.identifiers.lookup (name, label) = some id →
    made.values.identifiers.lookup (name, other) = some id → label = other
  counters : ∀ name space, r.identifierSpace? name = some space →
    left.current? name = if (f.labels name).length = 0 then a.current? name
      else some (a.previous space t + (f.labels name).length)

end Fragment

/-! ## Lists without repetitions -/

section

variable {α β : Type} [BEq α] [LawfulBEq α] [BEq β] [LawfulBEq β]

omit [LawfulBEq α] in
theorem eraseDups_induction {P : List α → Prop} (nil : P [])
    (cons : ∀ a as, P (as.filter fun b => !b == a) → P (a :: as)) (as : List α) : P as := by
  induction h : as.length using Nat.strong_induction_on generalizing as with
  | _ n ih =>
    cases as with
    | nil => exact nil
    | cons a as =>
      apply cons
      apply ih _ _ _ rfl
      rw [← h, List.length_cons]
      exact Nat.lt_succ_of_le (List.length_filter_le _ _)

theorem nodup_eraseDups (as : List α) : as.eraseDups.Nodup := by
  induction as using eraseDups_induction with
  | nil => exact List.nodup_nil
  | cons a as ih =>
    rw [List.eraseDups_cons, List.nodup_cons]
    exact ⟨by simp [List.mem_eraseDups], ih⟩

theorem find?_eraseDups (p : α → Bool) (as : List α) : as.eraseDups.find? p = as.find? p := by
  induction as using eraseDups_induction with
  | nil => rfl
  | cons a as ih =>
    rw [List.eraseDups_cons, List.find?_cons, List.find?_cons, ih]
    cases hp : p a with
    | true => rfl
    | false =>
      dsimp only
      rw [List.find?_filter]
      congr 1
      funext b
      by_cases e : b = a
      · simp [e, hp]
      · simp [e]

/-- Where different entries have different images, it makes no difference when repetitions are
taken away. -/
theorem filterMap_eraseDups {f : α → Option β}
    (injective : ∀ a a' b, f a = some b → f a' = some b → a = a') (as : List α) :
    as.eraseDups.filterMap f = (as.filterMap f).eraseDups := by
  induction as using eraseDups_induction with
  | nil => rfl
  | cons a as ih =>
    rw [List.eraseDups_cons, List.filterMap_cons, List.filterMap_cons, ih, List.filterMap_filter]
    cases hb : f a with
    | none =>
      dsimp only
      congr 1
      apply List.filterMap_congr
      intro a' _
      by_cases e : a' = a
      · simp [e, hb]
      · simp [e]
    | some b =>
      dsimp only
      rw [List.eraseDups_cons, List.filter_filterMap]
      congr 2
      apply List.filterMap_congr
      intro a' _
      by_cases e : a' = a
      · simp [e, hb, Option.filter]
      · cases hb' : f a' with
        | none => simp [Option.filter]
        | some b' =>
          have hne : b' ≠ b := by
            rintro rfl
            exact e (injective _ _ _ hb' hb)
          simp [e, Option.filter, hne]

end

namespace Fragment

variable {f : Fragment} {tokens : Token.Resolver} {t : Tree} {a b : Allocator} {r : Registry}
  {fragment name : String} {space : IdentifierSpace} {identifiers : List (String × String)}
  {given : List ((String × String) × String)}

theorem tokens_eq (f : Fragment) :
    f.tokens = (f.root.segments.filterMap Segment.token?).eraseDups := by
  rw [Fragment.tokens, FragmentNode.segments_eq, List.filterMap_flatMap]
  rfl

theorem identifiers_eq (f : Fragment) :
    f.identifiers = (f.root.segments.filterMap Segment.identifier?).eraseDups := by
  rw [Fragment.identifiers, FragmentNode.segments_eq, List.filterMap_flatMap]
  rfl

theorem labels_eq (f : Fragment) (name : String) :
    f.labels name = f.identifiers.filterMap (labelIn? name) := by
  rw [labels, identifiers_eq]
  have injective : ∀ i j label, labelIn? name i = some label → labelIn? name j = some label →
      i = j := by
    intro i j label hi hj
    simp only [labelIn?, Option.ite_none_right_eq_some, Option.some.injEq] at hi hj
    exact Prod.ext (hi.1.trans hj.1.symm) (hi.2.trans hj.2.symm)
  exact (filterMap_eraseDups injective _).symm

/-! ## Tokens -/

theorem resolveTokens_cases (f : Fragment) (tokens : Token.Resolver) :
    (∃ name, f.firstUnresolved? tokens = some name ∧
        f.resolveTokens tokens = .error (.unresolvedToken ⟨name⟩)) ∨
      f.firstUnresolved? tokens = none ∧ ∃ resolved, f.resolveTokens tokens = .ok resolved ∧
        ∀ name ∈ f.tokens, (tokens name).isSome = true ∧ resolved.lookup name = tokens name := by
  have hfirst : f.firstUnresolved? tokens = f.tokens.find? fun name => (tokens name).isNone := by
    rw [firstUnresolved?, tokens_eq, find?_eraseDups]
  rw [hfirst, resolveTokens]
  generalize f.tokens = names
  induction names with
  | nil => exact Or.inr ⟨rfl, [], rfl, by simp⟩
  | cons name names ih =>
    rw [List.find?_cons, List.mapM_cons]
    cases hname : tokens name with
    | none => exact Or.inl ⟨name, rfl, rfl⟩
    | some value =>
      rcases ih with ⟨first, hfirst, herror⟩ | ⟨hnone, resolved, hok, hlookup⟩
      · refine Or.inl ⟨first, hfirst, ?_⟩
        rw [herror]
        rfl
      · refine Or.inr ⟨hnone, (name, value) :: resolved, ?_, ?_⟩
        · rw [hok]
          rfl
        · intro other hother
          rw [List.lookup_cons]
          by_cases e : other = name
          · simp [e, hname]
          · have hne : (other == name) = false := beq_eq_false_iff_ne.2 e
            rw [hne]
            exact hlookup other ((List.mem_cons.1 hother).resolve_left e)

theorem tokens_resolved {resolved : List (String × String)}
    (h : f.resolveTokens tokens = .ok resolved) :
    ∀ name ∈ f.tokens, (tokens name).isSome = true ∧ resolved.lookup name = tokens name := by
  rcases resolveTokens_cases f tokens with ⟨_, _, herror⟩ | ⟨_, _, hok, hlookup⟩
  · cases herror.symm.trans h
  · cases hok.symm.trans h
    exact hlookup

/-! ## Identifiers -/

theorem labelIn?_self (label : String) : labelIn? name (name, label) = some label :=
  if_pos rfl

theorem labelIn?_other {i : String × String} (h : i.1 ≠ name) : labelIn? name i = none :=
  if_neg h

theorem allocateAll_cons_eq_error {i : String × String}
    (hspace : r.identifierSpace? i.1 = some space) {e : Allocator.Exhausted}
    (h : a.allocate space t = .error e) :
    (allocateAll r fragment t (i :: identifiers) a).1 = .error (.exhausted e) := by
  simp only [allocateAll, hspace, h]

theorem allocateAll_cons_of_ok {i : String × String} {id : String}
    (hspace : r.identifierSpace? i.1 = some space) (h : a.allocate space t = .ok (id, b)) :
    (allocateAll r fragment t (i :: identifiers) a).1 =
      (allocateAll r fragment t identifiers b).1.map ((i, id) :: ·) := by
  simp only [allocateAll, hspace, h]

theorem allocate_isOk_iff :
    (∃ made, a.allocate space t = .ok made) ↔ space.HasRoom t a 1 := by
  simp only [Allocator.allocate, IdentifierSpace.HasRoom, Nat.one_ne_zero, false_or]
  split
  · next bound => exact ⟨fun _ => bound, fun _ => ⟨_, rfl⟩⟩
  · next bound =>
    refine ⟨?_, fun h => absurd h bound⟩
    rintro ⟨made, h⟩
    cases h

theorem keys_of_allocateAll (h : allocateAll r fragment t identifiers a = (.ok given, b)) :
    given.map Prod.fst = identifiers := by
  induction identifiers generalizing a given with
  | nil =>
    cases h
    rfl
  | cons i identifiers ih =>
    obtain ⟨_, id, c, rest, _, _, hrest, rfl⟩ := allocateAll_cons_eq_ok h
    rw [List.map_cons, ih hrest]

section Named

variable (named : ∀ name space, r.identifierSpace? name = some space → space.name = name)
include named

/-- One identifier moves the counter of its own namespace, and no other. -/
theorem current?_of_allocate {other : IdentifierSpace} {i id : String}
    (hspace : r.identifierSpace? name = some space) (hother : r.identifierSpace? i = some other)
    (h : a.allocate other t = .ok (id, b)) : b.current? name =
      if i = name then some (a.previous space t + 1) else a.current? name := by
  obtain ⟨_, _, hcurrent⟩ := Allocator.allocate_eq_ok h
  rw [hcurrent, named _ _ hother]
  by_cases e : i = name
  · subst e
    cases Option.some.inj (hspace.symm.trans hother)
    rw [if_pos rfl]
  · rw [if_neg (Ne.symm e), if_neg e]

theorem previous_of_allocate {other : IdentifierSpace} {i id : String}
    (hspace : r.identifierSpace? name = some space) (hother : r.identifierSpace? i = some other)
    (h : a.allocate other t = .ok (id, b)) :
    b.previous space t = if i = name then a.previous space t + 1 else a.previous space t := by
  have hcurrent := current?_of_allocate named hspace hother h
  by_cases e : i = name
  · rw [if_pos e] at hcurrent ⊢
    exact Allocator.previous_of_current? (by rw [named _ _ hspace, hcurrent])
  · rw [if_neg e] at hcurrent ⊢
    exact Allocator.previous_congr (by rw [named _ _ hspace, hcurrent])

/-- The labels of a namespace are numbered on from its counter. -/
theorem mem_of_allocateAll (hspace : r.identifierSpace? name = some space)
    (h : allocateAll r fragment t identifiers a = (.ok given, b)) {j : Nat} {label : String}
    (hj : (identifiers.filterMap (labelIn? name))[j]? = some label) :
    ((name, label), space.format (a.previous space t + 1 + j)) ∈ given := by
  induction identifiers generalizing a given j with
  | nil => cases hj
  | cons i identifiers ih =>
    obtain ⟨other, id, c, rest, hother, halloc, hrest, rfl⟩ := allocateAll_cons_eq_ok h
    have hprevious := previous_of_allocate named hspace hother halloc
    by_cases e : i.1 = name
    · obtain ⟨_, own⟩ := i
      subst e
      rw [if_pos rfl] at hprevious
      rw [List.filterMap_cons, labelIn?_self] at hj
      cases j with
      | zero =>
        cases Option.some.inj (hspace.symm.trans hother)
        cases hj
        rw [(Allocator.allocate_eq_ok halloc).2.1]
        exact List.mem_cons_self
      | succ j =>
        have hmem := ih hrest hj
        rw [hprevious, Nat.add_assoc _ 1 j, Nat.add_comm 1 j] at hmem
        exact List.mem_cons_of_mem _ hmem
    · rw [if_neg e] at hprevious
      rw [List.filterMap_cons, labelIn?_other e] at hj
      have hmem := ih hrest hj
      rw [hprevious] at hmem
      exact List.mem_cons_of_mem _ hmem

theorem current?_of_allocateAll (hspace : r.identifierSpace? name = some space)
    (h : allocateAll r fragment t identifiers a = (.ok given, b)) :
    b.current? name = if (identifiers.filterMap (labelIn? name)).length = 0 then a.current? name
      else some (a.previous space t + (identifiers.filterMap (labelIn? name)).length) := by
  induction identifiers generalizing a given with
  | nil =>
    cases h
    rfl
  | cons i identifiers ih =>
    obtain ⟨other, id, c, rest, hother, halloc, hrest, rfl⟩ := allocateAll_cons_eq_ok h
    have hprevious := previous_of_allocate named hspace hother halloc
    have hcurrent := current?_of_allocate named hspace hother halloc
    rw [ih hrest, hprevious, hcurrent]
    by_cases e : i.1 = name
    · obtain ⟨_, own⟩ := i
      subst e
      rw [if_pos rfl, if_pos rfl, List.filterMap_cons, labelIn?_self]
      dsimp only
      rw [List.length_cons, if_neg (Nat.succ_ne_zero _)]
      split
      · next hzero => rw [hzero]
      · rw [Nat.add_assoc, Nat.add_comm 1]
    · rw [if_neg e, if_neg e, List.filterMap_cons, labelIn?_other e]

/-- All identifiers can be given out if and only if each namespace has enough numbers left. -/
theorem allocateAll_isOk_iff (spaces : ∀ i ∈ identifiers, (r.identifierSpace? i.1).isSome = true) :
    (∃ given, (allocateAll r fragment t identifiers a).1 = .ok given) ↔
      ∀ name space, r.identifierSpace? name = some space →
        space.HasRoom t a (identifiers.filterMap (labelIn? name)).length := by
  induction identifiers generalizing a with
  | nil => exact ⟨fun _ _ _ _ => Or.inl rfl, fun _ => ⟨[], rfl⟩⟩
  | cons i identifiers ih =>
    obtain ⟨hi, hrest⟩ := List.forall_mem_cons.1 spaces
    obtain ⟨own, hown⟩ := Option.isSome_iff_exists.1 hi
    have first : (identifiers.filterMap (labelIn? i.1)).length + 1 =
        ((i :: identifiers).filterMap (labelIn? i.1)).length := by
      rw [List.filterMap_cons, labelIn?, if_pos rfl]
      rfl
    cases halloc : a.allocate own t with
    | error e =>
      constructor
      · rintro ⟨given, h⟩
        rw [allocateAll_cons_eq_error hown halloc] at h
        cases h
      · intro room
        obtain hroom := room i.1 own hown
        rw [← first] at hroom
        have one : own.HasRoom t a 1 := by
          rcases hroom with hzero | ⟨hmax, hlimit⟩
          · exact absurd hzero (Nat.succ_ne_zero _)
          · exact Or.inr ⟨by omega, by omega⟩
        obtain ⟨made, hmade⟩ := allocate_isOk_iff.2 one
        rw [halloc] at hmade
        cases hmade
    | ok made =>
      obtain ⟨id, c⟩ := made
      obtain hone | ⟨hmax, hlimit⟩ := allocate_isOk_iff.1 ⟨_, halloc⟩
      · cases hone
      have hok : (∃ given, (allocateAll r fragment t (i :: identifiers) a).1 = .ok given) ↔
          ∃ given, (allocateAll r fragment t identifiers c).1 = .ok given := by
        rw [allocateAll_cons_of_ok hown halloc]
        simp only [map_eq_ok_iff]
        exact ⟨fun ⟨_, given, h, _⟩ => ⟨given, h⟩, fun ⟨given, h⟩ => ⟨_, given, h, rfl⟩⟩
      rw [hok, ih hrest]
      -- for each namespace on its own, what is left after the first is what was left before it
      refine forall_congr' fun name => forall_congr' fun space => forall_congr' fun hspace => ?_
      have hprevious := previous_of_allocate named hspace hown halloc
      by_cases e : i.1 = name
      · subst e
        cases Option.some.inj (hspace.symm.trans hown)
        rw [if_pos rfl] at hprevious
        rw [← first, IdentifierSpace.HasRoom, IdentifierSpace.HasRoom, hprevious]
        omega
      · rw [if_neg e] at hprevious
        rw [List.filterMap_cons, labelIn?_other e, IdentifierSpace.HasRoom,
          IdentifierSpace.HasRoom, hprevious]

end Named

/-! ## Texts -/

theorem mapM_meaning? {v : Values} {segments : List Segment}
    (h : ∀ segment ∈ segments, segment.meaning? tokens v.identifiers = some (v.segment segment)) :
    segments.mapM (Segment.meaning? tokens v.identifiers) = some (segments.map v.segment) := by
  induction segments with
  | nil => rfl
  | cons segment segments ih =>
    obtain ⟨first, rest⟩ := List.forall_mem_cons.1 h
    rw [List.mapM_cons, first, ih rest]
    rfl

/-- Every placeholder of the fragment has its value among those that were found. -/
theorem meaning?_of_mem {v : Values}
    (htokens : ∀ name ∈ f.tokens, (tokens name).isSome = true ∧ v.tokens.lookup name = tokens name)
    (hidentifiers : v.identifiers.map Prod.fst = f.identifiers) {segment : Segment}
    (h : segment ∈ f.root.segments) :
    segment.meaning? tokens v.identifiers = some (v.segment segment) := by
  cases segment with
  | literal text => rfl
  | token name =>
    have hname : name ∈ f.tokens := by
      rw [tokens_eq, List.mem_eraseDups, List.mem_filterMap]
      exact ⟨_, h, rfl⟩
    obtain ⟨hsome, hlookup⟩ := htokens name hname
    obtain ⟨value, hvalue⟩ := Option.isSome_iff_exists.1 hsome
    rw [Segment.meaning?, Values.segment, hlookup, hvalue]
    rfl
  | identifier space label =>
    have hkey : (space, label) ∈ v.identifiers.map Prod.fst := by
      rw [hidentifiers, identifiers_eq, List.mem_eraseDups, List.mem_filterMap]
      exact ⟨_, h, rfl⟩
    obtain ⟨id, hid⟩ := Option.isSome_iff_exists.1 (Entries.lookup_isSome_iff.2 hkey)
    rw [Segment.meaning?, Values.segment, hid]
    rfl

end Fragment

/-! ## Shapes -/

namespace Tree

variable {u : Tree} {means : TemplateText → String → Prop} {v : Fragment.Values}

theorem WellFormed.forall₂_content (wf : u.WellFormed) (x : NodeId) :
    List.Forall₂ (fun y c => u.contentAt y = [c]) (u.children x) (u.contentBelow x) := by
  refine forall₂_of_flatMap_eq ?_ (fun c _ => ⟨c, rfl⟩) ?_
  · intro y hy
    obtain ⟨c, hc, _⟩ := wf.exists_content ((wf.mem_children_iff x y).1 hy)
    exact ⟨c, hc⟩
  · rw [← contentBelow_eq, List.flatMap_singleton']

theorem element_of_contentAt (wf : u.WellFormed) {x : NodeId} {e : Element} {cs : List Content}
    (h : u.contentAt x = [.element e cs]) :
    u.kind? x = some (.element e) ∧ u.contentBelow x = cs := by
  rw [wf.contentAt_eq] at h
  split at h
  · next f hf =>
    cases h
    exact ⟨hf, rfl⟩
  · cases h
  · cases h
  · cases h

theorem text_of_contentAt (wf : u.WellFormed) {x : NodeId} {s : String}
    (h : u.contentAt x = [.text s]) : u.kind? x = some (.text s) := by
  rw [wf.contentAt_eq] at h
  split at h
  · cases h
  · next f hf =>
    cases h
    exact hf
  · cases h
  · cases h

mutual

/-- A node whose content is a rendered fragment shows the fragment. -/
theorem shows_of_contentAt (wf : u.WellFormed) : ∀ (n : FragmentNode) {x : NodeId},
    (∀ template ∈ n.texts, means template (v.render template)) → u.contentAt x = [n.render v] →
    u.Shows means n x
  | .node name attributes text children, x, hmeans, h => by
    simp only [FragmentNode.texts, List.forall_mem_append, List.forall_mem_map] at hmeans
    obtain ⟨⟨hattributes, htext⟩, hchildren⟩ := hmeans
    obtain ⟨hkind, hbelow⟩ := element_of_contentAt wf h
    have hcontents := wf.forall₂_content x
    rw [hbelow] at hcontents
    have htexts := List.forall₂_take_append _ _ _ hcontents
    have helements := List.forall₂_drop_append _ _ _ hcontents
    refine .node hkind ?_ (List.take_append_drop _ _).symm ?_
      (showsAll_of_contents wf children hchildren helements)
    · rw [List.forall₂_map_right_iff, List.forall₂_same]
      exact fun a ha => ⟨rfl, hattributes a ha⟩
    · have hwritten := (List.forall₂_map_right_iff.1 htexts).flip
      rw [List.forall₂_iff_zip] at hwritten ⊢
      refine ⟨hwritten.1, ?_⟩
      intro template y hmem
      exact ⟨_, text_of_contentAt wf (hwritten.2 hmem), htext template (List.of_mem_zip hmem).1⟩

theorem showsAll_of_contents (wf : u.WellFormed) : ∀ (ns : List FragmentNode) {xs : List NodeId},
    (∀ template ∈ FragmentNode.textsOfAll ns, means template (v.render template)) →
    List.Forall₂ (fun y c => u.contentAt y = [c]) xs (FragmentNode.renderAll v ns) →
    List.Forall₂ (u.Shows means) ns xs
  | [], xs, _, h => by
    cases h
    exact .nil
  | n :: ns, xs, hmeans, h => by
    rw [FragmentNode.textsOfAll, List.forall_mem_append] at hmeans
    cases h with
    | cons hx hxs =>
      exact .cons (shows_of_contentAt wf n hmeans.1 hx) (showsAll_of_contents wf ns hmeans.2 hxs)

end

end Tree

namespace Fragment

variable {f : Fragment} {tokens : Token.Resolver} {t : Tree} {a left : Allocator} {r : Registry}
  {made : Instance}

theorem instantiate_of_unresolved {name : String}
    (h : f.resolveTokens tokens = .error (.unresolvedToken ⟨name⟩)) (t : Tree) (a : Allocator)
    (r : Registry) : f.instantiate tokens t a r = (.error (.unresolvedToken ⟨name⟩), a) := by
  rw [instantiate, values, h]

/-- Once the tokens are resolved, an instance can be made if all identifiers can be given out. -/
theorem instantiate_isError_iff (wf : t.WellFormed) {resolved : List (String × String)}
    (h : f.resolveTokens tokens = .ok resolved) :
    (∃ e, (f.instantiate tokens t a r).1 = .error e) ↔
      ¬ ∃ given, (allocateAll r f.name t f.identifiers a).1 = .ok given := by
  rw [instantiate, values, h]
  rcases allocateAll r f.name t f.identifiers a with ⟨e | given, b⟩
  · simp [Except.map]
  · obtain ⟨u, top, hu, _⟩ := Tree.plant_spec (f.root.render ⟨resolved, given⟩) wf
    simp [Except.map, hu]

theorem keys_of_instantiate (h : f.instantiate tokens t a r = (.ok made, left)) :
    made.values.identifiers.map Prod.fst = f.identifiers :=
  keys_of_allocateAll (instantiate_eq_ok h).1

/-- The texts of an instance say what the templates of the fragment say. -/
theorem says_of_instantiate (h : f.instantiate tokens t a r = (.ok made, left)) :
    ∀ template ∈ f.root.texts,
      template.Says tokens made.values.identifiers (made.values.render template) := by
  intro template htemplate
  refine ⟨_, mapM_meaning? ?_, rfl⟩
  intro segment hsegment
  apply meaning?_of_mem (tokens_resolved (instantiate_eq_ok h).2) (keys_of_instantiate h)
  rw [FragmentNode.segments_eq]
  exact List.mem_flatMap_of_mem htemplate hsegment

theorem rendered_of_instantiate (sound : r.Sound) (wf : t.WellFormed)
    (h : f.instantiate tokens t a r = (.ok made, left)) :
    f.Rendered tokens r t a made left := by
  have hplant := plant_of_instantiate h
  obtain ⟨hgiven, _⟩ := instantiate_eq_ok h
  obtain ⟨u, top, hspec, planted⟩ := Tree.plant_spec (f.root.render made.values) wf
  cases hspec.symm.trans hplant
  obtain ⟨header, content⟩ := Tree.content_of_plant _ wf hplant
  have hnodup : (made.values.identifiers.map Prod.fst).Nodup := by
    rw [keys_of_instantiate h, identifiers_eq]
    exact nodup_eraseDups _
  constructor
  · exact planted.wellFormed
  · exact ⟨header, planted.contentBelow wf wf.documentId_lt⟩
  · intro x hx
    exact ⟨planted.extends_.kinds x hx, planted.extends_.parents x hx, planted.children x hx⟩
  · refine ⟨planted.free, ?_⟩
    intro attached
    rcases Relation.ReflTransGen.cases_tail attached with e | ⟨p, _, hp⟩
    · rw [planted.top_eq] at e
      exact Nat.ne_of_gt wf.documentId_lt e
    · cases planted.free.symm.trans hp
  · exact Tree.shows_of_contentAt planted.wellFormed f.root (says_of_instantiate h) content
  · intro name space hspace j label hj
    rw [labels_eq] at hj
    exact Entries.lookup_of_mem hnodup
      (mem_of_allocateAll sound.space_name hspace hgiven hj)
  · intro name label other id hlabel hother
    by_contra hne
    have symmetric : Std.Symm fun p q : (String × String) × String => p.1.1 = q.1.1 → p.2 ≠ q.2 :=
      ⟨fun _ _ hpq e => (hpq e.symm).symm⟩
    exact (distinct_of_allocateAll sound.space_name hgiven).forall (Entries.mem_of_lookup hlabel)
      (Entries.mem_of_lookup hother) (fun e => hne (congrArg (fun p => p.1.2) e)) rfl rfl
  · intro name space hspace
    rw [labels_eq]
    exact current?_of_allocateAll sound.space_name hspace hgiven

/-- An instance of a fragment fails for the first token that has no value, and otherwise only if a
namespace has too few numbers left. Else it is the fragment, node by node, with each placeholder
replaced, and stands in the tree beside all that was there. -/
theorem instantiate_spec {d : Registry.Document} (compiled : Registry.compile d = .ok r)
    {key : String} (found : r.fragment? key = some f) (tokens : Token.Resolver)
    (wf : t.WellFormed) (a : Allocator) :
    (∀ name, f.firstUnresolved? tokens = some name →
      f.instantiate tokens t a r = (.error (.unresolvedToken ⟨name⟩), a)) ∧
    ((∃ e, (f.instantiate tokens t a r).1 = .error e) ↔
      (∃ name, f.firstUnresolved? tokens = some name) ∨
        ∃ name space, r.identifierSpace? name = some space ∧
          ¬ space.HasRoom t a (f.labels name).length) ∧
    ∀ made left, f.instantiate tokens t a r = (.ok made, left) →
      f.Rendered tokens r t a made left := by
  have sound := Registry.sound_of_compile compiled
  have rendered : ∀ made left, f.instantiate tokens t a r = (.ok made, left) →
      f.Rendered tokens r t a made left := fun _ _ h => rendered_of_instantiate sound wf h
  rcases resolveTokens_cases f tokens with ⟨first, hfirst, herror⟩ | ⟨hnone, resolved, hok, _⟩
  · have hfails := instantiate_of_unresolved herror t a r
    refine ⟨?_, ?_, rendered⟩
    · intro name hname
      cases hfirst.symm.trans hname
      exact hfails
    · rw [hfails]
      exact iff_of_true ⟨_, rfl⟩ (Or.inl ⟨first, hfirst⟩)
  · refine ⟨?_, ?_, rendered⟩
    · intro name hname
      cases hnone.symm.trans hname
    · rw [instantiate_isError_iff wf hok,
        allocateAll_isOk_iff sound.space_name (sound.spaces key f found), hnone]
      simp only [← labels_eq]
      simp

/-- Forms that number themselves and their fields; a form's title has a number of its own. -/
def forms : Registry.Document where
  metadata := ⟨"", none, none⟩
  namespaces := .empty
  elements := .ofList [("form", .short "form"), ("field", .short "field")]
  attributes := .ofList [("id", .short "id")]
  identifiers := .ofList [("n", ⟨["id"], "n", none⟩), ("t", ⟨["id"], "", some 1⟩)]
  values := .empty
  paths := .empty
  fragments := .ofList [("form", .node "form" (.ofList [("id", "#\x7bn:form\x7d")])
    (some "#\x7bt:form\x7d \x7b\x7btitle\x7d\x7d")
    [.node "field" (.ofList [("id", "#\x7bn:field\x7d of #\x7bn:form\x7d")]) none []])]
  parts := .empty

def form : Fragment where
  name := "form"
  root := .node (.plain "form") [(.plain "id", ⟨[.identifier "n" "form"]⟩)]
    (some ⟨[.identifier "t" "form", .literal " ", .token "title"]⟩)
    [.node (.plain "field") [(.plain "id",
      ⟨[.identifier "n" "field", .literal " of ", .identifier "n" "form"]⟩)] none []]

def olderForm : Tree where
  nodes := #[⟨.document, none, [1]⟩,
    ⟨.element ⟨.plain "form", [⟨.plain "id", "n7"⟩], []⟩, some 0, []⟩]
  header := none

/-- A title that looks like a token. -/
def titled (name : String) : Option String :=
  if name = "title" then some "\x7b\x7btitle\x7d\x7d" else none

def twoForms : Tree where
  nodes := #[⟨.document, none, [1]⟩,
    ⟨.element ⟨.plain "form", [⟨.plain "id", "n7"⟩], []⟩, some 0, []⟩,
    ⟨.element ⟨.plain "form", [⟨.plain "id", "n8"⟩], []⟩, none, [3, 4]⟩,
    ⟨.text "1 \x7b\x7btitle\x7d\x7d", some 2, []⟩,
    ⟨.element ⟨.plain "field", [⟨.plain "id", "n9 of n8"⟩], []⟩, some 2, []⟩]
  header := none

def formNumbers : Allocator := ⟨.ofList [("n", 9), ("t", 1)]⟩

theorem compile_forms : Registry.compile forms = .ok forms.resolved := by
  rw [Registry.compile_eq_ok_iff]
  refine ⟨?_, rfl⟩
  cbv

theorem fragment?_forms : forms.resolved.fragment? "form" = some form := by cbv

theorem read_olderForm : Xml.read "<form id='n7'/>" = .ok olderForm := by cbv

theorem values_form : form.values titled olderForm .empty forms.resolved =
    (.ok ⟨[("title", "\x7b\x7btitle\x7d\x7d")],
      [(("n", "form"), "n8"), (("t", "form"), "1"), (("n", "field"), "n9")]⟩, formNumbers) := by
  cbv

theorem labels_form : form.labels "n" = ["form", "field"] ∧ form.labels "t" = ["form"] := by
  constructor
  · cbv
  · cbv

theorem instantiate_spec_form :
    form.instantiate (fun _ => none) olderForm .empty forms.resolved =
      (.error (.unresolvedToken ⟨"title"⟩), .empty) ∧
    (∃ e, (form.instantiate titled olderForm formNumbers forms.resolved).1 = .error e) ∧
    ∃ made, form.instantiate titled olderForm .empty forms.resolved = (.ok made, formNumbers) ∧
      made.tree = twoForms ∧ made.values.identifiers.lookup ("n", "field") = some "n9" ∧
      twoForms.Shows (TemplateText.Says titled made.values.identifiers) form.root 2 := by
  have wf : olderForm.WellFormed := Xml.wellFormed_of_read read_olderForm
  have hmade : form.instantiate titled olderForm .empty forms.resolved =
      (.ok ⟨twoForms, 2, ⟨[("title", "\x7b\x7btitle\x7d\x7d")],
        [(("n", "form"), "n8"), (("t", "form"), "1"), (("n", "field"), "n9")]⟩⟩, formNumbers) := by
    rw [instantiate, values_form]
    cbv
  have numbers : forms.resolved.identifierSpace? "n" =
      some ⟨"n", [.plain "id"], "n", 4294967295⟩ := by cbv
  have once : forms.resolved.identifierSpace? "t" = some ⟨"t", [.plain "id"], "", 1⟩ := by cbv
  have full : ¬ IdentifierSpace.HasRoom ⟨"t", [.plain "id"], "", 1⟩ olderForm formNumbers
      (form.labels "t").length := by
    rw [labels_form.2]
    rintro (hzero | ⟨hmax, _⟩)
    · cases hzero
    · revert hmax
      cbv
      decide
  obtain ⟨unresolved, _, _⟩ :=
    instantiate_spec compile_forms fragment?_forms (fun _ => none) wf .empty
  obtain ⟨_, _, rendered⟩ := instantiate_spec compile_forms fragment?_forms titled wf .empty
  obtain ⟨_, fails, _⟩ := instantiate_spec compile_forms fragment?_forms titled wf formNumbers
  have shown := rendered _ _ hmade
  refine ⟨unresolved "title" (by cbv), fails.2 (Or.inr ⟨"t", _, once, full⟩), _, hmade, rfl, ?_,
    shown.shows⟩
  exact shown.numbered "n" _ numbers 1 "field" (by rw [labels_form.1]; rfl)

end Fragment

end PartPatch
