import PartPatch.Entries
import PartPatch.Package.Part

/-!
# Registry documents

What a registry file says, before its symbols are resolved. Documents can be laid over one another:
the entries of the upper one win and new ones come last.
-/

namespace PartPatch.Registry

set_option autoImplicit false

structure Metadata where
  name : String
  description : Option String
  version : Option String
deriving DecidableEq, Repr

/-- The name of an element or attribute, either `prefix:local` in one text or in two parts. -/
inductive NameDefinition where
  | short (text : String)
  | full (name : String) (qualifier : Option String)
deriving DecidableEq, Repr

structure IdentifierDefinition where
  attributes : List String
  start : String
  max : Option Nat
deriving DecidableEq, Repr

inductive FragmentDefinition where
  | node (element : String) (attributes : Entries String) (text : Option String)
      (children : List FragmentDefinition)

namespace FragmentDefinition

mutual

def same : FragmentDefinition → FragmentDefinition → Bool
  | .node e as t cs, .node f bs u ds => e == f && decide (as = bs) && t == u && sameAll cs ds

def sameAll : List FragmentDefinition → List FragmentDefinition → Bool
  | [], [] => true
  | c :: cs, d :: ds => same c d && sameAll cs ds
  | _, _ => false

end

mutual

theorem eq_of_same : ∀ {c d : FragmentDefinition}, same c d = true → c = d
  | .node _ _ _ cs, .node _ _ _ ds, h => by
    simp only [same, Bool.and_eq_true, beq_iff_eq, decide_eq_true_eq] at h
    obtain ⟨⟨⟨he, ha⟩, ht⟩, hc⟩ := h
    rw [he, ha, ht, eq_of_sameAll hc]

theorem eq_of_sameAll : ∀ {cs ds : List FragmentDefinition}, sameAll cs ds = true → cs = ds
  | [], [], _ => rfl
  | c :: cs, d :: ds, h => by
    simp only [sameAll, Bool.and_eq_true] at h
    rw [eq_of_same h.1, eq_of_sameAll h.2]
  | [], _ :: _, h => by simp [sameAll] at h
  | _ :: _, [], h => by simp [sameAll] at h

end

mutual

theorem same_self : ∀ c : FragmentDefinition, same c c = true
  | .node _ _ _ cs => by simp [same, sameAll_self cs]

theorem sameAll_self : ∀ cs : List FragmentDefinition, sameAll cs cs = true
  | [] => rfl
  | c :: cs => by simp [sameAll, same_self c, sameAll_self cs]

end

instance : DecidableEq FragmentDefinition := fun c d =>
  if h : same c d = true then isTrue (eq_of_same h)
  else isFalse fun e => h (e ▸ same_self c)

end FragmentDefinition

structure Document where
  metadata : Metadata
  namespaces : Entries String
  elements : Entries NameDefinition
  attributes : Entries NameDefinition
  identifiers : Entries IdentifierDefinition
  values : Entries String
  paths : Entries String
  fragments : Entries FragmentDefinition
  parts : Entries PartSpec
deriving DecidableEq

/-- An empty name, a missing description and a missing version do not override. -/
def Metadata.layer (base overlay : Metadata) : Metadata where
  name := if overlay.name = "" then base.name else overlay.name
  description := overlay.description <|> base.description
  version := overlay.version <|> base.version

/-- The base with the overlay on top of it. -/
def Document.layer (base overlay : Document) : Document where
  metadata := base.metadata.layer overlay.metadata
  namespaces := base.namespaces.merge overlay.namespaces
  elements := base.elements.merge overlay.elements
  attributes := base.attributes.merge overlay.attributes
  identifiers := base.identifiers.merge overlay.identifiers
  values := base.values.merge overlay.values
  paths := base.paths.merge overlay.paths
  fragments := base.fragments.merge overlay.fragments
  parts := base.parts.merge overlay.parts

/-- The layers merged, the first of them at the bottom, if there is one. -/
def Document.ofLayers? : List Document → Option Document
  | [] => none
  | base :: overlays => some (overlays.foldl Document.layer base)

end PartPatch.Registry
