import Mathlib.Data.List.Basic
import PartPatch.Proofs.Entries
import PartPatch.Registry.Document

/-!
# Layers

Documents can be laid over one another in any grouping: nothing but the order from the bottom to the
top counts. The upper document's entries win, and those of the lower one keep their places.
-/

namespace PartPatch.Entries

set_option autoImplicit false

variable {α : Type}

/-- A table is determined by the order of its keys and by what is found under them. -/
theorem toList_eq (t : Entries α) :
    t.toList = t.keys.filterMap fun key => (t.find? key).map (key, ·) := by
  have hfound : ∀ entry ∈ t.toList,
      ((fun key => (t.find? key).map (key, ·)) ∘ Prod.fst) entry = some entry := by
    intro entry hentry
    rw [Function.comp_apply, find?_eq_some_iff.2 hentry]
    rfl
  rw [keys, List.filterMap_map, List.filterMap_congr hfound, List.filterMap_some]

theorem ext_find? {t u : Entries α} (hkeys : t.keys = u.keys)
    (hfind : ∀ key, t.find? key = u.find? key) : t = u := by
  have hlist : t.toList = u.toList := by
    rw [toList_eq, toList_eq, hkeys]
    exact List.filterMap_congr fun key _ => by rw [hfind]
  obtain ⟨entries, _⟩ := t
  cases hlist
  rfl

/-! ## Merged tables -/

theorem find?_insertAll (t : Entries α) {entries : List (String × α)}
    (distinct : (entries.map Prod.fst).Nodup) (key : String) :
    (t.insertAll entries).find? key = (entries.lookup key).or (t.find? key) := by
  induction entries generalizing t with
  | nil => rfl
  | cons entry rest ih =>
    rw [List.map_cons, List.nodup_cons] at distinct
    have hstep : (t.insertAll (entry :: rest)).find? key =
        (rest.lookup key).or ((t.insert entry.1 entry.2).find? key) :=
      ih (t.insert entry.1 entry.2) distinct.2
    rw [hstep, find?_insert, List.lookup_cons]
    by_cases hkey : key = entry.1
    · have hrest : rest.lookup key = none := by
        rw [← Option.not_isSome_iff_eq_none, lookup_isSome_iff, hkey]
        exact distinct.1
      rw [hrest, Option.none_or, if_pos hkey, beq_iff_eq.2 hkey, Option.some_or]
    · rw [if_neg hkey, beq_eq_false_iff_ne.2 hkey]

theorem keys_insertAll (t : Entries α) {entries : List (String × α)}
    (distinct : (entries.map Prod.fst).Nodup) :
    (t.insertAll entries).keys =
      t.keys ++ (entries.map Prod.fst).filter fun key => key ∉ t.keys := by
  induction entries generalizing t with
  | nil => exact (List.append_nil _).symm
  | cons entry rest ih =>
    rw [List.map_cons, List.nodup_cons] at distinct
    have hstep : (t.insertAll (entry :: rest)).keys = (t.insert entry.1 entry.2).keys ++
        (rest.map Prod.fst).filter fun key => key ∉ (t.insert entry.1 entry.2).keys :=
      ih (t.insert entry.1 entry.2) distinct.2
    rw [hstep, keys_insert, List.map_cons]
    by_cases hmem : entry.1 ∈ t.keys
    · rw [if_pos hmem, List.filter_cons_of_neg (by simpa using hmem)]
    · have hrest : ((rest.map Prod.fst).filter fun key => key ∉ t.keys ++ [entry.1]) =
          (rest.map Prod.fst).filter fun key => key ∉ t.keys := by
        apply List.filter_congr
        intro key hkey
        have hne : key ≠ entry.1 := fun e => distinct.1 (e ▸ hkey)
        simp [hne]
      rw [if_neg hmem, hrest, List.filter_cons_of_pos (by simpa using hmem), List.append_assoc,
        List.singleton_append]

theorem find?_merge (base overlay : Entries α) (key : String) :
    (base.merge overlay).find? key = (overlay.find? key).or (base.find? key) :=
  find?_insertAll base overlay.distinct key

theorem keys_merge (base overlay : Entries α) :
    (base.merge overlay).keys = base.keys ++ overlay.keys.filter fun key => key ∉ base.keys :=
  keys_insertAll base overlay.distinct

theorem merge_assoc (a b c : Entries α) : (a.merge b).merge c = a.merge (b.merge c) := by
  apply ext_find?
  · have hnew : (c.keys.filter fun key => key ∉ (a.merge b).keys) =
        (c.keys.filter fun key => key ∉ b.keys).filter fun key => key ∉ a.keys := by
      rw [List.filter_filter]
      apply List.filter_congr
      intro key _
      by_cases ha : key ∈ a.keys
      · simp [keys_merge, ha]
      · simp [keys_merge, ha]
    rw [keys_merge, hnew, keys_merge, keys_merge, keys_merge, List.filter_append,
      List.append_assoc]
  · intro key
    rw [find?_merge, find?_merge, find?_merge, find?_merge, Option.or_assoc]

theorem empty_merge (t : Entries α) : empty.merge t = t := by
  apply ext_find?
  · rw [keys_merge]
    exact List.filter_eq_self.2 fun _ _ => rfl
  · intro key
    rw [find?_merge]
    exact Option.or_none

theorem merge_empty (t : Entries α) : t.merge empty = t := rfl

theorem merge_self (t : Entries α) : t.merge t = t := by
  apply ext_find?
  · have hnone : (t.keys.filter fun key => key ∉ t.keys) = [] :=
      List.filter_eq_nil_iff.2 fun key hkey => by simpa using hkey
    rw [keys_merge, hnone, List.append_nil]
  · intro key
    rw [find?_merge, Option.or_self]

end PartPatch.Entries

namespace PartPatch

/-- The table is the base with the overlay on top of it: what the overlay has is found there, all
else in the base; the keys of the base keep their places and new ones follow in the overlay's
order. -/
structure Entries.Overlaid {α : Type} (base overlay merged : Entries α) : Prop where
  find? : ∀ key, merged.find? key = (overlay.find? key).or (base.find? key)
  keys : merged.keys = base.keys ++ overlay.keys.filter fun key => key ∉ base.keys

theorem Entries.overlaid_merge {α : Type} (base overlay : Entries α) :
    base.Overlaid overlay (base.merge overlay) :=
  ⟨find?_merge base overlay, keys_merge base overlay⟩

namespace Registry

namespace Metadata

theorem layer_assoc (a b c : Metadata) : (a.layer b).layer c = a.layer (b.layer c) := by
  have hname : (if c.name = "" then (if b.name = "" then a.name else b.name) else c.name) =
      if (if c.name = "" then b.name else c.name) = "" then a.name
      else if c.name = "" then b.name else c.name := by
    by_cases hc : c.name = ""
    · simp only [if_pos hc]
    · simp only [if_neg hc]
  simp only [layer, hname, Option.orElse_eq_orElse, Option.orElse_eq_or, Option.or_assoc]

theorem layer_self (a : Metadata) : a.layer a = a := by
  simp [layer]

end Metadata

namespace Document

/-- What a text without entries says. -/
def empty : Document where
  metadata := ⟨"", none, none⟩
  namespaces := .empty
  elements := .empty
  attributes := .empty
  identifiers := .empty
  values := .empty
  paths := .empty
  fragments := .empty
  parts := .empty

/-- Every table of the document is the base's with the overlay's on top of it. -/
structure Overlaid (base overlay merged : Document) : Prop where
  namespaces : base.namespaces.Overlaid overlay.namespaces merged.namespaces
  elements : base.elements.Overlaid overlay.elements merged.elements
  attributes : base.attributes.Overlaid overlay.attributes merged.attributes
  identifiers : base.identifiers.Overlaid overlay.identifiers merged.identifiers
  values : base.values.Overlaid overlay.values merged.values
  paths : base.paths.Overlaid overlay.paths merged.paths
  fragments : base.fragments.Overlaid overlay.fragments merged.fragments
  parts : base.parts.Overlaid overlay.parts merged.parts

theorem overlaid_layer (base overlay : Document) : base.Overlaid overlay (base.layer overlay) where
  namespaces := Entries.overlaid_merge _ _
  elements := Entries.overlaid_merge _ _
  attributes := Entries.overlaid_merge _ _
  identifiers := Entries.overlaid_merge _ _
  values := Entries.overlaid_merge _ _
  paths := Entries.overlaid_merge _ _
  fragments := Entries.overlaid_merge _ _
  parts := Entries.overlaid_merge _ _

theorem layer_assoc (a b c : Document) : (a.layer b).layer c = a.layer (b.layer c) := by
  simp only [layer, Metadata.layer_assoc, Entries.merge_assoc]

theorem empty_layer (a : Document) : empty.layer a = a := by
  have hmetadata : (Metadata.mk "" none none).layer a.metadata = a.metadata := by
    obtain ⟨name, description, version⟩ := a.metadata
    by_cases hname : name = ""
    · simp [Metadata.layer, hname]
    · simp [Metadata.layer, hname]
  simp only [layer, empty, hmetadata, Entries.empty_merge]

theorem layer_empty (a : Document) : a.layer empty = a := by
  have hmetadata : a.metadata.layer ⟨"", none, none⟩ = a.metadata := by
    simp [Metadata.layer]
  simp only [layer, empty, hmetadata, Entries.merge_empty]

theorem layer_self (a : Document) : a.layer a = a := by
  simp only [layer, Metadata.layer_self, Entries.merge_self]

/-- A stack of layers can be merged in pieces. -/
theorem ofLayers?_append (lower upper : List Document) :
    ofLayers? (lower ++ upper) = Option.merge layer (ofLayers? lower) (ofLayers? upper) := by
  cases lower with
  | nil => simp [ofLayers?]
  | cons base overlays =>
    cases upper with
    | nil => simp [ofLayers?]
    | cons first more =>
      have assoc : Std.Associative layer := ⟨layer_assoc⟩
      simp only [List.cons_append, ofLayers?, Option.merge_some_some, List.foldl_append,
        List.foldl_cons, List.foldl_assoc]

theorem layer_laws (a b c : Document) :
    (a.layer b).layer c = a.layer (b.layer c) ∧ empty.layer a = a ∧ a.layer empty = a ∧
      a.layer a = a ∧ a.Overlaid b (a.layer b) :=
  ⟨layer_assoc a b c, empty_layer a, layer_empty a, layer_self a, overlaid_layer a b⟩

end Document

end Registry

end PartPatch
