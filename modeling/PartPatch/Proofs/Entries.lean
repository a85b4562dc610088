import PartPatch.Entries

/-!
# Lookup in tables
-/

namespace PartPatch.Entries

set_option autoImplicit false

variable {α β : Type} {key : String} {value : α}

section

variable {κ : Type} [BEq κ] [LawfulBEq κ] {key : κ}

theorem mem_of_lookup {entries : List (κ × α)} (h : entries.lookup key = some value) :
    (key, value) ∈ entries := by
  obtain ⟨l₁, l₂, he, _⟩ := List.lookup_eq_some_iff.1 h
  rw [he]
  exact List.mem_append_right _ List.mem_cons_self

theorem lookup_isSome_iff {entries : List (κ × α)} :
    (entries.lookup key).isSome = true ↔ key ∈ entries.map Prod.fst := by
  rw [List.lookup_isSome_iff, List.mem_map]
  simp only [beq_iff_eq]
  constructor
  · rintro ⟨entry, hentry, e⟩
    exact ⟨entry, hentry, e.symm⟩
  · rintro ⟨entry, hentry, e⟩
    exact ⟨entry, hentry, e.symm⟩

theorem lookup_of_mem {entries : List (κ × α)} (distinct : (entries.map Prod.fst).Nodup)
    (h : (key, value) ∈ entries) : entries.lookup key = some value := by
  induction entries with
  | nil => cases h
  | cons entry rest ih =>
    rw [List.map_cons, List.nodup_cons] at distinct
    rcases List.mem_cons.1 h with rfl | h
    · exact List.lookup_cons_self
    · have hne : (key == entry.1) = false := by
        rw [beq_eq_false_iff_ne]
        intro e
        rw [← e] at distinct
        exact distinct.1 (List.mem_map.2 ⟨_, h, rfl⟩)
      rw [List.lookup_cons, hne]
      exact ih distinct.2 h

theorem lookup_filter_ne [DecidableEq κ] {other : κ} (h : key ≠ other) (entries : List (κ × α)) :
    (entries.filter fun entry => entry.1 ≠ other).lookup key = entries.lookup key := by
  induction entries with
  | nil => rfl
  | cons entry rest ih =>
    by_cases hentry : entry.1 = other
    · have hne : (key == entry.1) = false := beq_eq_false_iff_ne.2 (hentry ▸ h)
      rw [List.filter_cons_of_neg (by simp [hentry]), List.lookup_cons, hne]
      exact ih
    · rw [List.filter_cons_of_pos (by simp [hentry]), List.lookup_cons, List.lookup_cons, ih]

end

theorem find?_eq_some_iff {t : Entries α} : t.find? key = some value ↔ (key, value) ∈ t.toList :=
  ⟨mem_of_lookup, lookup_of_mem t.distinct⟩

theorem isSome_find?_iff {t : Entries α} : (t.find? key).isSome = true ↔ key ∈ t.keys :=
  lookup_isSome_iff

theorem find?_filterMap_eq_some_iff {t : Entries α} {f : String → α → Option β} {b : β} :
    (t.filterMap f).find? key = some b ↔ ∃ a, t.find? key = some a ∧ f key a = some b := by
  simp only [find?_eq_some_iff, filterMap, List.mem_filterMap]
  constructor
  · rintro ⟨⟨k, a⟩, ha, hb⟩
    obtain ⟨b', hb', e⟩ := Option.map_eq_some_iff.1 hb
    cases e
    exact ⟨a, ha, hb'⟩
  · rintro ⟨a, ha, hb⟩
    exact ⟨(key, a), ha, by rw [hb]; rfl⟩

theorem find?_map (t : Entries α) (f : String → α → β) (key : String) :
    (t.map f).find? key = (t.find? key).map (f key) := by
  apply Option.ext
  intro b
  rw [map, find?_filterMap_eq_some_iff, Option.map_eq_some_iff]
  simp

theorem keys_filterMap {t : Entries α} {f : String → α → Option β}
    (h : ∀ entry ∈ t.toList, ∃ b, f entry.1 entry.2 = some b) : (t.filterMap f).keys = t.keys := by
  rw [keys, keys, filterMap]
  dsimp only
  generalize t.toList = entries at h
  induction entries with
  | nil => rfl
  | cons entry rest ih =>
    obtain ⟨b, hb⟩ := h entry List.mem_cons_self
    rw [List.filterMap_cons, hb]
    dsimp only [Option.map_some]
    rw [List.map_cons, List.map_cons, ih fun e he => h e (List.mem_cons_of_mem entry he)]

/-! ## Inserted entries -/

theorem map_fst_put (key : String) (value : α) (entries : List (String × α)) :
    (put key value entries).map Prod.fst =
      if key ∈ entries.map Prod.fst then entries.map Prod.fst
      else entries.map Prod.fst ++ [key] := by
  induction entries with
  | nil => rfl
  | cons entry rest ih =>
    unfold put
    by_cases hkey : entry.1 = key
    · rw [if_pos hkey, if_pos (by rw [← hkey]; exact List.mem_cons_self)]
      rw [List.map_cons, List.map_cons, hkey]
    · have hcons : key ∈ (entry :: rest).map Prod.fst ↔ key ∈ rest.map Prod.fst := by
        rw [List.map_cons, List.mem_cons]
        exact or_iff_right fun e => hkey e.symm
      rw [if_neg hkey, List.map_cons, ih]
      by_cases hrest : key ∈ rest.map Prod.fst
      · rw [if_pos hrest, if_pos (hcons.2 hrest), List.map_cons]
      · rw [if_neg hrest, if_neg (mt hcons.1 hrest), List.map_cons, List.cons_append]

theorem keys_insert (t : Entries α) (key : String) (value : α) :
    (t.insert key value).keys = if key ∈ t.keys then t.keys else t.keys ++ [key] :=
  map_fst_put key value t.toList

theorem put_eq_append (value : α) {entries : List (String × α)}
    (h : key ∉ entries.map Prod.fst) : put key value entries = entries ++ [(key, value)] := by
  induction entries with
  | nil => rfl
  | cons entry rest ih =>
    rw [List.map_cons, List.mem_cons, not_or] at h
    rw [put, if_neg fun e => h.1 e.symm, ih h.2, List.cons_append]

/-- An entry under a new key comes last. -/
theorem toList_insert {t : Entries α} (h : key ∉ t.keys) (value : α) :
    (t.insert key value).toList = t.toList ++ [(key, value)] :=
  put_eq_append value h

end PartPatch.Entries
