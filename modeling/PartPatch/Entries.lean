/-!
# Tables in the order of their entries

A table gives values to names. Each name has one entry; an entry that is overwritten keeps its
place, and a new one is added at the end.
-/

namespace PartPatch

set_option autoImplicit false

structure Entries (α : Type) where
  toList : List (String × α)
  distinct : (toList.map Prod.fst).Nodup
deriving DecidableEq

namespace Entries

variable {α β : Type}

def put (key : String) (value : α) : List (String × α) → List (String × α)
  | [] => [(key, value)]
  | entry :: rest =>
    if entry.1 = key then (key, value) :: rest else entry :: put key value rest

theorem fst_mem_put {key : String} {value : α} {entries : List (String × α)} {k : String}
    (h : k ∈ (put key value entries).map Prod.fst) : k = key ∨ k ∈ entries.map Prod.fst := by
  induction entries with
  | nil => simpa [put] using h
  | cons entry rest ih =>
    unfold put at h
    split at h
    · next e =>
      simp only [List.map_cons, List.mem_cons] at h ⊢
      exact h.imp_right Or.inr
    · simp only [List.map_cons, List.mem_cons] at h ⊢
      rcases h with h | h
      · exact Or.inr (Or.inl h)
      · exact (ih h).imp_right Or.inr

theorem nodup_put {key : String} {value : α} {entries : List (String × α)}
    (h : (entries.map Prod.fst).Nodup) : ((put key value entries).map Prod.fst).Nodup := by
  induction entries with
  | nil => simp [put]
  | cons entry rest ih =>
    simp only [List.map_cons, List.nodup_cons] at h
    unfold put
    split
    · next e =>
      simp only [List.map_cons, List.nodup_cons]
      exact ⟨e ▸ h.1, h.2⟩
    · next e =>
      simp only [List.map_cons, List.nodup_cons]
      exact ⟨fun hm => (fst_mem_put hm).elim e h.1, ih h.2⟩

theorem lookup_put (key k : String) (value : α) (entries : List (String × α)) :
    (put key value entries).lookup k = if k = key then some value else entries.lookup k := by
  induction entries with
  | nil => by_cases h : k = key <;> simp [put, h]
  | cons entry rest ih =>
    obtain ⟨e, v⟩ := entry
    by_cases he : e = key
    · subst he
      by_cases h : k = e
      · simp [put, h]
      · have hb : (k == e) = false := by simpa using h
        simp [put, List.lookup_cons, h, hb]
    · by_cases h : k = e
      · subst h
        simp [put, he]
      · have hb : (k == e) = false := by simpa using h
        simp [put, he, List.lookup_cons, hb, ih]

def empty : Entries α := ⟨[], List.nodup_nil⟩

def insert (t : Entries α) (key : String) (value : α) : Entries α :=
  ⟨put key value t.toList, nodup_put t.distinct⟩

def find? (t : Entries α) (key : String) : Option α :=
  t.toList.lookup key

def contains (t : Entries α) (key : String) : Bool :=
  (t.find? key).isSome

def keys (t : Entries α) : List String :=
  t.toList.map Prod.fst

def values (t : Entries α) : List α :=
  t.toList.map Prod.snd

theorem find?_insert (t : Entries α) (key k : String) (value : α) :
    (t.insert key value).find? k = if k = key then some value else t.find? k :=
  lookup_put key k value t.toList

/-- The table with all entries of a list inserted one after the other. -/
def insertAll (t : Entries α) (entries : List (String × α)) : Entries α :=
  entries.foldl (fun t entry => t.insert entry.1 entry.2) t

def ofList (entries : List (String × α)) : Entries α :=
  empty.insertAll entries

/-- The first table overlaid by the second, whose entries win. -/
def merge (base overlay : Entries α) : Entries α :=
  base.insertAll overlay.toList

/-- The entries whose image is defined, in their order. -/
def filterMap (f : String → α → Option β) (t : Entries α) : Entries β where
  toList := t.toList.filterMap fun entry => (f entry.1 entry.2).map (entry.1, ·)
  distinct := by
    refine List.Nodup.sublist ?_ t.distinct
    generalize t.toList = entries
    induction entries with
    | nil => exact List.Sublist.refl _
    | cons entry rest ih =>
      rw [List.filterMap_cons]
      split
      · exact List.Sublist.cons _ ih
      · next e =>
        simp only [Option.map_eq_some_iff] at e
        obtain ⟨v, _, rfl⟩ := e
        exact List.Sublist.cons_cons _ ih

def map (f : String → α → β) (t : Entries α) : Entries β :=
  t.filterMap fun key value => some (f key value)

end Entries

end PartPatch
