import PartPatch.Package.Relationship
import PartPatch.Proofs.Entries
import PartPatch.Proofs.Identifier.Allocator

/-!
# Relationships on a source

Relationships that a source has already are recorded unless their identifier is in use. A new one
comes behind them with the number after the greatest in use, which makes its identifier a new one.
There is no such number only if the greatest one of 64 bits is in use.
-/

namespace PartPatch

set_option autoImplicit false

theorem Text.number?_le {s : List Char} {n : Nat} (h : number? s = some n) : n ≤ maxNumber := by
  have hdigits : ∀ {s : List Char}, digits? s = some n → n ≤ maxNumber := by
    intro s hs
    unfold digits? at hs
    split at hs
    · next bound =>
      cases hs
      exact bound.2.2
    · cases hs
  unfold number? at h
  split at h
  · exact hdigits h
  · exact hdigits h

namespace Relationship

/-- The relationships with another one, unless its identifier is in use. -/
def adjoin (existing : List Relationship) (r : Relationship) : List Relationship :=
  if existing.any (·.id = r.id) then existing else existing ++ [r]

/-- The identifier has the usual form and the greatest number that there is. -/
def AtLimit (id : String) : Prop :=
  number? ⟨id, "", ""⟩ = some Text.maxNumber

variable {existing others rs : List Relationship} {r : Relationship} {id : String}

theorem number?_le {n : Nat} (h : r.number? = some n) : n ≤ Text.maxNumber := by
  obtain ⟨_, _, h⟩ := Option.bind_eq_some_iff.1 h
  exact Text.number?_le h

theorem number?_numbered {n : Nat} (h : n ≤ Text.maxNumber) (type target : String) :
    number? ⟨idStart ++ toString n, type, target⟩ = some n := by
  have hafter : Text.after? idStart.toList (idStart ++ toString n).toList =
      some (toString n).toList := by
    rw [Text.after?_eq_some_iff, String.toList_append]
  rw [number?, hafter, Option.bind_some, Text.number?_toString h]

theorem any_id_iff : existing.any (·.id = r.id) = true ↔ r.id ∈ existing.map Relationship.id := by
  simp [List.any_eq_true]

theorem nodup_ids_append (h : (existing.map Relationship.id).Nodup)
    (hnew : r.id ∉ existing.map Relationship.id) :
    ((existing ++ [r]).map Relationship.id).Nodup := by
  rw [List.map_append, List.map_singleton]
  refine List.nodup_append.2 ⟨h, List.nodup_singleton _, ?_⟩
  intro a ha b hb e
  rw [List.mem_singleton.1 hb] at e
  exact hnew (e ▸ ha)

theorem nodup_adjoin (h : (existing.map Relationship.id).Nodup) (r : Relationship) :
    ((adjoin existing r).map Relationship.id).Nodup := by
  unfold adjoin
  split
  · exact h
  · next hnew =>
    rw [any_id_iff] at hnew
    exact nodup_ids_append h hnew

theorem mem_ids_adjoin : id ∈ (adjoin existing r).map Relationship.id ↔
    id ∈ existing.map Relationship.id ∨ id = r.id := by
  unfold adjoin
  split
  · next hused =>
    rw [any_id_iff] at hused
    exact ⟨Or.inl, fun h => h.elim (fun h => h) fun e => e ▸ hused⟩
  · rw [List.map_append, List.mem_append, List.map_singleton, List.mem_singleton]

theorem nodup_foldl_adjoin (h : (existing.map Relationship.id).Nodup) (rs : List Relationship) :
    ((rs.foldl adjoin existing).map Relationship.id).Nodup := by
  induction rs generalizing existing with
  | nil => exact h
  | cons r rs ih => exact ih (nodup_adjoin h r)

theorem mem_ids_foldl_adjoin : id ∈ (rs.foldl adjoin existing).map Relationship.id ↔
    id ∈ existing.map Relationship.id ∨ id ∈ rs.map Relationship.id := by
  induction rs generalizing existing with
  | nil => simp
  | cons r rs ih => rw [List.foldl_cons, ih, mem_ids_adjoin, List.map_cons, List.mem_cons, or_assoc]

end Relationship

namespace PackageMetadata

open Relationship

variable {m : PackageMetadata} {part : PartSpec} {spec : RelationshipSpec}
  {existing others : List Relationship}

/-! ## Numbers -/

/-- The greatest number that there is is in use, so that there is none after it. -/
def Full (existing : List Relationship) : Prop :=
  ∃ id ∈ existing.map Relationship.id, AtLimit id

theorem mem_numbers {n : Nat} : n ∈ existing.filterMap Relationship.number? ↔
    ∃ id ∈ existing.map Relationship.id, Relationship.number? ⟨id, "", ""⟩ = some n := by
  rw [List.mem_filterMap]
  constructor
  · rintro ⟨r, hr, hn⟩
    exact ⟨r.id, List.mem_map_of_mem hr, hn⟩
  · rintro ⟨id, hid, hn⟩
    obtain ⟨r, hr, rfl⟩ := List.mem_map.1 hid
    exact ⟨r, hr, hn⟩

theorem foldl_max_le {numbers : List Nat} {start bound : Nat} (hstart : start ≤ bound)
    (h : ∀ n ∈ numbers, n ≤ bound) : numbers.foldl Nat.max start ≤ bound := by
  induction numbers generalizing start with
  | nil => exact hstart
  | cons n numbers ih =>
    exact ih (Nat.max_le.2 ⟨hstart, h n List.mem_cons_self⟩) fun k hk =>
      h k (List.mem_cons_of_mem n hk)

theorem le_greatest {n : Nat} (h : n ∈ existing.filterMap Relationship.number?) :
    n ≤ greatest existing :=
  IdentifierSpace.le_foldl_max h

theorem greatest_le {bound : Nat}
    (h : ∀ id ∈ existing.map Relationship.id, ∀ n, Relationship.number? ⟨id, "", ""⟩ = some n →
      n ≤ bound) : greatest existing ≤ bound := by
  apply foldl_max_le (Nat.zero_le _)
  intro n hn
  obtain ⟨id, hid, hnumber⟩ := mem_numbers.1 hn
  exact h id hid n hnumber

theorem greatest_mono
    (h : ∀ id ∈ existing.map Relationship.id, id ∈ others.map Relationship.id) :
    greatest existing ≤ greatest others := by
  apply greatest_le
  intro id hid n hnumber
  exact le_greatest (mem_numbers.2 ⟨id, h id hid, hnumber⟩)

/-- Nothing but the identifiers counts. -/
theorem greatest_congr
    (h : ∀ id, id ∈ existing.map Relationship.id ↔ id ∈ others.map Relationship.id) :
    greatest existing = greatest others :=
  Nat.le_antisymm (greatest_mono fun id => (h id).1) (greatest_mono fun id => (h id).2)

theorem greatest_append (existing others : List Relationship) :
    greatest (existing ++ others) = max (greatest existing) (greatest others) := by
  apply Nat.le_antisymm
  · apply greatest_le
    intro id hid n hnumber
    rw [List.map_append, List.mem_append] at hid
    rcases hid with hid | hid
    · exact Nat.le_trans (le_greatest (mem_numbers.2 ⟨id, hid, hnumber⟩)) (Nat.le_max_left _ _)
    · exact Nat.le_trans (le_greatest (mem_numbers.2 ⟨id, hid, hnumber⟩)) (Nat.le_max_right _ _)
  · refine Nat.max_le.2 ⟨?_, ?_⟩
    · apply greatest_mono
      intro id hid
      rw [List.map_append]
      exact List.mem_append_left _ hid
    · apply greatest_mono
      intro id hid
      rw [List.map_append]
      exact List.mem_append_right _ hid

theorem greatest_foldl_adjoin (existing rs : List Relationship) :
    greatest (rs.foldl adjoin existing) = max (greatest existing) (greatest rs) := by
  rw [← greatest_append]
  apply greatest_congr
  intro id
  rw [mem_ids_foldl_adjoin, List.map_append, List.mem_append]

theorem greatest_le_maxNumber (existing : List Relationship) :
    greatest existing ≤ Text.maxNumber :=
  greatest_le fun _ _ _ hnumber => Relationship.number?_le hnumber

theorem greatest_eq_iff : greatest existing = Text.maxNumber ↔ Full existing := by
  constructor
  · intro h
    have found : greatest existing = 0 ∨ greatest existing ∈ existing.filterMap number? :=
      IdentifierSpace.foldl_max_mem _
    rw [h] at found
    exact mem_numbers.1 (found.resolve_left (by decide))
  · rintro ⟨id, hid, limit⟩
    exact Nat.le_antisymm (greatest_le_maxNumber existing)
      (le_greatest (mem_numbers.2 ⟨id, hid, limit⟩))

/-- The greatest number in use decides whether there is another one. -/
theorem full_congr {others : List Relationship} (h : greatest existing = greatest others) :
    Full existing ↔ Full others := by
  rw [← greatest_eq_iff, ← greatest_eq_iff, h]

/-- There is a number after the greatest in use, unless the greatest of all is in use. -/
theorem greatest_lt_iff : greatest existing < Text.maxNumber ↔ ¬ Full existing := by
  rw [← greatest_eq_iff]
  exact (greatest_le_maxNumber existing).lt_iff_ne

/-- There is a next identifier unless the greatest number of all is in use. -/
theorem nextId_eq_ok_iff {id : String} : nextId existing = .ok id ↔
    ¬ Full existing ∧ id = idStart ++ toString (greatest existing + 1) := by
  rw [← greatest_lt_iff, nextId]
  by_cases room : greatest existing + 1 ≤ Text.maxNumber
  · rw [if_pos room, Except.ok.injEq, eq_comm]
    exact (and_iff_right room).symm
  · rw [if_neg room]
    exact iff_of_false (fun h => nomatch h) fun both => room both.1

theorem nextId_eq_error_iff {e : PartError} :
    nextId existing = .error e ↔ Full existing ∧ e = .overflow := by
  rw [nextId]
  by_cases room : greatest existing + 1 ≤ Text.maxNumber
  · rw [if_pos room]
    exact iff_of_false (fun h => nomatch h) fun both => greatest_lt_iff.1 room both.1
  · have full : Full existing := by_contra fun free => room (greatest_lt_iff.2 free)
    rw [if_neg room, Except.error.injEq, eq_comm]
    exact (and_iff_right full).symm

/-- The next identifier is in use nowhere on the source. -/
theorem nextId_fresh {id : String} (h : nextId existing = .ok id) :
    id ∉ existing.map Relationship.id := by
  obtain ⟨room, rfl⟩ := nextId_eq_ok_iff.1 h
  intro used
  have hnumber := number?_numbered (greatest_lt_iff.2 room) "" ""
  exact Nat.not_succ_le_self _ (le_greatest (mem_numbers.2 ⟨_, used, hnumber⟩))

/-- The next identifier tells the greatest number in use. -/
theorem nextId_inj : nextId existing = nextId others ↔ greatest existing = greatest others := by
  constructor
  · intro same
    cases h : nextId existing with
    | error e =>
      have full := (nextId_eq_error_iff.1 h).1
      have full' := (nextId_eq_error_iff.1 (same.symm.trans h)).1
      rw [greatest_eq_iff.2 full, greatest_eq_iff.2 full']
    | ok id =>
      obtain ⟨room, hid⟩ := nextId_eq_ok_iff.1 h
      obtain ⟨room', hid'⟩ := nextId_eq_ok_iff.1 (same.symm.trans h)
      have hnumber := number?_numbered (greatest_lt_iff.2 room) "" ""
      rw [← hid, hid', number?_numbered (greatest_lt_iff.2 room') "" ""] at hnumber
      exact Nat.succ.inj (Option.some.inj hnumber).symm
  · intro h
    rw [nextId, nextId, h]

/-! ## Recording -/

theorem relationshipsOn_addRelationship (m : PackageMetadata) (source : String) (r : Relationship)
    (other : String) : (m.addRelationship source r).relationshipsOn other =
      if other = source then adjoin (m.relationshipsOn source) r else m.relationshipsOn other := by
  rw [addRelationship, relationshipsOn, Entries.find?_insert]
  by_cases h : other = source
  · rw [if_pos h, if_pos h]
    rfl
  · rw [if_neg h, if_neg h]
    rfl

theorem relationshipsOn_addRelationships (m : PackageMetadata) (source : String)
    (rs : List Relationship) (other : String) :
    (m.addRelationships source rs).relationshipsOn other =
      if other = source then rs.foldl adjoin (m.relationshipsOn source)
      else m.relationshipsOn other := by
  induction rs generalizing m with
  | nil =>
    by_cases h : other = source
    · rw [if_pos h, h]
      rfl
    · rw [if_neg h]
      rfl
  | cons r rs ih =>
    have hstep : (m.addRelationships source (r :: rs)).relationshipsOn other =
        ((m.addRelationship source r).addRelationships source rs).relationshipsOn other := rfl
    rw [hstep, ih]
    by_cases h : other = source
    · rw [if_pos h, if_pos h, relationshipsOn_addRelationship, if_pos rfl, List.foldl_cons]
    · rw [if_neg h, if_neg h, relationshipsOn_addRelationship, if_neg h]

theorem contentTypes_addRelationships (m : PackageMetadata) (source : String)
    (rs : List Relationship) : (m.addRelationships source rs).contentTypes = m.contentTypes := by
  induction rs generalizing m with
  | nil => rfl
  | cons r rs ih => exact ih (m.addRelationship source r)

/-- The identifier for the part's relationship, if it has one. -/
def identifier (m : PackageMetadata) (part : PartSpec) : Except PartError (Option String) :=
  match part.relationship with
  | none => .ok none
  | some spec => (nextId (m.relationshipsOn spec.source)).map some

theorem snd_register (m : PackageMetadata) (part : PartSpec) :
    (m.register part).map Prod.snd = m.identifier part := by
  unfold register identifier
  cases part.relationship with
  | none => rfl
  | some spec =>
    have hrelationships : ∀ types : Entries String,
        PackageMetadata.relationshipsOn ⟨types, m.relationships⟩ spec.source =
          m.relationshipsOn spec.source := fun _ => rfl
    simp only [hrelationships]
    cases nextId (m.relationshipsOn spec.source) with
    | error e => rfl
    | ok next => rfl

theorem map_identifier (h : part.relationship = some spec) {α : Type} (f : Option String → α) :
    (m.identifier part).map f =
      (nextId (m.relationshipsOn spec.source)).map fun id => f (some id) := by
  rw [identifier, h]
  dsimp only
  cases nextId (m.relationshipsOn spec.source) with
  | error e => rfl
  | ok id => rfl

theorem eq_overflow_of_identifier {e : PartError} (h : m.identifier part = .error e) :
    e = .overflow := by
  unfold identifier at h
  split at h
  · cases h
  · next spec _ =>
    cases hnext : nextId (m.relationshipsOn spec.source) with
    | error e' =>
      rw [hnext] at h
      cases h
      exact (nextId_eq_error_iff.1 hnext).2
    | ok next =>
      rw [hnext] at h
      cases h

/-- What is on record after a part has been recorded under the identifier: its content type, and its
relationship behind those that were on its source. -/
structure Records (m : PackageMetadata) (part : PartSpec) (left : PackageMetadata)
    (id : Option String) : Prop where
  contentTypes : left.contentTypes = m.contentTypes.insert part.name part.contentType
  unrelated : part.relationship = none → id = none ∧
    ∀ source, left.relationshipsOn source = m.relationshipsOn source
  related : ∀ spec, part.relationship = some spec → ∃ next, id = some next ∧
    nextId (m.relationshipsOn spec.source) = .ok next ∧
    ∀ source, left.relationshipsOn source =
      if source = spec.source then m.relationshipsOn source ++ [⟨next, spec.type, part.name⟩]
      else m.relationshipsOn source

/-- No number is left for the part's relationship. -/
def Exhausts (m : PackageMetadata) (part : PartSpec) : Prop :=
  ∃ spec, part.relationship = some spec ∧ Full (m.relationshipsOn spec.source)

/-- A part is recorded as a whole, unless no number is left for its relationship. -/
theorem register_cases (m : PackageMetadata) (part : PartSpec) :
    (m.Exhausts part ∧ m.register part = .error .overflow) ∨
      ¬ m.Exhausts part ∧ ∃ left id, m.register part = .ok (left, id) ∧
        m.Records part left id := by
  cases h : part.relationship with
  | none =>
    refine Or.inr ⟨?_, { m with
      contentTypes := m.contentTypes.insert part.name part.contentType }, none, ?_, rfl, ?_, ?_⟩
    · rintro ⟨spec, hspec, _⟩
      cases h.symm.trans hspec
    · simp only [register, h]
    · exact fun _ => ⟨rfl, fun _ => rfl⟩
    · intro spec hspec
      cases h.symm.trans hspec
  | some spec =>
    have hrelationships : ∀ types : Entries String,
        PackageMetadata.relationshipsOn ⟨types, m.relationships⟩ spec.source =
          m.relationshipsOn spec.source := fun _ => rfl
    cases hnext : nextId (m.relationshipsOn spec.source) with
    | error e =>
      obtain ⟨full, rfl⟩ := nextId_eq_error_iff.1 hnext
      refine Or.inl ⟨⟨spec, h, full⟩, ?_⟩
      simp only [register, h, hrelationships, hnext]
      rfl
    | ok next =>
      have room := (nextId_eq_ok_iff.1 hnext).1
      refine Or.inr ⟨?_, { m with
        contentTypes := m.contentTypes.insert part.name part.contentType
        relationships := m.relationships.insert spec.source
          (m.relationshipsOn spec.source ++ [⟨next, spec.type, part.name⟩]) }, some next, ?_, rfl,
        ?_, ?_⟩
      · rintro ⟨other, hother, full⟩
        cases h.symm.trans hother
        exact room full
      · simp only [register, h, hrelationships, hnext]
        rfl
      · intro hnone
        cases h.symm.trans hnone
      · intro other hother
        cases h.symm.trans hother
        refine ⟨next, rfl, hnext, fun source => ?_⟩
        rw [relationshipsOn, Entries.find?_insert]
        by_cases hsource : source = spec.source
        · rw [if_pos hsource, if_pos hsource, hsource]
          rfl
        · rw [if_neg hsource, if_neg hsource]
          rfl

end PackageMetadata

end PartPatch
