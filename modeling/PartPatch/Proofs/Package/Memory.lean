import Mathlib
import PartPatch.Package.Memory
import PartPatch.Proofs.Package.Relationship

/-!
# Packages in memory stay consistent

Whatever is put into a package or recorded in it, the relationships on a source have different
identifiers, and a part that is created adds itself, its content type and its relationship to what
is there, or nothing at all if it is refused or no number is left for its relationship.
-/

namespace PartPatch

set_option autoImplicit false

namespace MemoryPackage

/-- What can be done to a package. -/
inductive Call where
  | addRelationships (source : String) (rs : List Relationship)
  | insertPart (name : String) (body : Tree)
  | createPart (part : PartSpec) (body : Tree)

def call (p : MemoryPackage) : Call → MemoryPackage
  | .addRelationships source rs => p.addRelationships source rs
  | .insertPart name body => p.insertPart name body
  | .createPart part body => (p.createPart part body).2

/-- The package after the calls. -/
def after (p : MemoryPackage) (calls : List Call) : MemoryPackage :=
  calls.foldl call p

def relationshipsOn (p : MemoryPackage) (source : String) : List Relationship :=
  p.metadata.relationshipsOn source

/-- The greatest number that there is has not been used in an identifier. -/
def LeavesRoom (p : MemoryPackage) : Prop :=
  ∀ source, ∀ r ∈ p.relationshipsOn source, r.number? ≠ some Text.maxNumber

/-- There is a part of the name, or the relationship's source is neither the package itself nor a
part. -/
def Refuses (p : MemoryPackage) (part : PartSpec) : Prop :=
  (∃ body, p.parts.find? part.name = some body) ∨
    ∃ spec, part.relationship = some spec ∧ spec.source ≠ "/" ∧ p.parts.find? spec.source = none

/-- The part, its content type and its relationship, if it has one, come behind all that was there,
and nothing else changes. -/
structure TakesIn (p : MemoryPackage) (part : PartSpec) (body : Tree) (created : CreatedPart)
    (left : MemoryPackage) : Prop where
  name : created.name = part.name
  parts : left.parts.toList = p.parts.toList ++ [(part.name, body)]
  contentTypes : left.metadata.contentTypes.toList =
    p.metadata.contentTypes.toList ++ [(part.name, part.contentType)]
  unrelated : part.relationship = none → created.relationshipId = none ∧
    ∀ source, left.relationshipsOn source = p.relationshipsOn source
  related : ∀ spec, part.relationship = some spec → ∃ id, created.relationshipId = some id ∧
    ∀ source, left.relationshipsOn source =
      if source = spec.source then p.relationshipsOn source ++ [⟨id, spec.type, part.name⟩]
      else p.relationshipsOn source

variable {p : MemoryPackage} {part : PartSpec} {body : Tree}

/-! ## Creating a part -/

theorem hasPart_iff {name : String} :
    p.hasPart name = true ↔ ∃ body, p.parts.find? name = some body :=
  Option.isSome_iff_exists

theorem obstacle?_eq_none_iff : part.obstacle? p.hasPart = none ↔ ¬ p.Refuses part := by
  rw [Refuses, not_or, ← hasPart_iff, PartSpec.obstacle?]
  cases hname : p.hasPart part.name with
  | true => simp
  | false =>
    cases hspec : part.relationship with
    | none => simp
    | some spec =>
      have hsource : (∃ body, p.parts.find? spec.source = some body) ↔
          ¬ p.parts.find? spec.source = none := Option.ne_none_iff_exists'.symm
      by_cases hroot : spec.source = "/"
      · simp [hroot]
      · simp [hroot, hasPart_iff, hsource]

/-- All content types are those of parts. -/
def Typed (p : MemoryPackage) : Prop :=
  ∀ name ∈ p.metadata.contentTypes.keys, name ∈ p.parts.keys

theorem createPart_cases (p : MemoryPackage) (part : PartSpec) (body : Tree) :
    (p.Refuses part ∧ ∃ e, p.createPart part body = (.error e, p)) ∨
      (¬ p.Refuses part ∧ p.metadata.Exhausts part ∧
        p.createPart part body = (.error .overflow, p)) ∨
      ¬ p.Refuses part ∧ ¬ p.metadata.Exhausts part ∧ ∃ metadata id,
        p.createPart part body =
          (.ok ⟨part.name, id⟩, ⟨p.parts.insert part.name body, metadata⟩) ∧
        p.metadata.Records part metadata id := by
  cases h : part.obstacle? p.hasPart with
  | some e =>
    refine Or.inl ⟨?_, e, ?_⟩
    · by_contra hrefuses
      rw [obstacle?_eq_none_iff.2 hrefuses] at h
      cases h
    · rw [createPart, h]
  | none =>
    have free := obstacle?_eq_none_iff.1 h
    rcases p.metadata.register_cases part with
      ⟨exhausts, hregister⟩ | ⟨room, metadata, id, hregister, records⟩
    · refine Or.inr (Or.inl ⟨free, exhausts, ?_⟩)
      rw [createPart, h, hregister]
    · refine Or.inr (Or.inr ⟨free, room, metadata, id, ?_, records⟩)
      rw [createPart, h, hregister]

theorem takesIn_of_records (typed : p.Typed) (h : ¬ p.Refuses part) (body : Tree)
    {metadata : PackageMetadata} {id : Option String}
    (records : p.metadata.Records part metadata id) :
    p.TakesIn part body ⟨part.name, id⟩ ⟨p.parts.insert part.name body, metadata⟩ := by
  have habsent : part.name ∉ p.parts.keys := by
    rw [← Entries.isSome_find?_iff, Option.isSome_iff_exists]
    exact fun hpart => h (Or.inl hpart)
  have huntyped : part.name ∉ p.metadata.contentTypes.keys := fun hname =>
    habsent (typed part.name hname)
  constructor
  · rfl
  · exact Entries.toList_insert habsent body
  · show metadata.contentTypes.toList = _
    rw [records.contentTypes, Entries.toList_insert huntyped]
  · exact records.unrelated
  · intro spec hspec
    obtain ⟨next, hid, _, hsources⟩ := records.related spec hspec
    exact ⟨next, hid, hsources⟩

/-! ## Calls -/

/-- On every source the identifiers differ from each other. -/
def Distinct (p : MemoryPackage) : Prop :=
  ∀ source, ((p.relationshipsOn source).map Relationship.id).Nodup

theorem distinct_call (distinct : p.Distinct) (c : Call) : (p.call c).Distinct := by
  intro source
  cases c with
  | addRelationships other rs =>
    show ((p.metadata.addRelationships other rs).relationshipsOn source |>.map _).Nodup
    rw [PackageMetadata.relationshipsOn_addRelationships]
    split
    · exact Relationship.nodup_foldl_adjoin (distinct other) rs
    · exact distinct source
  | insertPart name body => exact distinct source
  | createPart part body =>
    rcases createPart_cases p part body with
      ⟨_, e, he⟩ | ⟨_, _, he⟩ | ⟨_, _, metadata, id, hok, records⟩
    · rw [call, he]
      exact distinct source
    · rw [call, he]
      exact distinct source
    · rw [call, hok]
      show (metadata.relationshipsOn source |>.map _).Nodup
      cases hspec : part.relationship with
      | none =>
        rw [(records.unrelated hspec).2]
        exact distinct source
      | some spec =>
        obtain ⟨next, _, hnext, hsources⟩ := records.related spec hspec
        rw [hsources]
        split
        · next h =>
          rw [h]
          exact Relationship.nodup_ids_append (distinct spec.source)
            (PackageMetadata.nextId_fresh hnext)
        · exact distinct source

theorem typed_call (typed : p.Typed) (c : Call) : (p.call c).Typed := by
  intro name hname
  cases c with
  | addRelationships other rs =>
    have htypes : (p.call (.addRelationships other rs)).metadata.contentTypes =
        p.metadata.contentTypes := PackageMetadata.contentTypes_addRelationships _ other rs
    rw [htypes] at hname
    exact typed name hname
  | insertPart other body =>
    have hparts : (p.call (.insertPart other body)).parts.keys = (p.parts.insert other body).keys :=
      rfl
    rw [hparts, Entries.keys_insert]
    split
    · exact typed name hname
    · exact List.mem_append_left _ (typed name hname)
  | createPart part body =>
    rcases createPart_cases p part body with
      ⟨_, e, he⟩ | ⟨_, _, he⟩ | ⟨hnew, _, metadata, id, hok, records⟩
    · rw [call, he] at hname ⊢
      exact typed name hname
    · rw [call, he] at hname ⊢
      exact typed name hname
    · have taken := takesIn_of_records typed hnew body records
      rw [call, hok] at hname ⊢
      rw [Entries.keys, taken.contentTypes, List.map_append, List.mem_append] at hname
      rw [Entries.keys, taken.parts, List.map_append, List.mem_append]
      exact hname.imp (typed name) fun h => h

theorem distinct_after (distinct : p.Distinct) (calls : List Call) :
    (p.after calls).Distinct := by
  induction calls generalizing p with
  | nil => exact distinct
  | cons c calls ih => exact ih (distinct_call distinct c)

theorem typed_after (typed : p.Typed) (calls : List Call) : (p.after calls).Typed := by
  induction calls generalizing p with
  | nil => exact typed
  | cons c calls ih => exact ih (typed_call typed c)

/-- As long as the greatest number of all is not in use, there is one for every relationship. -/
theorem not_exhausts_of_leavesRoom (room : p.LeavesRoom) (part : PartSpec) :
    ¬ p.metadata.Exhausts part := by
  rintro ⟨spec, _, id, hid, limit⟩
  obtain ⟨r, hr, rfl⟩ := List.mem_map.1 hid
  exact room spec.source r hr limit

/-- After any calls the identifiers on a source are different, and a part is taken in as a whole or,
exactly for the two reasons there are, not at all, if no number is beyond counting. -/
theorem consistent_after (calls : List Call) :
    (empty.after calls).Distinct ∧
      ((empty.after calls).LeavesRoom → ∀ part, ¬ (empty.after calls).metadata.Exhausts part) ∧
      ∀ part body,
        ((empty.after calls).Refuses part ∧
          ∃ e, (empty.after calls).createPart part body = (.error e, empty.after calls)) ∨
        (¬ (empty.after calls).Refuses part ∧ (empty.after calls).metadata.Exhausts part ∧
          (empty.after calls).createPart part body = (.error .overflow, empty.after calls)) ∨
        (¬ (empty.after calls).Refuses part ∧ ¬ (empty.after calls).metadata.Exhausts part ∧
          ∃ created left, (empty.after calls).createPart part body = (.ok created, left) ∧
            (empty.after calls).TakesIn part body created left) := by
  have distinct : empty.Distinct := fun _ => List.nodup_nil
  refine ⟨distinct_after distinct calls, not_exhausts_of_leavesRoom, ?_⟩
  intro part body
  rcases createPart_cases (empty.after calls) part body with
    h | h | ⟨hnew, room, metadata, id, hok, records⟩
  · exact Or.inl h
  · exact Or.inr (Or.inl h)
  · have typed : (empty.after calls).Typed := by
      apply typed_after
      intro name hname
      cases hname
    exact Or.inr (Or.inr ⟨hnew, room, _, _, hok, takesIn_of_records typed hnew body records⟩)

/-! ## A package with relationships of its own -/

def seededCalls : List Call :=
  [.addRelationships "/" [⟨"rId1", "t", "a.xml"⟩, ⟨"rId03", "t", "b.xml"⟩, ⟨"rId1", "t", "c.xml"⟩],
    .insertPart "/p.xml" .empty, .createPart ⟨"/q.xml", "u", some ⟨"/", "t"⟩⟩ .empty]

theorem relationshipsOn_seededCalls (source : String) :
    (empty.after seededCalls).relationshipsOn source =
      if source = "/" then
        [⟨"rId1", "t", "a.xml"⟩, ⟨"rId03", "t", "b.xml"⟩, ⟨"rId4", "t", "/q.xml"⟩]
      else [] := by
  by_cases h : source = "/"
  · subst h
    cbv
  · have hentries : (empty.after seededCalls).metadata.relationships.toList =
        [("/", [⟨"rId1", "t", "a.xml"⟩, ⟨"rId03", "t", "b.xml"⟩, ⟨"rId4", "t", "/q.xml"⟩])] := by
      cbv
    rw [if_neg h, relationshipsOn, PackageMetadata.relationshipsOn, Entries.find?, hentries,
      List.lookup_cons, beq_eq_false_iff_ne.2 h]
    rfl

theorem consistent_after_seededCalls :
    (empty.after seededCalls).LeavesRoom ∧ (empty.after seededCalls).Distinct ∧
      (empty.after seededCalls).Refuses ⟨"/q.xml", "u", none⟩ ∧
      ∃ left, (empty.after seededCalls).createPart ⟨"/r.xml", "u", some ⟨"/p.xml", "t"⟩⟩ .empty =
          (.ok ⟨"/r.xml", some "rId1"⟩, left) ∧
        (empty.after seededCalls).TakesIn ⟨"/r.xml", "u", some ⟨"/p.xml", "t"⟩⟩ .empty
          ⟨"/r.xml", some "rId1"⟩ left := by
  obtain ⟨distinct, counts, creates⟩ := consistent_after seededCalls
  have room : (empty.after seededCalls).LeavesRoom := by
    intro source r hr
    rw [relationshipsOn_seededCalls] at hr
    split at hr
    · revert r
      decide
    · cases hr
  refine ⟨room, distinct, Or.inl ⟨.empty, by cbv⟩, ?_⟩
  have hcreated : ((empty.after seededCalls).createPart ⟨"/r.xml", "u", some ⟨"/p.xml", "t"⟩⟩
      .empty).1 = .ok ⟨"/r.xml", some "rId1"⟩ := by cbv
  rcases creates ⟨"/r.xml", "u", some ⟨"/p.xml", "t"⟩⟩ .empty with
    ⟨_, e, he⟩ | ⟨_, exhausts, _⟩ | ⟨_, _, created, left, hok, taken⟩
  · rw [he] at hcreated
    cases hcreated
  · exact absurd exhausts (counts room _)
  · rw [hok] at hcreated
    cases hcreated
    exact ⟨left, hok, taken⟩

end MemoryPackage

end PartPatch
