import PartPatch.Proofs.Package.Call
import PartPatch.Proofs.Package.Memory

/-!
# The number of a new relationship

A new relationship gets the number after the greatest on its source, and so an identifier that is in
use nowhere on it. If the greatest number of 64 bits is in use, there is none after it, and the
program ends with an overflow.
-/

namespace PartPatch

set_option autoImplicit false

namespace PackageMetadata

open Relationship

/-- What registering a part comes to on a source that has the relationships. With the greatest
number of all in use it ends in an overflow. Otherwise the number after the greatest fits, the
identifier that it makes is a new one, and the part stands under it behind what was there. -/
inductive Numbered (existing : List Relationship) (part : PartSpec) (spec : RelationshipSpec) :
    Except PartError CreatedPart → List Relationship → Prop where
  | overflow : Full existing → Numbered existing part spec (.error .overflow) existing
  | recorded {id : String} : ¬ Full existing → greatest existing + 1 ≤ Text.maxNumber →
      id = idStart ++ toString (greatest existing + 1) → id ∉ existing.map Relationship.id →
      Numbered existing part spec (.ok ⟨part.name, some id⟩)
        (existing ++ [⟨id, spec.type, part.name⟩])

variable {m left : PackageMetadata} {part : PartSpec} {spec : RelationshipSpec}

theorem numbered_of_exhausts (h : part.relationship = some spec) (exhausts : m.Exhausts part) :
    Numbered (m.relationshipsOn spec.source) part spec (.error .overflow)
      (m.relationshipsOn spec.source) := by
  obtain ⟨other, hother, full⟩ := exhausts
  cases h.symm.trans hother
  exact .overflow full

theorem numbered_of_records (h : part.relationship = some spec) {id : Option String}
    (records : m.Records part left id) :
    Numbered (m.relationshipsOn spec.source) part spec (.ok ⟨part.name, id⟩)
      (left.relationshipsOn spec.source) := by
  obtain ⟨next, rfl, hnext, hsources⟩ := records.related spec h
  obtain ⟨room, hid⟩ := nextId_eq_ok_iff.1 hnext
  rw [hsources, if_pos rfl]
  exact .recorded room (greatest_lt_iff.2 room) hid (nextId_fresh hnext)

end PackageMetadata

open PackageMetadata

namespace DirectoryPackage

/-- What counts as recorded on a source when a part is registered with it: the first time also what
the source's `.rels` file lists. -/
def onRecord (p : DirectoryPackage) (source : String) : List Relationship :=
  if source ∈ p.seeded then p.relationshipsOn source
  else (p.listed source).foldl Relationship.adjoin (p.relationshipsOn source)

theorem relationshipsOn_seed_source (p : DirectoryPackage) {part : PartSpec}
    {spec : RelationshipSpec} (h : part.relationship = some spec) :
    (p.seed part).2.relationshipsOn spec.source = p.onRecord spec.source := by
  rw [relationshipsOn_seed, onRecord, h]
  by_cases hseeded : spec.source ∈ p.seeded
  · rw [if_pos hseeded, if_neg fun both => both.2 hseeded]
  · rw [if_neg hseeded, if_pos ⟨rfl, hseeded⟩]

/-- A call gets as far as registering the part: nothing stands in its way, the source's list can be
read, and so can the body be stored. -/
structure Registers (p : DirectoryPackage) (part : PartSpec) (body : Tree) : Prop where
  free : part.obstacle? p.hasPart = none
  seeds : (p.seed part).1 = .ok ()
  stores : ((p.seed part).2.store part body).1 = .ok ()

theorem numbered_of_registers {p : DirectoryPackage} {part : PartSpec} {spec : RelationshipSpec}
    {body : Tree} (h : part.relationship = some spec) (registers : p.Registers part body) :
    Numbered (p.onRecord spec.source) part spec (p.createPart part body).1
      ((p.createPart part body).2.relationshipsOn spec.source) := by
  obtain ⟨free, seeds, stores⟩ := registers
  have honrecord := relationshipsOn_seed_source p h
  rcases create_cases p ⟨part, body⟩ with ⟨e, hobstacle, _⟩ | ⟨_, ⟨e, seeded, hseed, _⟩ |
    ⟨seeded, hseed, ⟨e, stored, hstored, _⟩ | ⟨stored, hstored, hlast⟩⟩⟩
  · cases hobstacle.symm.trans free
  · rw [hseed] at seeds
    cases seeds
  · rw [hseed, hstored] at stores
    cases stores
  · have hkept : stored.metadata = seeded.metadata := by
      have hkeeps := (store_keeps seeded part body).1
      rw [hstored] at hkeeps
      exact hkeeps
    have hrecord : stored.metadata.relationshipsOn spec.source = p.onRecord spec.source := by
      rw [hseed] at honrecord
      rw [hkept]
      exact honrecord
    have hcreate : p.createPart part body = p.create ⟨part, body⟩ := rfl
    rw [hcreate, ← hrecord]
    rcases stored.metadata.register_cases part with
      ⟨exhausts, hregister⟩ | ⟨_, left, id, hregister, records⟩
    · rcases hlast with ⟨_, hanswer⟩ | ⟨left', id', hregister', _⟩
      · rw [hanswer]
        exact numbered_of_exhausts h exhausts
      · cases hregister.symm.trans hregister'
    · rcases hlast with ⟨hregister', _⟩ | ⟨left', id', hregister', hanswer⟩
      · cases hregister.symm.trans hregister'
      · cases hregister.symm.trans hregister'
        rw [hanswer]
        exact numbered_of_records h records

end DirectoryPackage

theorem MemoryPackage.numbered_of_free {p : MemoryPackage} {part : PartSpec}
    {spec : RelationshipSpec} (h : part.relationship = some spec) (free : ¬ p.Refuses part)
    (body : Tree) :
    Numbered (p.relationshipsOn spec.source) part spec (p.createPart part body).1
      ((p.createPart part body).2.relationshipsOn spec.source) := by
  rcases createPart_cases p part body with
    ⟨refuses, _⟩ | ⟨_, exhausts, hanswer⟩ | ⟨_, _, left, id, hanswer, records⟩
  · exact absurd refuses free
  · rw [hanswer]
    exact numbered_of_exhausts h exhausts
  · rw [hanswer]
    exact numbered_of_records h records

/-- In memory as in a directory, a part that is registered gets the number after the greatest on its
source, and under it an identifier that is a new one, unless the greatest number of all is in use:
then the program ends with an overflow. -/
theorem numbered_of_createPart {part : PartSpec} {spec : RelationshipSpec}
    (h : part.relationship = some spec) (body : Tree) :
    (∀ p : MemoryPackage, ¬ p.Refuses part →
      Numbered (p.relationshipsOn spec.source) part spec (p.createPart part body).1
        ((p.createPart part body).2.relationshipsOn spec.source)) ∧
    ∀ p : DirectoryPackage, p.Registers part body →
      Numbered (p.onRecord spec.source) part spec (p.createPart part body).1
        ((p.createPart part body).2.relationshipsOn spec.source) :=
  ⟨fun _ free => MemoryPackage.numbered_of_free h free body,
    fun _ registers => DirectoryPackage.numbered_of_registers h registers⟩

/-! ## The last number -/

/-- The greatest number of all is in use. -/
def lastTaken : MemoryPackage :=
  MemoryPackage.empty.addRelationships "/"
    [⟨"rId18446744073709551615", "t", "a.xml"⟩, ⟨"rId0", "t", "b.xml"⟩]

/-- A part with a relationship on the package. -/
def onPackage : PartSpec := ⟨"/q.xml", "u", some ⟨"/", "t"⟩⟩

theorem full_lastTaken : Full (lastTaken.relationshipsOn "/") :=
  ⟨"rId18446744073709551615", List.mem_cons_self, by rw [Relationship.AtLimit]; decide⟩

theorem not_refuses_lastTaken : ¬ lastTaken.Refuses onPackage :=
  MemoryPackage.obstacle?_eq_none_iff.1 rfl

/-- Nothing stands in the way of the part, but the number after the greatest does not fit, and the
call ends in an overflow. -/
theorem overflow_lastTaken :
    ¬ lastTaken.Refuses onPackage ∧
      ¬ greatest (lastTaken.relationshipsOn "/") + 1 ≤ Text.maxNumber ∧
      (lastTaken.createPart onPackage .empty).1 = .error .overflow := by
  refine ⟨not_refuses_lastTaken, fun room => greatest_lt_iff.1 room full_lastTaken, ?_⟩
  rcases MemoryPackage.createPart_cases lastTaken onPackage .empty with
    ⟨refuses, _⟩ | ⟨_, _, hanswer⟩ | ⟨_, room, _⟩
  · exact absurd refuses not_refuses_lastTaken
  · rw [hanswer]
  · exact absurd ⟨_, rfl, full_lastTaken⟩ room

theorem registers_slashed : DirectoryPackage.extracted.Registers DirectoryPackage.slashed.part
    DirectoryPackage.slashed.body where
  free := DirectoryPackage.obstacle?_slashed
  seeds := by cbv
  stores := by cbv

theorem numbered_of_createPart_slashed :
    (¬ lastTaken.Refuses onPackage ∧
      Numbered (lastTaken.relationshipsOn "/") onPackage ⟨"/", "t"⟩
        (lastTaken.createPart onPackage .empty).1
        ((lastTaken.createPart onPackage .empty).2.relationshipsOn "/")) ∧
    DirectoryPackage.extracted.Registers DirectoryPackage.slashed.part
        DirectoryPackage.slashed.body ∧
      Numbered [⟨"rId1", "", ""⟩] DirectoryPackage.slashed.part ⟨"/p.xml", "t"⟩
        (.ok ⟨"/q.xml", some "rId2"⟩) [⟨"rId1", "", ""⟩, ⟨"rId2", "t", "/q.xml"⟩] := by
  have hlisted : DirectoryPackage.extracted.onRecord "/p.xml" = [⟨"rId1", "", ""⟩] := by cbv
  have hcreate : DirectoryPackage.extracted.createPart DirectoryPackage.slashed.part
      DirectoryPackage.slashed.body = (.ok ⟨"/q.xml", some "rId2"⟩, DirectoryPackage.withOne) :=
    DirectoryPackage.create_slashed
  have onRoot : onPackage.relationship = some ⟨"/", "t"⟩ := rfl
  have onPart : DirectoryPackage.slashed.part.relationship = some ⟨"/p.xml", "t"⟩ := rfl
  have hmemory := (numbered_of_createPart onRoot .empty).1 lastTaken not_refuses_lastTaken
  have hdirectory := (numbered_of_createPart onPart DirectoryPackage.slashed.body).2
    DirectoryPackage.extracted registers_slashed
  rw [hlisted, hcreate] at hdirectory
  exact ⟨⟨not_refuses_lastTaken, hmemory⟩, registers_slashed, hdirectory⟩

end PartPatch
