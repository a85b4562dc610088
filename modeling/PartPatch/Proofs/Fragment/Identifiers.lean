import PartPatch.Fragment.Instance
import PartPatch.Proofs.Except
import PartPatch.Proofs.Identifier.Allocator

/-!
# The identifiers of an instance

The identifiers of one namespace that a fragment is given have growing numbers, which lie beyond the
number that the namespace's counter started from and not beyond the one that it ends with.
-/

namespace PartPatch.Fragment

set_option autoImplicit false

open Allocator (Advances)

variable {f : Fragment} {tokens : Token.Resolver} {t : Tree} {a b : Allocator} {r : Registry}
  {fragment name label id : String} {identifiers : List (String × String)}
  {given : List ((String × String) × String)} {space : IdentifierSpace}

/-- Identifiers with what they were given out for; those of one namespace differ. -/
def Distinct (given : List ((String × String) × String)) : Prop :=
  given.Pairwise fun p q => p.1.1 = q.1.1 → p.2 ≠ q.2

/-- The identifier of the namespace whose number is `n`, given out on the way from `a` to `b`. -/
structure GivenOut (space : IdentifierSpace) (t : Tree) (a b : Allocator) (id : String) (n : Nat) :
    Prop where
  eq : id = space.format n
  le_maxNumber : n ≤ Text.maxNumber
  previous_lt : a.previous space t < n
  le_current : ∃ m, b.current? space.name = some m ∧ n ≤ m

theorem allocateAll_cons_eq_ok {i : String × String}
    (h : allocateAll r fragment t (i :: identifiers) a = (.ok given, b)) :
    ∃ space id c rest, r.identifierSpace? i.1 = some space ∧ a.allocate space t = .ok (id, c) ∧
      allocateAll r fragment t identifiers c = (.ok rest, b) ∧ given = (i, id) :: rest := by
  simp only [allocateAll] at h
  split at h
  · cases h
  · next space hspace =>
    split at h
    · cases h
    · next id c halloc =>
      obtain ⟨hgiven, hb⟩ := Prod.mk.inj h
      obtain ⟨rest, hrest, rfl⟩ := map_eq_ok_iff.1 hgiven
      exact ⟨space, id, c, rest, hspace, halloc, Prod.ext hrest hb, rfl⟩

theorem allocateAll_append (h : allocateAll r fragment t identifiers a = (.ok given, b))
    (more : List (String × String)) :
    allocateAll r fragment t (identifiers ++ more) a =
      ((allocateAll r fragment t more b).1.map (given ++ ·),
        (allocateAll r fragment t more b).2) := by
  induction identifiers generalizing a given with
  | nil =>
    cases h
    rw [List.nil_append]
    rcases allocateAll r fragment t more b with ⟨e | rest, c⟩
    · rfl
    · rfl
  | cons i identifiers ih =>
    obtain ⟨space, id, c, rest, hspace, halloc, hrest, rfl⟩ := allocateAll_cons_eq_ok h
    simp only [List.cons_append, allocateAll, hspace, halloc, ih hrest]
    rcases allocateAll r fragment t more b with ⟨e | rest', c⟩
    · rfl
    · rfl

section Named

variable (named : ∀ name space, r.identifierSpace? name = some space → space.name = name)
include named

theorem advances_of_allocate {other : IdentifierSpace} {i : String}
    (hspace : r.identifierSpace? name = some space) (hother : r.identifierSpace? i = some other)
    (h : a.allocate other t = .ok (id, b)) : Advances space t a b := by
  apply Allocator.advances_allocate h
  intro e
  rw [named _ _ hspace, named _ _ hother] at e
  rw [e] at hspace
  exact Option.some.inj (hspace.symm.trans hother)

theorem advances_of_allocateAll (hspace : r.identifierSpace? name = some space)
    (h : allocateAll r fragment t identifiers a = (.ok given, b)) : Advances space t a b := by
  induction identifiers generalizing a given with
  | nil =>
    cases h
    exact .refl space t b
  | cons i identifiers ih =>
    obtain ⟨other, id, c, rest, hother, halloc, hrest, rfl⟩ := allocateAll_cons_eq_ok h
    exact (advances_of_allocate named hspace hother halloc).trans (ih hrest)

theorem givenOut_of_allocateAll (hspace : r.identifierSpace? name = some space)
    (h : allocateAll r fragment t identifiers a = (.ok given, b))
    (hid : ((name, label), id) ∈ given) : ∃ n, GivenOut space t a b id n := by
  induction identifiers generalizing a given with
  | nil =>
    cases h
    cases hid
  | cons i identifiers ih =>
    obtain ⟨other, id', c, rest, hother, halloc, hrest, rfl⟩ := allocateAll_cons_eq_ok h
    rcases List.mem_cons.1 hid with e | hid
    · cases e
      cases Option.some.inj (hspace.symm.trans hother)
      obtain ⟨hle, heq, _⟩ := Allocator.allocate_eq_ok halloc
      have hcurrent := Allocator.current?_allocate halloc
      exact ⟨_, heq, hle, Nat.lt_succ_self _,
        (advances_of_allocateAll named hspace hrest).current? hcurrent⟩
    · obtain ⟨n, out⟩ := ih hrest hid
      have hle := (advances_of_allocate named hspace hother halloc).previous_le
      exact ⟨n, out.eq, out.le_maxNumber, hle.trans_lt out.previous_lt, out.le_current⟩

theorem distinct_of_allocateAll (h : allocateAll r fragment t identifiers a = (.ok given, b)) :
    Distinct given := by
  induction identifiers generalizing a given with
  | nil =>
    cases h
    exact List.Pairwise.nil
  | cons i identifiers ih =>
    obtain ⟨space, id, c, rest, hspace, halloc, hrest, rfl⟩ := allocateAll_cons_eq_ok h
    refine List.Pairwise.cons ?_ (ih hrest)
    rintro ⟨⟨name, label⟩, id'⟩ hid e
    obtain rfl : i.1 = name := e
    obtain ⟨n, out⟩ := givenOut_of_allocateAll named hspace hrest hid
    obtain ⟨hle, heq, _⟩ := Allocator.allocate_eq_ok halloc
    have hlt := out.previous_lt
    rw [Allocator.previous_of_current? (Allocator.current?_allocate halloc)] at hlt
    rw [heq, out.eq]
    exact IdentifierSpace.format_ne hle out.le_maxNumber (Nat.ne_of_lt hlt)

end Named

theorem exists_space_of_allocateAll
    (h : allocateAll r fragment t identifiers a = (.ok given, b))
    (hid : ((name, label), id) ∈ given) : ∃ space, r.identifierSpace? name = some space := by
  induction identifiers generalizing a given with
  | nil =>
    cases h
    cases hid
  | cons i identifiers ih =>
    obtain ⟨space, id', c, rest, hspace, _, hrest, rfl⟩ := allocateAll_cons_eq_ok h
    rcases List.mem_cons.1 hid with e | hid
    · cases e
      exact ⟨space, hspace⟩
    · exact ih hrest hid

/-- The allocator that an instance leaves, the identifiers it is given, and its tokens. -/
theorem instantiate_eq_ok {made : Instance} (h : f.instantiate tokens t a r = (.ok made, b)) :
    allocateAll r f.name t f.identifiers a = (.ok made.values.identifiers, b) ∧
      f.resolveTokens tokens = .ok made.values.tokens := by
  unfold instantiate at h
  split at h
  · cases h
  · next v c hv =>
    unfold values at hv
    split at hv
    · cases hv
    · next resolved hresolved =>
      obtain ⟨hmap, hc⟩ := Prod.mk.inj hv
      obtain ⟨given, hgiven, rfl⟩ := map_eq_ok_iff.1 hmap
      split at h
      · cases h
      · cases h
        exact ⟨Prod.ext hgiven hc, hresolved⟩

end PartPatch.Fragment
