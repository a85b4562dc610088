import Mathlib.Tactic.SplitIfs
import PartPatch.Json.Reader
import PartPatch.Toml.Json

/-!
# Ordered values

Objects are built member by member, each put at its place. What the readers give is ordered all the
way down.
-/

namespace PartPatch

set_option autoImplicit false

namespace Json

mutual

/-- The keys of the object ascend, and those of the objects in it. -/
def Ascending : Json → Prop
  | .object members => (members.map Prod.fst).Pairwise (· < ·) ∧ AscendingAll members
  | _ => True

def AscendingAll : List (String × Json) → Prop
  | [] => True
  | (_, value) :: members => value.Ascending ∧ AscendingAll members

end

variable {key : String} {v : Json} {members : List (String × Json)} {s : List Char} {depth : Nat}

/-! ## Building -/

theorem mem_keys_insertMember {k : String} :
    k ∈ (insertMember key v members).map Prod.fst ↔ k = key ∨ k ∈ members.map Prod.fst := by
  induction members with
  | nil => simp [insertMember]
  | cons member members ih =>
    rw [insertMember]
    split_ifs with hlt heq
    · simp
    · simp [heq]
    · rw [List.map_cons, List.mem_cons, ih, List.map_cons, List.mem_cons]
      exact or_left_comm

theorem pairwise_insertMember (h : (members.map Prod.fst).Pairwise (· < ·)) :
    ((insertMember key v members).map Prod.fst).Pairwise (· < ·) := by
  induction members with
  | nil => exact List.pairwise_singleton _ _
  | cons member members ih =>
    obtain ⟨least, rest⟩ := List.pairwise_cons.1 h
    rw [insertMember]
    split_ifs with hlt heq
    · refine List.pairwise_cons.2 ⟨?_, h⟩
      intro k hk
      rcases List.mem_cons.1 hk with rfl | hk
      · exact hlt
      · exact String.lt_trans hlt (least k hk)
    · rw [heq]
      exact List.pairwise_cons.2 ⟨least, rest⟩
    · refine List.pairwise_cons.2 ⟨?_, ih rest⟩
      intro k hk
      rcases mem_keys_insertMember.1 hk with rfl | hk
      · exact Std.lt_of_le_of_ne (Std.not_lt.1 hlt) (Ne.symm heq)
      · exact least k hk

theorem ascendingAll_insertMember (hv : v.Ascending) (h : AscendingAll members) :
    AscendingAll (insertMember key v members) := by
  induction members with
  | nil => exact ⟨hv, trivial⟩
  | cons member members ih =>
    rw [insertMember]
    split_ifs with hlt heq
    · exact ⟨hv, h⟩
    · exact ⟨hv, h.2⟩
    · exact ⟨h.1, ih h.2⟩

theorem ascending_foldl_insertMember {sorted : List (String × Json)}
    (keys : (sorted.map Prod.fst).Pairwise (· < ·)) (values : AscendingAll sorted)
    (h : AscendingAll members) :
    Ascending (.object (members.foldl (fun acc m => insertMember m.1 m.2 acc) sorted)) := by
  induction members generalizing sorted with
  | nil => exact ⟨keys, values⟩
  | cons member members ih =>
    exact ih (pairwise_insertMember keys) (ascendingAll_insertMember h.1 values) h.2

theorem ascending_ofMembers (h : AscendingAll members) : (ofMembers members).Ascending :=
  ascending_foldl_insertMember List.Pairwise.nil trivial h

/-! ## Reading -/

theorem ascending_of_map {α β : Type} {x : Option α} {f : α → Json × β} {rest : β}
    (h : x.map f = some (v, rest)) (hf : ∀ a, x = some a → (f a).1.Ascending) : v.Ascending := by
  obtain ⟨a, ha, e⟩ := Option.map_eq_some_iff.1 h
  have hv := hf a ha
  rwa [e] at hv

theorem ascending_of_ofInteger? {negative : Bool} {digits : List Char}
    (h : ofInteger? negative digits = some v) : v.Ascending := by
  have real : ∀ (x : Option Float) (f : Float → Float), x.map (fun y => .real (f y)) = some v →
      v.Ascending := by
    intro x f hx
    obtain ⟨_, _, rfl⟩ := Option.map_eq_some_iff.1 hx
    trivial
  rw [ofInteger?] at h
  split_ifs at h
  · cases h
    trivial
  · exact real _ _ h
  · cases h
    trivial
  · exact real _ id h

theorem ascending_of_readScaled? {negative : Bool} {x : Scaled}
    {r : { r : List Char // r.length ≤ s.length }}
    (h : readScaled? negative x s = some (v, r)) : v.Ascending := by
  rw [readScaled?.eq_def] at h
  dsimp only at h
  split at h
  · next c t =>
    by_cases hc : c = 'e' ∨ c = 'E'
    · rw [if_pos hc] at h
      split at h
      · cases h
      · exact ascending_of_map h fun _ _ => trivial
    · rw [if_neg hc] at h
      exact ascending_of_map h fun _ _ => trivial
  · exact ascending_of_map h fun _ _ => trivial

theorem ascending_of_readUnsigned? {negative : Bool} {r : Shorter s}
    (h : readUnsigned? negative s = some (v, r)) : v.Ascending := by
  rw [readUnsigned?.eq_def] at h
  split at h
  · cases h
  · split at h
    · cases h
    · dsimp only at h
      split at h
      · exact ascending_of_map h fun _ => ascending_of_ofInteger?
      · split at h
        · cases h
        · split at h
          · split at h
            · cases h
            · exact ascending_of_map h fun _ => ascending_of_readScaled?
          · split at h
            · exact ascending_of_map h fun _ => ascending_of_readScaled?
            · exact ascending_of_map h fun _ => ascending_of_ofInteger?

theorem ascending_of_readNumber? {r : Shorter s} (h : readNumber? s = some (v, r)) :
    v.Ascending := by
  rw [readNumber?.eq_def] at h
  split at h
  · exact ascending_of_map h fun _ => ascending_of_readUnsigned?
  · exact ascending_of_readUnsigned? h

/-- A value holds members only behind its first character, and a member its value behind its key, so
that an induction on the length serves both. -/
theorem ascending_of_length_lt (n : Nat) :
    (∀ depth s v r, s.length < n → readValue? depth s = some (v, r) → v.Ascending) ∧
      ∀ depth s members r, s.length < n → readMembers? depth s = some (members, r) →
        AscendingAll members := by
  induction n with
  | zero => exact ⟨fun _ _ _ _ hn => absurd hn (Nat.not_lt_zero _),
      fun _ _ _ _ hn => absurd hn (Nat.not_lt_zero _)⟩
  | succ n ih =>
    obtain ⟨value, rest⟩ := ih
    constructor
    · intro depth s v r hn h
      rw [readValue?.eq_def] at h
      split at h
      · cases h
        trivial
      · cases h
        trivial
      · cases h
        trivial
      · exact ascending_of_map h fun _ _ => trivial
      · split at h
        · cases h
        · split at h
          · cases h
            trivial
          · exact ascending_of_map h fun _ _ => trivial
      · next t =>
        have hlt : (skipSpace t).length < n :=
          Nat.lt_of_le_of_lt (length_skipSpace_le t) (Nat.lt_of_succ_lt_succ hn)
        split at h
        · cases h
        · split at h
          · cases h
            exact ⟨List.Pairwise.nil, trivial⟩
          · exact ascending_of_map h fun _ hm => ascending_ofMembers (rest _ _ _ _ hlt hm)
      · exact ascending_of_readNumber? h
    · intro depth s members r hn h
      rw [readMembers?.eq_def] at h
      split at h
      · next k =>
        split at h
        · cases h
        · next key r₁ h₁ _ =>
          split at h
          · next r₂ hcolon =>
            have hle := length_skipSpace_le r₁
            rw [hcolon] at hle
            have hlt : (skipSpace r₂).length < n := by
              have := length_skipSpace_le r₂
              simp only [List.length_cons] at hn hle
              omega
            dsimp only at h
            split at h
            · cases h
            · next _ v r₃ h₃ hv =>
              have hv := value _ _ _ _ hlt hv
              split at h
              · cases h
                exact ⟨hv, trivial⟩
              · next t hcomma =>
                have hle := length_skipSpace_le r₃
                rw [hcomma] at hle
                obtain ⟨⟨others, _⟩, hm, e⟩ := Option.map_eq_some_iff.1 h
                cases e
                refine ⟨hv, rest _ _ _ _ ?_ hm⟩
                have := length_skipSpace_le t
                simp only [List.length_cons] at hle
                omega
              · cases h
          · cases h
      · cases h

theorem ascending_of_read? {source : String} (h : read? source = some v) : v.Ascending := by
  rw [read?] at h
  split at h
  · split_ifs at h
    cases h
    exact (ascending_of_length_lt _).1 _ _ _ _ (Nat.lt_succ_self _) ‹_›
  · cases h

end Json

namespace Toml

open Json

mutual

theorem ascending_toJson : ∀ v : Value, v.toJson.Ascending
  | .string _ | .integer _ | .boolean _ | .array _ => trivial
  | .float x => by
    rw [Value.toJson, realToJson]
    split <;> trivial
  | .datetime _ => ⟨List.pairwise_singleton _ _, trivial, trivial⟩
  | .table entries => ascending_ofMembers (ascendingAll_membersToJson entries)

theorem ascendingAll_membersToJson :
    ∀ entries : List (String × Value), AscendingAll (membersToJson entries)
  | [] => trivial
  | (_, v) :: entries => ⟨ascending_toJson v, ascendingAll_membersToJson entries⟩

end

theorem ascending_entriesToJson (entries : List (String × Value)) :
    (entriesToJson entries).Ascending :=
  ascending_ofMembers (ascendingAll_membersToJson entries)

end Toml

end PartPatch
