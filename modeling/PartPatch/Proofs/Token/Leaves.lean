import Mathlib.Data.Finset.Card
import Mathlib.Data.List.Pairwise
import PartPatch.Proofs.Entries
import PartPatch.Proofs.Json.Ordered
import PartPatch.Token.Load

/-!
# The names of nested values

A value gives its leaves names: the keys on the way to a leaf, joined by full stops. Leaves of one
name differ in where the stops are inside keys and where they stand between keys. Of two such keys
one begins the other, so the longer one comes later in an ordered object, and what comes last is
what the name stands for.
-/

namespace PartPatch

set_option autoImplicit false

namespace Json

def IsLeaf : Json → Prop
  | .null | .object _ => False
  | _ => True

/-- The keys lead from the value to a leaf inside it. -/
inductive LeafAt : Json → List String → Json → Prop where
  | here {leaf : Json} (h : leaf.IsLeaf) : LeafAt leaf [] leaf
  | member {members : List (String × Json)} {key : String} {value leaf : Json}
      {path : List String} (hmem : (key, value) ∈ members) (h : LeafAt value path leaf) :
      LeafAt (.object members) (key :: path) leaf

/-- What a leaf stands for: a string for itself, any other for its text. -/
def leafText : Json → String
  | .string s => s
  | value => value.text

mutual

/-- All leaves in their order, with the keys that lead to them. -/
def leaves : Json → List (List String × Json)
  | .null => []
  | .object members => memberLeaves members
  | value => [([], value)]

def memberLeaves : List (String × Json) → List (List String × Json)
  | [] => []
  | (key, value) :: members =>
    (value.leaves.map fun (path, leaf) => (key :: path, leaf)) ++ memberLeaves members

end

end Json

namespace Token

/-- The keys joined by full stops; none stands behind a name that is empty so far. -/
def flatName (path : List String) : String :=
  path.foldl joinName ""

/-- Where the paths differ first, the keys are related. -/
def AtFirstDifference (R : String → String → Prop) : List String → List String → Prop
  | k :: p, l :: q => if k = l then AtFirstDifference R p q else R k l
  | _, _ => False

/-- Where the paths differ first, the key of the first one is longer. -/
def Outdoes : List String → List String → Prop :=
  AtFirstDifference fun k l => l.length < k.length

theorem atFirstDifference_cons {R : String → String → Prop} {key : String} {p q : List String} :
    AtFirstDifference R (key :: p) (key :: q) ↔ AtFirstDifference R p q := by
  rw [AtFirstDifference, if_pos rfl]

end Token

/-! ## Leaves -/

namespace Json

open Token

variable {v leaf leaf' : Json} {members : List (String × Json)} {path path' : List String}

theorem mem_memberLeaves_iff : (path, leaf) ∈ memberLeaves members ↔
    ∃ key value below, (key, value) ∈ members ∧ path = key :: below ∧
      (below, leaf) ∈ value.leaves := by
  induction members with
  | nil => simp [memberLeaves]
  | cons member members ih =>
    obtain ⟨key, value⟩ := member
    rw [memberLeaves, List.mem_append, ih]
    constructor
    · rintro (h | ⟨k, w, below, hmem, h⟩)
      · obtain ⟨⟨below, leaf⟩, hbelow, e⟩ := List.mem_map.1 h
        cases e
        exact ⟨key, value, below, List.mem_cons_self, rfl, hbelow⟩
      · exact ⟨k, w, below, List.mem_cons_of_mem _ hmem, h⟩
    · rintro ⟨k, w, below, hmem, rfl, hbelow⟩
      rcases List.mem_cons.1 hmem with e | hmem
      · cases e
        exact Or.inl (List.mem_map.2 ⟨_, hbelow, rfl⟩)
      · exact Or.inr ⟨k, w, below, hmem, rfl, hbelow⟩

theorem leaves_of_isLeaf (h : v.IsLeaf) : v.leaves = [([], v)] := by
  cases v with
  | null => exact h.elim
  | object members => exact h.elim
  | _ => rfl

theorem mem_leaves_iff : (path, leaf) ∈ v.leaves ↔ v.LeafAt path leaf := by
  induction path generalizing v with
  | nil =>
    constructor
    · intro h
      cases v with
      | null => cases h
      | object members =>
        obtain ⟨_, _, _, _, e, _⟩ := mem_memberLeaves_iff.1 h
        cases e
      | _ =>
        cases List.mem_singleton.1 h
        exact .here trivial
    · rintro ⟨h⟩
      rw [leaves_of_isLeaf h]
      exact List.mem_cons_self
  | cons key below ih =>
    constructor
    · intro h
      cases v with
      | null => cases h
      | object members =>
        obtain ⟨_, _, _, hmem, e, hbelow⟩ := mem_memberLeaves_iff.1 h
        cases e
        exact .member hmem (ih.1 hbelow)
      | _ => cases List.mem_singleton.1 h
    · intro h
      cases h with
      | member hmem h => exact mem_memberLeaves_iff.2 ⟨_, _, _, hmem, rfl, ih.2 h⟩

mutual

/-- In an ordered value the leaves stand in the order of their paths. -/
theorem pairwise_leaves : ∀ {v : Json}, v.Ascending →
    v.leaves.Pairwise fun a b => AtFirstDifference (· < ·) a.1 b.1
  | .null, _ => List.Pairwise.nil
  | .bool _, _ | .integer _, _ | .real _, _ | .string _, _ | .array _, _ =>
    List.pairwise_singleton _ _
  | .object _, h => pairwise_memberLeaves h.1 h.2

theorem pairwise_memberLeaves : ∀ {members : List (String × Json)},
    (members.map Prod.fst).Pairwise (· < ·) → AscendingAll members →
    (memberLeaves members).Pairwise fun a b => AtFirstDifference (· < ·) a.1 b.1
  | [], _, _ => List.Pairwise.nil
  | (key, value) :: members, keys, values => by
    obtain ⟨least, keys⟩ := List.pairwise_cons.1 keys
    rw [memberLeaves, List.pairwise_append, List.pairwise_map]
    refine ⟨?_, pairwise_memberLeaves keys values.2, ?_⟩
    · exact (pairwise_leaves values.1).imp fun h => atFirstDifference_cons.2 h
    · intro a ha b hb
      obtain ⟨_, _, rfl⟩ := List.mem_map.1 ha
      obtain ⟨k, w, below, hmem, e, _⟩ := mem_memberLeaves_iff.1 hb
      have hlt : key < k := least k (List.mem_map.2 ⟨_, hmem, rfl⟩)
      rw [e, AtFirstDifference, if_neg (String.ne_of_lt hlt)]
      exact hlt

end

mutual

theorem entries_eq (name : String) : ∀ v : Json, Token.entries name v =
    v.leaves.map fun (path, leaf) => (path.foldl joinName name, leaf.leafText)
  | .null => rfl
  | .bool _ | .integer _ | .real _ | .string _ | .array _ => rfl
  | .object members => memberEntries_eq name members

theorem memberEntries_eq (name : String) : ∀ members : List (String × Json),
    Token.memberEntries name members = (memberLeaves members).map fun (path, leaf) =>
      (path.foldl joinName name, leaf.leafText)
  | [] => rfl
  | (key, value) :: members => by
    rw [memberEntries, memberLeaves, entries_eq _ value, memberEntries_eq name members,
      List.map_append, List.map_map]
    rfl

end

end Json

/-! ## Paths of one name -/

namespace Token

variable {R : String → String → Prop} {p q common : List String} {k l key name : String}

theorem atFirstDifference_append_left :
    AtFirstDifference R (common ++ p) (common ++ q) ↔ AtFirstDifference R p q := by
  induction common with
  | nil => rfl
  | cons key common ih =>
    rw [List.cons_append, List.cons_append, atFirstDifference_cons, ih]

theorem not_outdoes_both (h : Outdoes p q) (h' : Outdoes q p) : False := by
  induction p generalizing q with
  | nil => exact h.elim
  | cons k p ih =>
    cases q with
    | nil => exact h.elim
    | cons l q =>
      rw [Outdoes, AtFirstDifference] at h h'
      by_cases e : k = l
      · rw [if_pos e] at h
        rw [if_pos e.symm] at h'
        exact ih h h'
      · rw [if_neg e] at h
        rw [if_neg (Ne.symm e)] at h'
        exact Nat.lt_asymm h h'

theorem prefix_foldl_joinName (name : String) (path : List String) :
    name.toList <+: (path.foldl joinName name).toList := by
  induction path generalizing name with
  | nil => exact List.prefix_rfl
  | cons key path ih =>
    refine List.IsPrefix.trans ?_ (ih (joinName name key))
    rw [joinName]
    split
    · next h =>
      rw [h]
      exact List.nil_prefix
    · rw [String.append_assoc, String.toList_append]
      exact List.prefix_append _ _

theorem prefix_joinName_iff :
    (joinName name k).toList <+: (joinName name l).toList ↔ k.toList <+: l.toList := by
  rw [joinName, joinName]
  split
  · rfl
  · simp only [String.toList_append, List.prefix_append_right_inj]

/-- Behind the same name one of two keys begins the other, if both lead to one name. -/
theorem prefix_of_same_name
    (h : p.foldl joinName (joinName name k) = q.foldl joinName (joinName name l)) :
    k.toList <+: l.toList ∨ l.toList <+: k.toList := by
  have hk := prefix_foldl_joinName (joinName name k) p
  have hl := prefix_foldl_joinName (joinName name l) q
  rw [h] at hk
  exact (List.prefix_or_prefix_of_prefix hk hl).imp prefix_joinName_iff.1 prefix_joinName_iff.1

theorem length_lt_of_prefix (h : k.toList <+: l.toList) (hne : k ≠ l) : k.length < l.length := by
  rw [← String.length_toList, ← String.length_toList]
  refine Nat.lt_of_le_of_ne h.length_le ?_
  intro e
  exact hne (String.toList_injective (h.eq_of_length e))

/-- Of two keys one of which begins the other the greater one is longer. -/
theorem length_lt_of_lt (h : k.toList <+: l.toList ∨ l.toList <+: k.toList) (hlt : k < l) :
    k.length < l.length := by
  rcases h with h | h
  · exact length_lt_of_prefix h (String.ne_of_lt hlt)
  · exact absurd (String.lt_iff.1 hlt) h.le

/-- Of two paths of one name the later one has the longer key. -/
theorem outdoes_of_precedes (h : AtFirstDifference (· < ·) p q)
    (same : p.foldl joinName name = q.foldl joinName name) : Outdoes q p := by
  induction p generalizing q name with
  | nil => exact h.elim
  | cons k p ih =>
    cases q with
    | nil => exact h.elim
    | cons l q =>
      rw [List.foldl_cons, List.foldl_cons] at same
      rw [AtFirstDifference] at h
      rw [Outdoes, AtFirstDifference]
      by_cases e : k = l
      · rw [if_pos e] at h
        rw [if_pos e.symm]
        rw [e] at same
        exact ih h same
      · rw [if_neg e] at h
        rw [if_neg (Ne.symm e)]
        exact length_lt_of_lt (prefix_of_same_name same) h

/-! ## Tables -/

namespace Table

variable {entries : List (String × String)} {t : Table}

def names (t : Table) : List String :=
  t.entries.map Prod.fst

theorem resolve_insert (t : Table) (name value other : String) :
    (t.insert name value).resolve other = if other = name then some value else t.resolve other := by
  rw [resolve, resolve, insert, List.lookup_append]
  by_cases h : other = name
  · have gone : (t.entries.filter fun e => e.1 ≠ name).lookup name = none := by
      rw [List.lookup_eq_none_iff]
      intro e he
      have hne : e.1 ≠ name := of_decide_eq_true (List.mem_filter.1 he).2
      exact bne_iff_ne.2 hne.symm
    rw [if_pos h, h, gone, Option.none_or, List.lookup_cons_self]
  · have hne : (other == name) = false := beq_eq_false_iff_ne.2 h
    rw [if_neg h, Entries.lookup_filter_ne h, List.lookup_cons, hne, List.lookup_nil,
      Option.or_none]

theorem names_insert (t : Table) (name value : String) :
    (t.insert name value).names = t.names.filter (· ≠ name) ++ [name] := by
  rw [names, names, insert, List.map_append, List.filter_map]
  rfl

/-- Of the entries of one name the last one counts. -/
theorem resolve_ofEntries (entries : List (String × String)) (name : String) :
    (ofEntries entries).resolve name = entries.reverse.lookup name := by
  induction entries using List.reverseRecOn with
  | nil => rfl
  | append_singleton entries entry ih =>
    rw [ofEntries, List.foldl_append] at *
    rw [List.foldl_cons, List.foldl_nil, resolve_insert, ih, List.reverse_append,
      List.reverse_singleton, List.singleton_append, List.lookup_cons]
    by_cases h : name = entry.1
    · rw [if_pos h, beq_iff_eq.2 h]
    · rw [if_neg h, beq_eq_false_iff_ne.2 h]

theorem nodup_names_ofEntries (entries : List (String × String)) :
    (ofEntries entries).names.Nodup ∧
      ∀ name, name ∈ (ofEntries entries).names ↔ name ∈ entries.map Prod.fst := by
  induction entries using List.reverseRecOn with
  | nil => exact ⟨List.nodup_nil, fun _ => Iff.rfl⟩
  | append_singleton entries entry ih =>
    obtain ⟨nodup, mem⟩ := ih
    have hinsert : (ofEntries (entries ++ [entry])).names =
        (ofEntries entries).names.filter (· ≠ entry.1) ++ [entry.1] := by
      rw [ofEntries, List.foldl_append]
      exact names_insert _ _ _
    rw [hinsert]
    constructor
    · rw [List.nodup_append]
      refine ⟨nodup.filter _, List.nodup_singleton _, ?_⟩
      intro name hname other hother
      rw [List.mem_singleton.1 hother]
      simpa using (List.mem_filter.1 hname).2
    · intro name
      rw [List.map_append, List.mem_append, List.mem_append, List.mem_filter, mem]
      by_cases h : name = entry.1
      · simp [h]
      · simp [h]

end Table

/-! ## What a name stands for -/

variable {v leaf leaf' : Json} {path path' : List String} {text : String}

theorem entries_ofJson (v : Json) : Token.entries "" v =
    v.leaves.map fun (path, leaf) => (flatName path, leaf.leafText) :=
  Json.entries_eq "" v

theorem name_mem_entries_iff : name ∈ (Token.entries "" v).map Prod.fst ↔
    ∃ path leaf, v.LeafAt path leaf ∧ flatName path = name := by
  rw [entries_ofJson, List.map_map, List.mem_map]
  simp only [Prod.exists, Json.mem_leaves_iff, Function.comp_apply]

/-- A name stands for its last leaf, which outdoes all others of the name. -/
theorem exists_last (h : v.Ascending) (hresolve : (Table.ofJson v).resolve name = some text) :
    ∃ path leaf, v.LeafAt path leaf ∧ flatName path = name ∧ leaf.leafText = text ∧
      ∀ path' leaf', v.LeafAt path' leaf' → flatName path' = name →
        (path', leaf') = (path, leaf) ∨ Outdoes path path' := by
  rw [Table.ofJson, Table.resolve_ofEntries, entries_ofJson, ← List.map_reverse,
    List.lookup_eq_some_iff] at hresolve
  obtain ⟨behind, front, hsplit, hbehind⟩ := hresolve
  obtain ⟨later, rest, hleaves, rfl, hrest⟩ := List.map_eq_append_iff.1 hsplit
  obtain ⟨⟨path, leaf⟩, earlier, rfl, hlast, rfl⟩ := List.map_eq_cons_iff.1 hrest
  obtain ⟨hname, htext⟩ := Prod.mk.inj hlast
  have mem : ∀ path' leaf', v.LeafAt path' leaf' ↔
      (path', leaf') ∈ later ++ (path, leaf) :: earlier := by
    intro path' leaf'
    rw [← Json.mem_leaves_iff, ← hleaves, List.mem_reverse]
  have order := Json.pairwise_leaves h
  rw [← List.pairwise_reverse, hleaves, List.pairwise_append, List.pairwise_cons] at order
  refine ⟨path, leaf, (mem _ _).2 (by simp), hname, htext, ?_⟩
  intro path' leaf' hleaf' hname'
  rcases List.mem_append.1 ((mem _ _).1 hleaf') with hlater | hrest
  · have hne := hbehind _ (List.mem_map.2 ⟨_, hlater, rfl⟩)
    exact absurd hname'.symm (bne_iff_ne.1 hne)
  · rcases List.mem_cons.1 hrest with e | hearlier
    · exact Or.inl e
    · have hprecedes := order.2.1.1 _ hearlier
      exact Or.inr (outdoes_of_precedes hprecedes (hname'.trans hname.symm))

theorem isSome_resolve_iff : ((Table.ofJson v).resolve name).isSome = true ↔
    ∃ path leaf, v.LeafAt path leaf ∧ flatName path = name := by
  rw [Table.ofJson, Table.resolve_ofEntries, Entries.lookup_isSome_iff, List.map_reverse,
    List.mem_reverse, name_mem_entries_iff]

theorem precedes_or_precedes (h : v.Ascending) (hleaf : v.LeafAt path leaf)
    (hleaf' : v.LeafAt path' leaf') (hne : path ≠ path') :
    AtFirstDifference (· < ·) path path' ∨ AtFirstDifference (· < ·) path' path := by
  have symm : Std.Symm fun a b : List String × Json =>
      AtFirstDifference (· < ·) a.1 b.1 ∨ AtFirstDifference (· < ·) b.1 a.1 :=
    ⟨fun _ _ => Or.symm⟩
  have either : v.leaves.Pairwise fun a b =>
      AtFirstDifference (· < ·) a.1 b.1 ∨ AtFirstDifference (· < ·) b.1 a.1 :=
    (Json.pairwise_leaves h).imp Or.inl
  refine either.forall (Json.mem_leaves_iff.2 hleaf) (Json.mem_leaves_iff.2 hleaf') ?_
  intro e
  exact hne (congrArg Prod.fst e)

/-- A key that spells out the whole rest of the name outdoes the keys that do so one inside the
other. -/
theorem flat_outdoes_nested (h : v.Ascending) (hflat : v.LeafAt (common ++ [key]) leaf)
    (hnested : v.LeafAt (common ++ p) leaf')
    (same : flatName (common ++ p) = flatName (common ++ [key])) (hne : p ≠ [key]) :
    Outdoes (common ++ [key]) (common ++ p) := by
  have differ := precedes_or_precedes h hflat hnested fun e => hne (List.append_cancel_left e).symm
  rw [atFirstDifference_append_left, atFirstDifference_append_left] at differ
  rw [Outdoes, atFirstDifference_append_left]
  cases p with
  | nil => exact (differ.elim id id).elim
  | cons k p =>
    by_cases e : k = key
    · rw [e, atFirstDifference_cons, atFirstDifference_cons] at differ
      cases p with
      | nil => exact absurd (by rw [e]) hne
      | cons l p => exact (differ.elim id id).elim
    · rw [AtFirstDifference, if_neg (Ne.symm e)]
      rw [flatName, flatName, List.foldl_append, List.foldl_append, List.foldl_cons] at same
      have begins := prefix_foldl_joinName (joinName (common.foldl joinName "") k) p
      rw [same] at begins
      exact length_lt_of_prefix (prefix_joinName_iff.1 begins) e

/-- The names of a table are those of the leaves. A name stands for the leaf that has the longer key
at the first level where its path differs from another one, so that of one spelling with stops in
its last key and of others from the same place the former counts. -/
theorem resolve_flattened (h : v.Ascending) :
    (∀ name, ((Table.ofJson v).resolve name).isSome = true ↔
      ∃ path leaf, v.LeafAt path leaf ∧ flatName path = name) ∧
    (∀ name text, (Table.ofJson v).resolve name = some text ↔
      ∃ path leaf, v.LeafAt path leaf ∧ flatName path = name ∧ leaf.leafText = text ∧
        ∀ path' leaf', v.LeafAt path' leaf' → flatName path' = name →
          (path', leaf') = (path, leaf) ∨ Outdoes path path') ∧
    (∀ common key below leaf leaf', v.LeafAt (common ++ [key]) leaf →
      v.LeafAt (common ++ below) leaf' →
      flatName (common ++ below) = flatName (common ++ [key]) → below ≠ [key] →
        Outdoes (common ++ [key]) (common ++ below)) ∧
    ∃ names : Finset String,
      (∀ name, name ∈ names ↔ ∃ path leaf, v.LeafAt path leaf ∧ flatName path = name) ∧
        (Table.ofJson v).size = names.card := by
  refine ⟨fun name => isSome_resolve_iff, ?_, ?_, ?_⟩
  · intro name text
    refine ⟨exists_last h, ?_⟩
    rintro ⟨path, leaf, hleaf, hname, htext, outdoes⟩
    have named := isSome_resolve_iff.2 ⟨path, leaf, hleaf, hname⟩
    obtain ⟨found, hfound⟩ := Option.isSome_iff_exists.1 named
    obtain ⟨path', leaf', hleaf', hname', htext', outdoes'⟩ := exists_last h hfound
    have same : (path', leaf') = (path, leaf) := by
      rcases outdoes path' leaf' hleaf' hname' with e | hless
      · exact e
      · rcases outdoes' path leaf hleaf hname with e | hless'
        · exact e.symm
        · exact (not_outdoes_both hless hless').elim
    cases same
    rw [hfound, ← htext', htext]
  · intro common key below leaf leaf' hflat hnested same hne
    exact flat_outdoes_nested h hflat hnested same hne
  · obtain ⟨nodup, mem⟩ := Table.nodup_names_ofEntries (Token.entries "" v)
    refine ⟨(Table.ofJson v).names.toFinset, ?_, ?_⟩
    · intro name
      rw [List.mem_toFinset, Table.ofJson, mem, name_mem_entries_iff]
    · rw [Table.ofJson, List.toFinset_card_of_nodup nodup, Table.names, List.length_map,
        Table.size]

/-- Tables come from ordered values when they are loaded. -/
theorem ascending_of_load {files : Files} {file : String} {t : Table}
    (h : Table.load files file = .ok t) : ∃ v : Json, v.Ascending ∧ t = .ofJson v := by
  rw [Table.load] at h
  split at h
  · cases h
  · split at h
    · split at h
      · next v hread =>
        cases h
        exact ⟨v, Json.ascending_of_read? hread, rfl⟩
      · cases h
    · split at h
      · cases h
        exact ⟨_, Toml.ascending_entriesToJson _, rfl⟩
      · cases h

/-- Three spellings of one name, and an empty object. -/
def clashing : Json :=
  .object [("", .object [("a.b", .string "empty key")]), ("a", .object [("b", .integer 1)]),
    ("a.b", .string "flat"), ("c", .object [])]

theorem resolve_flattened_clashing : clashing.Ascending ∧
    (∃ path leaf, clashing.LeafAt path leaf ∧ flatName path = "a.b" ∧ leaf.leafText = "flat" ∧
      ∀ path' leaf', clashing.LeafAt path' leaf' → flatName path' = "a.b" →
        (path', leaf') = (path, leaf) ∨ Outdoes path path') ∧
    ∃ names : Finset String, (∀ name, name ∈ names ↔
      ∃ path leaf, clashing.LeafAt path leaf ∧ flatName path = name) ∧ 1 = names.card := by
  have h : clashing.Ascending := by
    simp only [clashing, Json.Ascending, Json.AscendingAll, and_true]
    decide
  obtain ⟨-, value, -, names⟩ := resolve_flattened h
  exact ⟨h, (value "a.b" "flat").1 (by decide), names⟩

end Token

end PartPatch
