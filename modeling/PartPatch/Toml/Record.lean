import PartPatch.Entries
import PartPatch.Toml.Basic

/-!
# Records in TOML

A record has named fields, each with one or more accepted spellings. It is written as a table, or
as an array that gives its leading fields in order. A date or time counts as a table with one entry.
-/

namespace PartPatch.Toml

set_option autoImplicit false

/-- The key under which a date or time appears where it is taken for a table. -/
def datetimeKey : String := "$__toml_private_datetime"

namespace Value

def string? : Value → Option String
  | .string s => some s
  | _ => none

def boolean? : Value → Option Bool
  | .boolean b => some b
  | _ => none

def natural? : Value → Option Nat
  | .integer n => if 0 ≤ n then some n.toNat else none
  | _ => none

/-- An array all of whose items are acceptable. -/
def listOf? {α : Type} (item? : Value → Option α) : Value → Option (List α)
  | .array items => items.mapM item?
  | _ => none

def entries? : Value → Option (List (String × Value))
  | .table entries => some entries
  | .datetime d => some [(datetimeKey, .string d.text)]
  | _ => none

/-- A table all of whose values are acceptable. -/
def entriesOf? {α : Type} (value? : Value → Option α) (v : Value) : Option (Entries α) :=
  match v.entries? with
  | none => none
  | some entries =>
    (entries.mapM fun entry => (value? entry.2).map fun x => (entry.1, x)).map Entries.ofList

end Value

/-- The fields of a kind of record, in order, each with its spellings. -/
structure RecordShape where
  fields : List (List String)
  /-- Whether other keys are refused rather than ignored. -/
  closed : Bool

abbrev Fields := List (String × Value)

namespace RecordShape

/-- The proper name of the field that a key spells. -/
def fieldName? (shape : RecordShape) (key : String) : Option String :=
  (shape.fields.find? (·.contains key)).bind List.head?

/-- The entries of a table under the proper names of their fields, unless a key is refused. -/
def named? (shape : RecordShape) : List (String × Value) → Option Fields
  | [] => some []
  | (key, value) :: entries =>
    match shape.fieldName? key with
    | some name => (shape.named? entries).map ((name, value) :: ·)
    | none => if shape.closed then none else shape.named? entries

/-- The fields given; none may be given twice. -/
def tableFields? (shape : RecordShape) (v : Value) : Option Fields :=
  match v.entries? with
  | none => none
  | some entries =>
    match shape.named? entries with
    | none => none
    | some fields => if (fields.map Prod.fst).Nodup then some fields else none

/-- The fields of a record in either form. -/
def fields? (shape : RecordShape) : Value → Option Fields
  | .array items => some ((shape.fields.filterMap List.head?).zip items)
  | v => shape.tableFields? v

theorem mem_of_named? (shape : RecordShape) {entries : List (String × Value)} {fields : Fields}
    (h : shape.named? entries = some fields) {name : String} {value : Value}
    (hm : (name, value) ∈ fields) : ∃ key, (key, value) ∈ entries := by
  induction entries generalizing fields with
  | nil =>
    simp only [named?, Option.some.injEq] at h
    simp [← h] at hm
  | cons entry entries ih =>
    obtain ⟨key, v⟩ := entry
    simp only [named?] at h
    split at h
    · simp only [Option.map_eq_some_iff] at h
      obtain ⟨rest, hr, rfl⟩ := h
      simp only [List.mem_cons, Prod.mk.injEq] at hm
      rcases hm with ⟨_, rfl⟩ | hm
      · exact ⟨key, List.mem_cons_self⟩
      · obtain ⟨k, hk⟩ := ih hr hm
        exact ⟨k, List.mem_cons_of_mem _ hk⟩
    · split at h
      · simp at h
      · obtain ⟨k, hk⟩ := ih h hm
        exact ⟨k, List.mem_cons_of_mem _ hk⟩

/-- An array given as a field of a record lies inside it. -/
theorem sizeOf_lt_of_fields? (shape : RecordShape) {v : Value} {fields : Fields}
    (h : shape.fields? v = some fields) {name : String} {items : List Value}
    (hm : (name, .array items) ∈ fields) : sizeOf (Value.array items) < sizeOf v := by
  unfold fields? at h
  split at h
  · simp only [Option.some.injEq] at h
    subst h
    have := List.sizeOf_lt_of_mem (List.of_mem_zip hm).2
    simp only [Value.array.sizeOf_spec] at this ⊢
    omega
  · unfold tableFields? at h
    split at h
    · simp at h
    · next entries he =>
      split at h
      · simp at h
      · next hn =>
        split at h
        · simp only [Option.some.injEq] at h
          subst h
          obtain ⟨key, hk⟩ := mem_of_named? shape hn hm
          unfold Value.entries? at he
          split at he
          · simp only [Option.some.injEq] at he
            subst he
            have := List.sizeOf_lt_of_mem hk
            simp only [Value.table.sizeOf_spec, Prod.mk.sizeOf_spec] at this ⊢
            omega
          · simp only [Option.some.injEq] at he
            subst he
            simp at hk
          · simp at he
        · simp at h

end RecordShape

namespace Fields

variable {α : Type}

def required? (fields : Fields) (name : String) (value? : Value → Option α) : Option α :=
  (fields.lookup name).bind value?

/-- The field's value if it is given, which then has to be acceptable. -/
def optional? (fields : Fields) (name : String) (value? : Value → Option α) :
    Option (Option α) :=
  match fields.lookup name with
  | none => some none
  | some value => (value? value).map some

def withDefault? (fields : Fields) (name : String) (default : α) (value? : Value → Option α) :
    Option α :=
  match fields.lookup name with
  | none => some default
  | some value => value? value

end Fields

theorem mem_of_lookup {fields : Fields} {name : String} {value : Value}
    (h : fields.lookup name = some value) : (name, value) ∈ fields := by
  induction fields with
  | nil => simp at h
  | cons field fields ih =>
    obtain ⟨n, v⟩ := field
    rw [List.lookup_cons] at h
    split at h
    · next e =>
      simp only [Option.some.injEq] at h
      simp only [beq_iff_eq] at e
      simp [h, e]
    · exact List.mem_cons_of_mem _ (ih h)

end PartPatch.Toml
