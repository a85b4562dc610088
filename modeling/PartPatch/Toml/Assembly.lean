import PartPatch.Toml.Basic

/-!
# Putting tables together

A document is a list of statements: headers, which open a table or a new row of an array of tables,
and assignments to dotted keys. A table may be opened by one header only, and not after dotted keys
have filled it; dotted keys may not reach into a table that a header opened. No key is assigned
twice.
-/

namespace PartPatch.Toml

set_option autoImplicit false

inductive Statement where
  | assign (path : List String) (value : Value)
  | openTable (path : List String)
  | openRow (path : List String)

/-- How a table came to be: by its own header, by the header of a table inside it, or by a dotted
key. -/
inductive Origin where
  | header
  | path
  | dotted
deriving DecidableEq, Repr

/-- What a key holds while a document is put together. -/
inductive Item where
  | value (v : Value)
  | table (origin : Origin) (entries : List (String × Item))
  | rows (rows : List (List (String × Item)))

abbrev Items := List (String × Item)

/-- The entries with the item of a key that is present replaced. -/
def replaceItem (key : String) (item : Item) : Items → Items
  | [] => []
  | (k, i) :: rest => if k = key then (k, item) :: rest else (k, i) :: replaceItem key item rest

/-- Changes the entries that a header path leads to, making tables on the way. Of an array of
tables the last row counts. -/
def alterAt (change : Items → Option Items) : List String → Items → Option Items
  | [], entries => change entries
  | key :: path, entries =>
    match entries.lookup key with
    | none => (alterAt change path []).map fun inner => entries ++ [(key, .table .path inner)]
    | some (.table origin inner) =>
      (alterAt change path inner).map fun inner => replaceItem key (.table origin inner) entries
    | some (.rows rows) =>
      match rows.getLast? with
      | none => none
      | some row =>
        (alterAt change path row).map fun row =>
          replaceItem key (.rows (rows.dropLast ++ [row])) entries
    | some (.value _) => none

/-- Opens a table under a key. A table that exists only as part of a path moves to the end. -/
def openTableIn (key : String) (entries : Items) : Option Items :=
  match entries.lookup key with
  | none => some (entries ++ [(key, .table .header [])])
  | some (.table .path inner) =>
    some (entries.filter (fun e => e.1 ≠ key) ++ [(key, .table .header inner)])
  | some _ => none

def openRowIn (key : String) (entries : Items) : Option Items :=
  match entries.lookup key with
  | none => some (entries ++ [(key, .rows [[]])])
  | some (.rows rows) => some (replaceItem key (.rows (rows ++ [[]])) entries)
  | some _ => none

/-- Assigns a value to a dotted key; `fillable` tells whether the table at hand takes it. -/
def assignIn (value : Value) (fillable : Bool) (entries : Items) : List String → Option Items
  | [] => none
  | [key] =>
    if fillable && (entries.lookup key).isNone then some (entries ++ [(key, .value value)])
    else none
  | key :: path =>
    match entries.lookup key with
    | none =>
      (assignIn value true [] path).map fun inner => entries ++ [(key, .table .dotted inner)]
    | some (.table .header _) => none
    | some (.table origin inner) =>
      (assignIn value (origin == .dotted) inner path).map fun inner =>
        replaceItem key (.table origin inner) entries
    | some (.rows rows) =>
      match rows.getLast? with
      | none => none
      | some row =>
        (assignIn value false row path).map fun row =>
          replaceItem key (.rows (rows.dropLast ++ [row])) entries
    | some (.value _) => none

/-- The root entries so far, and the path of the table that assignments go to. -/
structure Assembly where
  entries : Items
  current : List String

def Assembly.step (a : Assembly) : Statement → Option Assembly
  | .assign path value =>
    (alterAt (fun entries => assignIn value true entries path) a.current a.entries).map
      fun entries => { a with entries }
  | .openTable path =>
    match path.getLast? with
    | none => none
    | some key =>
      (alterAt (openTableIn key) path.dropLast a.entries).map fun entries => ⟨entries, path⟩
  | .openRow path =>
    match path.getLast? with
    | none => none
    | some key =>
      (alterAt (openRowIn key) path.dropLast a.entries).map fun entries => ⟨entries, path⟩

mutual

def Item.toValue : Item → Value
  | .value v => v
  | .table _ entries => .table (entriesToValues entries)
  | .rows rows => .array (rowsToValues rows)

def entriesToValues : List (String × Item) → List (String × Value)
  | [] => []
  | (key, item) :: rest => (key, item.toValue) :: entriesToValues rest

def rowsToValues : List (List (String × Item)) → List Value
  | [] => []
  | row :: rows => .table (entriesToValues row) :: rowsToValues rows

end

/-- The entries of the document that the statements make. -/
def assemble (statements : List Statement) : Option (List (String × Value)) :=
  (statements.foldlM Assembly.step ⟨[], []⟩).map fun a => entriesToValues a.entries

/-- The entries of a table in braces. -/
def assembleInline (pairs : List (List String × Value)) : Option (List (String × Value)) :=
  (pairs.foldlM (fun entries (path, value) => assignIn value true entries path) []).map
    entriesToValues

end PartPatch.Toml
