import PartPatch.Binding.Basic
import PartPatch.Registry.Fingerprint

/-!
# Remembered bindings

A binding depends on the registry's document and the path only, so it can be kept, under a text that
tells the document by its fingerprint. A cache that is full forgets everything before it takes
another binding.
-/

namespace PartPatch.Binding

set_option autoImplicit false

/-- The text under which the binding of a path is kept: the fingerprint of the registry, and behind a
colon the name of the path. -/
def cacheKey (fingerprint : UInt64) (path : String) : String :=
  Registry.hexadecimal 16 fingerprint.toNat ++ ":" ++ path

structure Cache where
  entries : Entries Binding

namespace Cache

/-- The greatest number of bindings that are kept. -/
def capacity : Nat := 256

def empty : Cache := ⟨.empty⟩

def size (c : Cache) : Nat :=
  c.entries.toList.length

def find? (c : Cache) (key : String) : Option Binding :=
  c.entries.find? key

def insert (c : Cache) (key : String) (b : Binding) : Cache :=
  if c.size < capacity then ⟨c.entries.insert key b⟩ else ⟨Entries.empty.insert key b⟩

/-- The binding of the path, from the cache if it is there. The fingerprints of documents can be any
numbers of 64 bits. -/
def bindBy (fingerprint : Registry.Document → UInt64) (c : Cache) (r : Registry) (p : NamedPath) :
    Except Error Binding × Cache :=
  let key := cacheKey (fingerprint r.document) p.name
  match c.find? key with
  | some b => (.ok b, c)
  | none =>
    match Binding.bind r p with
    | .ok b => (.ok b, c.insert key b)
    | .error e => (.error e, c)

def bind (c : Cache) (r : Registry) (p : NamedPath) : Except Error Binding × Cache :=
  c.bindBy Registry.Document.digest r p

end Cache

end PartPatch.Binding
