import PartPatch.Binding.Cache
import PartPatch.Proofs.Registry.Compile
import PartPatch.Proofs.Registry.Fingerprint

/-!
# Remembered bindings are bindings

The text under which a binding is kept tells its path and the fingerprint of its registry. Where
fingerprints tell the registries apart, what a cache answers is what binding the path would give,
whatever was kept or forgotten before.
-/

namespace PartPatch

set_option autoImplicit false

namespace Registry

variable {d d' : Document} {r r' : Registry} {key : String} {p p' : NamedPath}

theorem document_of_compile (h : compile d = .ok r) : r.document = d := by
  obtain ⟨_, rfl⟩ := compile_eq_ok_iff.1 h
  rfl

theorem eq_of_document (h : compile d = .ok r) (h' : compile d' = .ok r')
    (hdocument : r.document = r'.document) : r = r' := by
  rw [document_of_compile h, document_of_compile h'] at hdocument
  rw [← (compile_eq_ok_iff.1 h).2, ← (compile_eq_ok_iff.1 h').2, hdocument]

theorem name_of_path? (h : compile d = .ok r) (hp : r.path? key = some p) : p.name = key := by
  obtain ⟨_, rfl⟩ := compile_eq_ok_iff.1 h
  rw [path?, Document.resolved, Entries.find?_filterMap_eq_some_iff] at hp
  obtain ⟨source, _, hnamed⟩ := hp
  unfold Scope.namedPath? at hnamed
  split at hnamed
  · cases hnamed
    rfl
  · cases hnamed

end Registry

namespace Binding

theorem cacheKey_injective {f g : UInt64} {path other : String}
    (h : cacheKey f path = cacheKey g other) : f = g ∧ path = other := by
  have hlength : ∀ n : UInt64, (Registry.hexadecimal 16 n.toNat).toList.length = 16 := fun n =>
    Registry.length_hexadecimal (by decide) n.toNat_lt
  have hlist := congrArg String.toList h
  simp only [cacheKey, String.toList_append, List.append_assoc] at hlist
  obtain ⟨hprint, hrest⟩ := List.append_inj hlist (by rw [hlength, hlength])
  refine ⟨?_, ?_⟩
  · exact UInt64.toNat_inj.1 (Registry.hexadecimal_injective (String.toList_inj.1 hprint))
  · exact String.toList_inj.1 (List.append_cancel_left hrest)

/-- What is asked for on a thread, one thing after the other. -/
inductive Request where
  | bind (registry : Registry) (path : NamedPath)
  /-- Any binding is supplied with tokens. -/
  | supply (binding : Binding) (path : String) (tokens : Token.Resolver)
  | clear

/-- The answer that no cache has a part in. -/
def Request.answer : Request → Option (Except Error Binding)
  | .bind r p => some (Binding.bind r p)
  | .supply b path tokens => some (b.withTokens path tokens)
  | .clear => none

/-- The paths that are asked for are paths of compiled registries, whose documents are told apart by
their fingerprints. -/
structure Request.Distinct (fingerprint : Registry.Document → UInt64) (requests : List Request) :
    Prop where
  path : ∀ r p, .bind r p ∈ requests →
    ∃ d key, Registry.compile d = .ok r ∧ r.path? key = some p
  fingerprint : ∀ r p r' p', .bind r p ∈ requests → .bind r' p' ∈ requests →
    fingerprint r.document = fingerprint r'.document → r.document = r'.document

/-- No two paths that are asked for are kept under one text. -/
theorem Request.Distinct.eq_of_key {fingerprint : Registry.Document → UInt64}
    {requests : List Request} (distinct : Request.Distinct fingerprint requests)
    {r r' : Registry} {p p' : NamedPath} (h : .bind r p ∈ requests)
    (h' : .bind r' p' ∈ requests) (hkey : cacheKey (fingerprint r.document) p.name =
      cacheKey (fingerprint r'.document) p'.name) : r = r' ∧ p = p' := by
  obtain ⟨hprint, hname⟩ := cacheKey_injective hkey
  obtain ⟨d, key, hr, hp⟩ := distinct.path r p h
  obtain ⟨d', key', hr', hp'⟩ := distinct.path r' p' h'
  have hdocument := distinct.fingerprint r p r' p' h h' hprint
  obtain rfl := Registry.eq_of_document hr hr' hdocument
  rw [← Registry.name_of_path? hr hp, hname, Registry.name_of_path? hr' hp', hp'] at hp
  exact ⟨rfl, (Option.some.inj hp).symm⟩

namespace Cache

variable {fingerprint : Registry.Document → UInt64} {requests : List Request} {c : Cache}

def serve (fingerprint : Registry.Document → UInt64) (c : Cache) :
    Request → Option (Except Error Binding) × Cache
  | .bind r p =>
    let (answer, c) := c.bindBy fingerprint r p
    (some answer, c)
  | .supply b path tokens => (some (b.withTokens path tokens), c)
  | .clear => (none, empty)

/-- The answers to requests that are made one after the other, and the cache afterwards. -/
def serveAll (fingerprint : Registry.Document → UInt64) (c : Cache) :
    List Request → List (Option (Except Error Binding)) × Cache
  | [] => ([], c)
  | request :: requests =>
    let (answer, c) := c.serve fingerprint request
    let (answers, c) := c.serveAll fingerprint requests
    (answer :: answers, c)

theorem find?_insert {key other : String} {b b' : Binding}
    (h : (c.insert key b).find? other = some b') :
    other = key ∧ b' = b ∨ c.find? other = some b' := by
  have hput : ∀ t : Entries Binding, (t.insert key b).find? other = some b' →
      other = key ∧ b' = b ∨ t.find? other = some b' := by
    intro t ht
    rw [Entries.find?_insert] at ht
    split at ht
    · next e => exact Or.inl ⟨e, (Option.some.inj ht).symm⟩
    · exact Or.inr ht
  unfold insert at h
  split at h
  · exact hput c.entries h
  · rcases hput .empty h with hnew | hold
    · exact Or.inl hnew
    · cases hold

theorem size_insert_le (c : Cache) (key : String) (b : Binding) :
    (c.insert key b).size ≤ capacity := by
  have hsize : ∀ t : Entries Binding, (t.insert key b).toList.length ≤ t.toList.length + 1 := by
    intro t
    have hkeys := congrArg List.length (Entries.keys_insert t key b)
    rw [Entries.keys, List.length_map, Entries.keys] at hkeys
    rw [hkeys]
    split
    · rw [List.length_map]
      exact Nat.le_succ _
    · rw [List.length_append, List.length_map, List.length_singleton]
  unfold insert
  split
  · next room => exact (hsize c.entries).trans room
  · exact (hsize .empty).trans (by decide)

/-- What a cache may be: it is not overfull, and all that is kept in it is the binding of a path
that was asked for. -/
structure Sound (fingerprint : Registry.Document → UInt64) (requests : List Request) (c : Cache) :
    Prop where
  size : c.size ≤ capacity
  kept : ∀ key b, c.find? key = some b → ∃ r p, .bind r p ∈ requests ∧
    key = cacheKey (fingerprint r.document) p.name ∧ Binding.bind r p = .ok b

theorem sound_empty : empty.Sound fingerprint requests where
  size := Nat.zero_le _
  kept := by
    intro key b h
    cases h

theorem Sound.insert (sound : c.Sound fingerprint requests) {r : Registry} {p : NamedPath}
    (hmem : .bind r p ∈ requests) {b : Binding} (hb : Binding.bind r p = .ok b) :
    (c.insert (cacheKey (fingerprint r.document) p.name) b).Sound fingerprint requests where
  size := size_insert_le c _ b
  kept := by
    intro key b' h
    rcases find?_insert h with ⟨rfl, rfl⟩ | h
    · exact ⟨r, p, hmem, rfl, hb⟩
    · exact sound.kept key b' h

theorem Sound.bindBy (distinct : Request.Distinct fingerprint requests)
    (sound : c.Sound fingerprint requests) {r : Registry} {p : NamedPath}
    (hmem : .bind r p ∈ requests) :
    (c.bindBy fingerprint r p).1 = Binding.bind r p ∧
      (c.bindBy fingerprint r p).2.Sound fingerprint requests := by
  unfold Cache.bindBy
  dsimp only
  split
  · next b hfound =>
    obtain ⟨r', p', hmem', hkey, hb⟩ := sound.kept _ b hfound
    obtain ⟨rfl, rfl⟩ := distinct.eq_of_key hmem hmem' hkey
    exact ⟨hb.symm, sound⟩
  · split
    · next b hb => exact ⟨hb.symm, sound.insert hmem hb⟩
    · next e he => exact ⟨he.symm, sound⟩

theorem Sound.serve (distinct : Request.Distinct fingerprint requests)
    (sound : c.Sound fingerprint requests) {request : Request} (hmem : request ∈ requests) :
    (c.serve fingerprint request).1 = request.answer ∧
      (c.serve fingerprint request).2.Sound fingerprint requests := by
  cases request with
  | bind r p =>
    obtain ⟨hanswer, hsound⟩ := sound.bindBy distinct hmem
    exact ⟨congrArg some hanswer, hsound⟩
  | supply b path tokens => exact ⟨rfl, sound⟩
  | clear => exact ⟨rfl, sound_empty⟩

theorem Sound.serveAll (distinct : Request.Distinct fingerprint requests) {now : List Request}
    (hnow : now ⊆ requests) (sound : c.Sound fingerprint requests) :
    (c.serveAll fingerprint now).1 = now.map Request.answer ∧
      (c.serveAll fingerprint now).2.Sound fingerprint requests := by
  induction now generalizing c with
  | nil => exact ⟨rfl, sound⟩
  | cons request now ih =>
    rw [List.cons_subset] at hnow
    obtain ⟨hanswer, hsound⟩ := sound.serve distinct hnow.1
    obtain ⟨hanswers, hafter⟩ := ih hnow.2 hsound
    refine ⟨?_, hafter⟩
    rw [List.map_cons, ← hanswer, ← hanswers]
    rfl

end Cache

/-- A cache has no part in the answers, and it is never overfull. -/
theorem serveAll_transparent {fingerprint : Registry.Document → UInt64} {requests : List Request}
    (distinct : Request.Distinct fingerprint requests) :
    (Cache.empty.serveAll fingerprint requests).1 = requests.map Request.answer ∧
      (Cache.empty.serveAll fingerprint requests).2.size ≤ 256 := by
  obtain ⟨hanswers, hsound⟩ := Cache.sound_empty.serveAll distinct (List.Subset.refl requests)
  exact ⟨hanswers, hsound.size⟩

/-! ## Two registries with a path of one name -/

def lowerDocument : Registry.Document where
  metadata := ⟨"", none, none⟩
  namespaces := .empty
  elements := .ofList [("a", .short "a"), ("b", .short "b")]
  attributes := .ofList [("id", .short "id")]
  identifiers := .empty
  values := .empty
  paths := .ofList [("target", "/a[@id = $kind]")]
  fragments := .empty
  parts := .empty

/-- Lays another path over the one of the same name. -/
def upperDocument : Registry.Document :=
  { lowerDocument with paths := .ofList [("target", "/b")] }

def lower : Registry := lowerDocument.resolved

def upper : Registry := upperDocument.resolved

def lowerPath : NamedPath where
  name := "target"
  source := "/a[@id = $kind]"
  path := ⟨[.element .child (.named "a"), .predicate [.attribute "id"] (some "kind")]⟩

def upperPath : NamedPath where
  name := "target"
  source := "/b"
  path := ⟨[.element .child (.named "b")]⟩

def lowerBinding : Binding where
  elements := [("a", ⟨"a", ""⟩)]
  attributes := [("id", ⟨"id", ""⟩)]
  values := []
  pending := ["kind"]

def upperBinding : Binding where
  elements := [("b", ⟨"b", ""⟩)]
  attributes := []
  values := []
  pending := []

/-- Tells the two documents apart. -/
def layerNumber (d : Registry.Document) : UInt64 :=
  if d = lowerDocument then 0x3C21 else 0xA07

def turnByTurn : List Request :=
  [.bind lower lowerPath, .supply lowerBinding "target" fun _ => some "ftr", .bind upper upperPath,
    .bind lower lowerPath, .clear, .bind upper upperPath]

theorem mem_turnByTurn {r : Registry} {p : NamedPath} (h : .bind r p ∈ turnByTurn) :
    r = lower ∧ p = lowerPath ∨ r = upper ∧ p = upperPath := by
  simp only [turnByTurn, List.mem_cons, Request.bind.injEq, reduceCtorEq, List.not_mem_nil,
    false_or, or_false] at h
  rcases h with h | h | h | h
  · exact Or.inl h
  · exact Or.inr h
  · exact Or.inl h
  · exact Or.inr h

theorem distinct_turnByTurn : Request.Distinct layerNumber turnByTurn where
  path := by
    intro r p h
    rcases mem_turnByTurn h with ⟨rfl, rfl⟩ | ⟨rfl, rfl⟩
    · have compiled : Registry.compile lowerDocument = .ok lower :=
        Registry.compile_eq_ok_iff.2 ⟨by cbv, rfl⟩
      exact ⟨lowerDocument, "target", compiled, by cbv⟩
    · have compiled : Registry.compile upperDocument = .ok upper :=
        Registry.compile_eq_ok_iff.2 ⟨by cbv, rfl⟩
      exact ⟨upperDocument, "target", compiled, by cbv⟩
  fingerprint := by
    have apart : layerNumber lower.document ≠ layerNumber upper.document := by decide
    intro r p r' p' h h' hprint
    rcases mem_turnByTurn h with ⟨rfl, _⟩ | ⟨rfl, _⟩
    · rcases mem_turnByTurn h' with ⟨rfl, _⟩ | ⟨rfl, _⟩
      · rfl
      · exact absurd hprint apart
    · rcases mem_turnByTurn h' with ⟨rfl, _⟩ | ⟨rfl, _⟩
      · exact absurd hprint.symm apart
      · rfl

theorem serveAll_transparent_turnByTurn :
    (Cache.empty.serveAll layerNumber turnByTurn).1 =
      [some (.ok lowerBinding),
        some (.ok { lowerBinding with values := [("kind", "ftr")], pending := [] }),
        some (.ok upperBinding), some (.ok lowerBinding), none, some (.ok upperBinding)] ∧
      (Cache.empty.serveAll layerNumber turnByTurn).2.size ≤ 256 := by
  obtain ⟨hanswers, hsize⟩ := serveAll_transparent distinct_turnByTurn
  refine ⟨hanswers.trans ?_, hsize⟩
  cbv

end Binding

end PartPatch
