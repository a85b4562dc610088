import PartPatch.Proofs.Patch.Append
import PartPatch.Proofs.Patch.Prefix

/-!
# Patches do not depend on prefixes

What a patch does to a document depends on what the names in it mean, not on the prefixes they are
written with nor on the declarations that bind these. Patched in the same way, documents of the same
meaning give the same report and are documents of the same meaning again.
-/

namespace PartPatch

set_option autoImplicit false

/-- Of a name its local part and namespace are seen; declarations and headers are not. -/
def View.meaning : View where
  name q := ⟨none, q.localName, q.namespaceUri⟩
  declarations _ := []
  header _ := none
  matches_name _ _ _ := Iff.rfl

/-- The documents hold the same texts, comments and elements in the same order, with names and
attributes that mean the same. -/
def Tree.SameMeaning (t u : Tree) : Prop :=
  View.meaning.contents t.content = View.meaning.contents u.content

namespace Session

variable {P : Type} [Package P] {v : View} {s : Session} {w w' : Workspace P}

theorem apply_mirrors (sound : s.registry.Sound) (h : Workspaces P v w w') (p : Patch) :
    (s.apply w p).1 = (s.apply w' p).1 ∧ Workspaces P v (s.apply w p).2 (s.apply w' p).2 := by
  cases hv : s.versionMismatch? p with
  | some reason =>
    simp only [apply, hv]
    exact ⟨trivial, h⟩
  | none =>
    obtain ⟨hresult, ⟨_, m⟩, ids, package⟩ := run_mirrors sound h 0 p.operations
    rw [apply_eq_run hv, apply_eq_run hv, hresult]
    exact ⟨rfl, m.compact, ids, package⟩

/-- A patch does the same to documents of the same meaning. -/
theorem apply_of_sameMeaning {d : Registry.Document}
    (compiled : Registry.compile d = .ok s.registry) (wf : w.tree.WellFormed)
    (wf' : w'.tree.WellFormed) (tree : w.tree.SameMeaning w'.tree) (ids : w.ids = w'.ids)
    (package : w.package = w'.package) (p : Patch) :
    (s.apply w p).1 = (s.apply w' p).1 ∧
      (s.apply w p).2.tree.SameMeaning (s.apply w' p).2.tree ∧
      (s.apply w p).2.ids = (s.apply w' p).2.ids ∧
      (s.apply w p).2.package = (s.apply w' p).2.package := by
  have start : Workspaces P .meaning w w' :=
    ⟨Tree.mirrors_iff.2 ⟨⟨wf, wf'⟩, rfl, tree⟩, ids, package⟩
  obtain ⟨hresult, ⟨_, m⟩, hids, hpackage⟩ :=
    apply_mirrors (Registry.sound_of_compile compiled) start p
  exact ⟨hresult, m.content, hids, hpackage⟩

/-- Holds the same list under a name without a prefix. -/
def unprefixedListOnly : Workspace MemoryPackage where
  tree := {
    nodes := #[⟨.document, none, [1]⟩,
      ⟨.element ⟨⟨none, "list", some "urn:doc"⟩, [], [⟨none, "urn:doc"⟩]⟩, some 0, []⟩]
    header := none }
  ids := .empty
  package := .empty

theorem read_unprefixedList :
    Xml.read "<list xmlns='urn:doc'/>" = .ok unprefixedListOnly.tree := by
  cbv

def numberTheList : Patch :=
  ⟨⟨"", none, none⟩, [⟨.ensureAttr "list" "id" "7", false⟩]⟩

theorem apply_of_sameMeaning_list :
    (boundTwice.apply prefixedListOnly numberTheList).1 =
      .ok ⟨"", [⟨0, .ensureAttr, ["list", "id"], .applied⟩]⟩ ∧
    (boundTwice.apply unprefixedListOnly numberTheList).1 =
      .ok ⟨"", [⟨0, .ensureAttr, ["list", "id"], .applied⟩]⟩ ∧
    (boundTwice.apply prefixedListOnly numberTheList).2.tree.SameMeaning
      (boundTwice.apply unprefixedListOnly numberTheList).2.tree ∧
    (boundTwice.apply prefixedListOnly numberTheList).2.tree.content ≠
      (boundTwice.apply unprefixedListOnly numberTheList).2.tree.content := by
  have compiled : Registry.compile boundTwiceDocument = .ok boundTwice.registry :=
    compile_boundTwice
  have wf := Xml.wellFormed_of_read read_prefixedList
  have wf' := Xml.wellFormed_of_read read_unprefixedList
  have tree : prefixedListOnly.tree.SameMeaning unprefixedListOnly.tree := by cbv
  obtain ⟨hresult, hsame, _⟩ := apply_of_sameMeaning compiled wf wf' tree rfl rfl numberTheList
  have applied : (boundTwice.apply prefixedListOnly numberTheList).1 =
      .ok ⟨"", [⟨0, .ensureAttr, ["list", "id"], .applied⟩]⟩ := by cbv
  refine ⟨applied, hresult.symm.trans applied, hsame, ?_⟩
  cbv
  simp

end Session

end PartPatch
