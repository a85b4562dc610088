import PartPatch.Proofs.Package.Rehearsal
import PartPatch.Proofs.Patch.Creation

/-!
# Dry runs

A dry run applies the same patches to a package that rehearses. It gives the results of the run that
writes as long as no operation meets a file of that run under another name than that of its part, or
by way of one of its directories, and no number is left for a relationship in one of the two only.
-/

namespace PartPatch.Session

set_option autoImplicit false

open DirectoryPackage (Rehearses Creation)

/-- Two workspaces that differ in nothing but that the second only rehearses. -/
structure InStep (first : Files) (w w' : Workspace DirectoryPackage) : Prop where
  tree : w.tree = w'.tree
  ids : w.ids = w'.ids
  package : Rehearses first w.package w'.package

variable {s : Session} {first : Files} {p q : DirectoryPackage} {part fragment : String}
  {w w' : Workspace DirectoryPackage}

/-! ## One operation -/

/-- A rehearsal leaves the files alone. -/
theorem files_packageAfter (hdryRun : p.dryRun = true) (operation : Operation) :
    (s.packageAfter p operation).files = p.files := by
  cases operation with
  | ensurePart part fragment =>
    rw [packageAfter, ensurePart_eq]
    cases s.request p.hasPart part fragment with
    | error done => rfl
    | ok c =>
      rcases DirectoryPackage.files_create p c with ⟨_, hoff, _⟩ | ⟨_, _, hfiles⟩
      · rw [hdryRun] at hoff
        cases hoff
      · exact hfiles hdryRun
  | _ => rfl

theorem files_applyEach_of_dryRun {w : Workspace DirectoryPackage}
    (hdryRun : w.package.dryRun = true) (ps : List Patch) :
    (s.applyEach w ps).2.package.files = w.package.files :=
  (keeps_of_step (I := fun p => p.dryRun = true ∧ p.files = w.package.files)
    (fun p operation h => ⟨(dryRun_packageAfter p operation).trans h.1,
      (files_packageAfter h.1 operation).trans h.2⟩) w ps ⟨hdryRun, rfl⟩).2

def plainBody : Tree := { DirectoryPackage.bareRoot with header := some Fragment.documentHeader }

end PartPatch.Session
