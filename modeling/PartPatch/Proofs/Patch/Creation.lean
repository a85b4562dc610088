import PartPatch.Proofs.Package.Call
import PartPatch.Proofs.Patch.Trace

/-!
# Parts that operations ask for

An `ensurePart` operation either is done before the package is asked for anything, or it asks for
one creation, and its result is that of the call.
-/

namespace PartPatch.Session

set_option autoImplicit false

open DirectoryPackage (Creation)

/-- The creation that an `ensurePart` operation asks for, or its result if it does not. -/
def request (s : Session) (hasPart : String → Bool) (part fragment : String) :
    Except (Except OperationError OperationResult) Creation :=
  match s.registry.part? part with
  | none => .error (.error (.unknownRef "parts" part))
  | some spec =>
    if hasPart spec.name then .error (.ok .alreadyApplied)
    else
      match s.fragment fragment with
      | .error e => .error (.error e)
      | .ok f =>
        match f.instantiateDocument s.tokens s.registry with
        | .error e => .error (.error (.fragment e))
        | .ok body => .ok ⟨spec, body⟩

/-- The result of an operation whose call was answered so. -/
def resultOf : Except PartError CreatedPart → Except OperationError OperationResult
  | .ok _ => .ok .applied
  | .error e => .error (.part e)

variable {s : Session} {hasPart hasPart' : String → Bool} {part fragment : String} {c : Creation}
  {done : Except OperationError OperationResult}

theorem ensurePart_eq (s : Session) (p : DirectoryPackage) (part fragment : String) :
    s.ensurePart p part fragment =
      match s.request p.hasPart part fragment with
      | .error done => (done, p)
      | .ok c => (resultOf (p.create c).1, (p.create c).2) := by
  have hhas : ∀ name, Package.hasPart p name = p.hasPart name := fun _ => rfl
  have hcreate : ∀ spec body, Package.createPart p spec body = p.create ⟨spec, body⟩ :=
    fun _ _ => rfl
  simp only [ensurePart, request, hhas, hcreate]
  cases s.registry.part? part with
  | none => rfl
  | some spec =>
    dsimp only
    split
    · rfl
    · cases s.fragment fragment with
      | error e => rfl
      | ok f =>
        dsimp only
        cases f.instantiateDocument s.tokens s.registry with
        | error e => rfl
        | ok body =>
          dsimp only
          rcases p.create ⟨spec, body⟩ with ⟨e | made, left⟩
          · rfl
          · rfl

/-- What is asked for is the part under the key, which the package lacks, with an instance of the
fragment. -/
theorem request_eq_ok_iff : s.request hasPart part fragment = .ok c ↔
    s.registry.part? part = some c.part ∧ hasPart c.part.name = false ∧
      ∃ f, s.fragment fragment = .ok f ∧
        f.instantiateDocument s.tokens s.registry = .ok c.body := by
  constructor
  · intro h
    unfold request at h
    split at h
    · cases h
    · next spec hspec =>
      split at h
      · cases h
      · next hnew =>
        split at h
        · cases h
        · next f hf =>
          split at h
          · cases h
          · next body hbody =>
            cases h
            exact ⟨hspec, Bool.eq_false_iff.2 hnew, f, hf, hbody⟩
  · rintro ⟨hspec, hnew, f, hf, hbody⟩
    simp [request, hspec, hnew, hf, hbody]

/-- An operation that is done without a call has not applied anything, and has asked for no number
of a relationship. -/
theorem done_of_request (h : s.request hasPart part fragment = .error done) :
    done ≠ .ok .applied ∧ done ≠ .error (.part .overflow) := by
  unfold request at h
  split at h
  · cases h
    exact ⟨by simp, by simp⟩
  · split at h
    · cases h
      exact ⟨by simp, by simp⟩
    · split at h
      · next e hf =>
        cases h
        refine ⟨by simp, fun he => ?_⟩
        unfold Session.fragment at hf
        split at hf
        · cases hf
        · cases hf
          cases he
      · split at h
        · cases h
          exact ⟨by simp, by simp⟩
        · cases h

/-- An operation does not change whether the package writes. -/
theorem dryRun_packageAfter (p : DirectoryPackage) (operation : Operation) :
    (s.packageAfter p operation).dryRun = p.dryRun := by
  cases operation with
  | ensurePart part fragment =>
    rw [packageAfter, ensurePart_eq]
    cases s.request p.hasPart part fragment with
    | error done => rfl
    | ok c => exact (DirectoryPackage.create_facts p c).2.1
  | _ => rfl

end PartPatch.Session
