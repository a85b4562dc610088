import PartPatch.Proofs.Patch.Rollback

/-!
# Histories

What happens to the workspace of a session is a list of moves: an operation that is applied, whether
it succeeds or fails, or a compaction. To apply a whole patch is to make some moves.
-/

namespace PartPatch.Session

set_option autoImplicit false

inductive Move where
  | operation (index : Nat) (record : OperationRecord)
  | compaction

variable {P : Type} [Package P] {s : Session} {w : Workspace P}

def move (s : Session) (w : Workspace P) : Move → Workspace P
  | .operation index record => (s.applyOperation w index record).2
  | .compaction => compacted w

def follow (s : Session) (w : Workspace P) (moves : List Move) : Workspace P :=
  moves.foldl s.move w

theorem follow_append (s : Session) (w : Workspace P) (moves more : List Move) :
    s.follow w (moves ++ more) = s.follow (s.follow w moves) more :=
  List.foldl_append

/-- The workspace after that many of the moves. -/
def stage (s : Session) (w : Workspace P) (moves : List Move) (count : Nat) : Workspace P :=
  s.follow w (moves.take count)

theorem stage_zero (s : Session) (w : Workspace P) (moves : List Move) :
    s.stage w moves 0 = w := rfl

theorem stage_length (s : Session) (w : Workspace P) (moves : List Move) :
    s.stage w moves moves.length = s.follow w moves := by
  rw [stage, List.take_length]

theorem stage_succ {moves : List Move} {count : Nat} {m : Move} (h : moves[count]? = some m) :
    s.stage w moves (count + 1) = s.move (s.stage w moves count) m := by
  rw [stage, List.take_add_one, h, follow_append]
  rfl

theorem exists_moves_run (s : Session) (w : Workspace P) (index : Nat)
    (records : List OperationRecord) :
    ∃ moves, (s.run w index records).2 = s.follow w moves := by
  induction records generalizing w index with
  | nil => exact ⟨[], rfl⟩
  | cons record records ih =>
    rcases ha : s.applyOperation w index record with ⟨error | result, w'⟩
    · refine ⟨[.operation index record], ?_⟩
      rw [run_cons_error ha]
      exact (congrArg Prod.snd ha).symm
    · obtain ⟨moves, hmoves⟩ := ih w' (index + 1)
      refine ⟨.operation index record :: moves, ?_⟩
      have hw : w' = s.move w (.operation index record) := (congrArg Prod.snd ha).symm
      rw [run_cons_ok ha, hmoves, hw]
      rfl

theorem exists_moves_apply (s : Session) (w : Workspace P) (p : Patch) :
    ∃ moves, (s.apply w p).2 = s.follow w moves := by
  cases hv : s.versionMismatch? p with
  | some reason =>
    refine ⟨[], ?_⟩
    simp only [Session.apply, hv]
    rfl
  | none =>
    obtain ⟨moves, hmoves⟩ := exists_moves_run s w 0 p.operations
    refine ⟨moves ++ [.compaction], ?_⟩
    rw [apply_eq_run hv, hmoves, follow_append]
    rfl

end PartPatch.Session
