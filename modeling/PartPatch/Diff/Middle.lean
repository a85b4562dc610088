/-!
# The middle of a shortest script

A script is a way through a grid: a step in the first list deletes, a step in the second inserts, a
diagonal step keeps. Two searches start at the ends. In round `d` each knows, on every diagonal that
`d` deletions and insertions can reach, the furthest point there; where the two meet, a shortest way
can be divided.
-/

namespace PartPatch.Diff

set_option autoImplicit false

variable {α : Type} [DecidableEq α]

/-- How far along the first list the diagonal run from a point leads. -/
def slideFrom (a b : Array α) (x y : Nat) : Nat :=
  if h : x < a.size ∧ y < b.size then
    if a[x] = b[y] then slideFrom a b (x + 1) (y + 1) else x
  else x
termination_by a.size - x

/-- A furthest point, with the place where its diagonal run starts. Both are positions in the first
list. -/
structure Furthest where
  start : Nat
  reached : Nat
deriving Repr

/-- Where the `i`-th diagonal of a round is entered, from the points of the round before: one
further in the first list, or one further in the second. -/
def entry (before : Array Nat) (i : Nat) : Nat :=
  match if i = 0 then none else before[i - 1]?, before[i]? with
  | some x, some y => if x < y then y else x + 1
  | some x, none => x + 1
  | none, some y => y
  | none, none => 0

/-- The position in the second list of a point on the `i`-th diagonal of round `d`, unless the point
lies before its start. -/
def across? (d i x : Nat) : Option Nat :=
  if 2 * i ≤ x + d then some (x + d - 2 * i) else none

/-- The furthest points of the round that follows one whose points are given. Diagonals are numbered
from that of `d` insertions to that of `d` deletions. -/
def nextRound (a b : Array α) (before : Array Nat) : Array Furthest :=
  (Array.range (before.size + 1)).map fun i =>
    let x := entry before i
    match across? before.size i x with
    | some y => ⟨x, slideFrom a b x y⟩
    | none => ⟨x, x⟩

/-- The greatest diagonal on which the points meet or pass those of the opposite search, which is
`delta` diagonals away; with the point there. -/
def meeting? (points : Array Furthest) (opposite : Array Nat) (delta : Int) (n : Nat) :
    Option (Nat × Furthest) :=
  let total : Int := (delta + (points.size + opposite.size : Nat) - 2) / 2
  (List.range points.size).reverse.findSome? fun (i : Nat) =>
    let j : Int := total - i
    if j < 0 then none
    else match points[i]?, opposite[j.toNat]? with
      | some p, some x => if n ≤ p.reached + x then some (i, p) else none
      | _, _ => none

/-- Searches from both ends in turn, given the points of the last rounds, for at most so many more
rounds. An odd distance is met by the search from the start, an even one by that from the end. -/
def search (a b a' b' : Array α) : Nat → Array Nat → Array Nat → Option (Nat × Nat)
  | 0, _, _ => none
  | rounds + 1, forward, backward =>
    let d := forward.size
    let delta : Int := a.size - b.size
    let points := nextRound a b forward
    let reached := points.map Furthest.reached
    if delta % 2 = 1 then
      match meeting? points backward delta a.size with
      | some (i, p) => some (p.start, p.start + d - 2 * i)
      | none => search a b a' b' rounds reached ((nextRound a' b' backward).map Furthest.reached)
    else
      let points' := nextRound a' b' backward
      match meeting? points' reached delta a.size with
      | some (i, p) => some (a.size - p.reached, b.size - (p.reached + d - 2 * i))
      | none => search a b a' b' rounds reached (points'.map Furthest.reached)

/-- A point on a shortest way from the start of both lists to their ends, unless one of them is
empty. -/
def middle? (a b : List α) : Option (Nat × Nat) :=
  if a.isEmpty || b.isEmpty then none
  else search a.toArray b.toArray a.reverse.toArray b.reverse.toArray
    ((a.length + b.length + 1) / 2 + 1) #[] #[]

end PartPatch.Diff
