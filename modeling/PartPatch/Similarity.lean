/-!
# Similarity of words

The similarity of Jaro and Winkler lies between 0 and 1. Two equal characters match if they stand no
further apart than half the longer word; words that are similar already gain by a common start.
-/

namespace PartPatch.Similarity

set_option autoImplicit false

/-- Marks the first character that equals `c`, is not marked yet and stands at a place from `first`
up to, but not including, `last`. The list starts at `place`. -/
def mark? (c : Char) (first last : Nat) (place : Nat) :
    List (Char × Bool) → Option (List (Char × Bool))
  | [] => none
  | (d, marked) :: rest =>
    if first ≤ place ∧ place < last ∧ d = c ∧ marked = false then some ((d, true) :: rest)
    else (mark? c first last (place + 1) rest).map ((d, marked) :: ·)

/-- The characters of the first word that find a match in the second, in order, and the second word
with its matched characters marked. -/
def matching (range : Nat) (place : Nat) :
    List Char → List (Char × Bool) → List Char × List (Char × Bool)
  | [], other => ([], other)
  | c :: rest, other =>
    match mark? c (place - range) (place + range + 1) 0 other with
    | none => matching range (place + 1) rest other
    | some other =>
      let (matched, other) := matching range (place + 1) rest other
      (c :: matched, other)

def jaro (a b : List Char) : Float :=
  match a, b with
  | [], [] => 1
  | [], _ => 0
  | _, [] => 0
  | a, b =>
    let range := max a.length b.length / 2 - 1
    let (left, marked) := matching range 0 a (b.map (·, false))
    let right := (marked.filter Prod.snd).map Prod.fst
    let count := left.length
    let transposed := ((left.zip right).filter fun (c, d) => c ≠ d).length / 2
    if count = 0 then 0
    else
      (count.toFloat / a.length.toFloat + count.toFloat / b.length.toFloat +
        (count - transposed).toFloat / count.toFloat) / 3

/-- The length of the common start, four at most. -/
def commonStart (a b : List Char) : Nat :=
  (((a.take 4).zip b).takeWhile fun (c, d) => c = d).length

def jaroWinkler (a b : String) : Float :=
  let similarity := jaro a.toList b.toList
  if 0.7 < similarity then
    similarity + 0.1 * (commonStart a.toList b.toList).toFloat * (1 - similarity)
  else similarity

/-- The least similarity at which a word is worth suggesting. -/
def threshold : Float := 0.85

/-- The candidate most similar to the word, if any is similar enough; of equals the last. -/
def closest? (word : String) (candidates : List String) : Option String :=
  (candidates.foldl
    (fun best candidate =>
      let score := jaroWinkler word candidate
      if score < threshold then best
      else match best with
        | some (s, c) => if score < s then some (s, c) else some (score, candidate)
        | none => some (score, candidate))
    (none : Option (Float × String))).map Prod.snd

end PartPatch.Similarity
