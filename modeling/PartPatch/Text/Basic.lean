/-!
# Text as a list of code points

Byte offsets, blanks, trimming, and splitting at the first occurrence of a marker. Every cut comes
with the fact that the remainder is no longer than the text it was cut from, on which the scanners
of the other modules recurse.
-/

namespace PartPatch.Text

set_option autoImplicit false

/-- The number of bytes the text takes in UTF-8. -/
def byteLength : List Char → Nat
  | [] => 0
  | c :: s => c.utf8Size + byteLength s

theorem byteLength_append (s t : List Char) : byteLength (s ++ t) = byteLength s + byteLength t := by
  induction s with
  | nil => simp [byteLength]
  | cons c s ih => simp [byteLength, ih, Nat.add_assoc]

theorem length_lt_cons (c : Char) (s : List Char) : s.length < (c :: s).length :=
  Nat.lt_succ_self _

theorem length_le_self (s : List Char) : s.length ≤ s.length :=
  Nat.le_refl _

theorem length_lt_trans {r s t : List Char} (h : r.length < s.length) (h' : s.length < t.length) :
    r.length < t.length :=
  Nat.lt_trans h h'

theorem length_lt_cons_of_lt {c : Char} {r s : List Char} (h : r.length < s.length) :
    r.length < (c :: s).length :=
  Nat.lt_succ_of_lt h

/-- The byte offset of the place where `rest` is what remains of `s`. -/
def offsetOf (s rest : List Char) : Nat :=
  byteLength s - byteLength rest

theorem offsetOf_append (s t : List Char) : offsetOf (s ++ t) t = byteLength s := by
  simp [offsetOf, byteLength_append]

/-- White space in the sense of the Unicode property `White_Space`. -/
def isBlank (c : Char) : Bool :=
  let n := c.toNat
  (9 ≤ n && n ≤ 13) || n == 0x20 || n == 0x85 || n == 0xA0 || n == 0x1680 ||
    (0x2000 ≤ n && n ≤ 0x200A) || n == 0x2028 || n == 0x2029 || n == 0x202F || n == 0x205F ||
    n == 0x3000

/-- Space, tab, line feed, form feed or carriage return. -/
def isAsciiBlank (c : Char) : Bool :=
  c == ' ' || c == '\t' || c == '\n' || c == '\x0c' || c == '\r'

def trimStart (s : List Char) : List Char :=
  s.dropWhile isBlank

def trimEnd (s : List Char) : List Char :=
  (s.reverse.dropWhile isBlank).reverse

def trim (s : List Char) : List Char :=
  trimEnd (trimStart s)

/-- The text without blanks at either end. -/
def trimmed (s : String) : String :=
  String.ofList (trim s.toList)

/-- What follows `start` in the text, if the text begins with it. -/
def after? : List Char → List Char → Option (List Char)
  | [], s => some s
  | _ :: _, [] => none
  | a :: start, c :: s => if a = c then after? start s else none

theorem after?_eq_some_iff {start s rest : List Char} :
    after? start s = some rest ↔ s = start ++ rest := by
  induction start generalizing s with
  | nil => simp [after?, eq_comm]
  | cons a start ih =>
    cases s with
    | nil => simp [after?]
    | cons c s =>
      by_cases h : a = c
      · subst h; simp [after?, ih]
      · simp [after?, h, Ne.symm h]

theorem length_of_after? {start s rest : List Char} (h : after? start s = some rest) :
    rest.length + start.length = s.length := by
  rw [after?_eq_some_iff] at h
  subst h
  simp [Nat.add_comm]

/-- Cuts the text at the first place where `mark` stands: what comes before, and what follows it. -/
def cut? (mark : List Char) : List Char → Option (List Char × List Char)
  | [] => if mark = [] then some ([], []) else none
  | c :: s =>
    match after? mark (c :: s) with
    | some rest => some ([], rest)
    | none => (cut? mark s).map fun (before, rest) => (c :: before, rest)

theorem append_of_cut? {mark s before rest : List Char} (h : cut? mark s = some (before, rest)) :
    s = before ++ mark ++ rest := by
  induction s generalizing before with
  | nil =>
    simp only [cut?] at h
    split at h
    · next hm => simp at h; simp [hm, h]
    · simp at h
  | cons c s ih =>
    simp only [cut?] at h
    split at h
    · next r hr =>
      simp only [Option.some.injEq, Prod.mk.injEq] at h
      obtain ⟨rfl, rfl⟩ := h
      simpa using after?_eq_some_iff.1 hr
    · simp only [Option.map_eq_some_iff, Prod.mk.injEq, Prod.exists] at h
      obtain ⟨b, r, hb, rfl, rfl⟩ := h
      simp [ih hb]

theorem length_of_cut? {mark s before rest : List Char} (h : cut? mark s = some (before, rest)) :
    before.length + mark.length + rest.length = s.length := by
  rw [append_of_cut? h]
  simp [Nat.add_assoc]

theorem length_dropWhile_le (p : Char → Bool) (s : List Char) :
    (s.dropWhile p).length ≤ s.length := by
  induction s with
  | nil => simp
  | cons c s ih =>
    rw [List.dropWhile_cons]
    split
    · exact Nat.le_succ_of_le ih
    · exact Nat.le_refl _

/-- The longest run of characters in the class at the start, and the rest. -/
def run (p : Char → Bool) (s : List Char) : List Char × List Char :=
  (s.takeWhile p, s.dropWhile p)

/-- The parts of the text between the occurrences of a character; one part more than there are
occurrences. -/
def split (mark : Char) : List Char → List (List Char)
  | [] => [[]]
  | c :: s =>
    if c = mark then [] :: split mark s
    else match split mark s with
      | [] => [[c]]
      | part :: parts => (c :: part) :: parts

theorem length_split (mark : Char) (s : List Char) :
    (split mark s).length = s.count mark + 1 := by
  induction s with
  | nil => rfl
  | cons c s ih =>
    by_cases h : c = mark
    · simp [split, h, ih]
    · rw [split, if_neg h, List.count_cons_of_ne h]
      split
      · next e => simp [e] at ih
      · next e => simpa [e] using ih

/-- Lower-case letters `a` to `z` turned into upper case; everything else unchanged. -/
def asciiUpper (s : String) : String :=
  s.map Char.toUpper

/-- The text repeated. -/
def replicate (n : Nat) (s : String) : String :=
  String.join (List.replicate n s)

end PartPatch.Text
