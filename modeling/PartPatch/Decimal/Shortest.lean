/-!
# Shortest decimals

A finite binary64 number is `m · 2 ^ q`. The reals that round to it form an interval, whose ends
belong to it exactly if `m` is even. Its shortest decimal is a point of that interval on the
coarsest decimal grid that has one; of two such points the nearer is taken. If a grid has a point in
the interval, then one of the number's two neighbours on that grid is in it, so only these are
tried.
-/

namespace PartPatch.Decimal

set_option autoImplicit false

/-- The decimal `digits · 10 ^ exponent`. -/
structure Scientific where
  digits : Nat
  exponent : Int
deriving DecidableEq, Repr

/-- The interval of reals that round to a positive number: the number and its ends, all in units
of `2 ^ scale`. -/
structure Rounding where
  low : Nat
  value : Nat
  high : Nat
  scale : Int
  closed : Bool
deriving DecidableEq, Repr

/-- The rounding interval of the positive finite number with these stored exponent and fraction
fields. -/
def Rounding.ofFields (exponent fraction : Nat) : Rounding :=
  let m := if exponent = 0 then fraction else Nat.pow 2 52 + fraction
  let q : Int := if exponent = 0 then -1074 else (exponent : Int) - 1075
  -- Below a power of two the neighbours are twice as close.
  let below := if fraction = 0 ∧ 1 < exponent then 1 else 2
  ⟨4 * m - below, 4 * m, 4 * m + 2, q - 2, m % 2 == 0⟩

/-- `n · 2 ^ scale` compared with `d · 10 ^ e`. -/
def compareScaled (n : Nat) (scale : Int) (d : Nat) (e : Int) : Ordering :=
  compare (n * Nat.pow 2 scale.toNat * Nat.pow 10 (-e).toNat)
    (d * Nat.pow 10 e.toNat * Nat.pow 2 (-scale).toNat)

def Rounding.contains (r : Rounding) (d : Nat) (e : Int) : Bool :=
  let low := compareScaled r.low r.scale d e
  let high := compareScaled r.high r.scale d e
  (low == .lt || (r.closed && low == .eq)) && (high == .gt || (r.closed && high == .eq))

/-- The largest grid point `d · 10 ^ e` not above the number. -/
def Rounding.floorOn (r : Rounding) (e : Int) : Nat :=
  (r.value * Nat.pow 2 r.scale.toNat * Nat.pow 10 (-e).toNat) /
    (Nat.pow 10 e.toNat * Nat.pow 2 (-r.scale).toNat)

/-- Whether the number is nearer to `d · 10 ^ e` than to the next grid point; a number half way
between them goes to the even one. -/
def Rounding.nearerBelow (r : Rounding) (d : Nat) (e : Int) : Bool :=
  match compareScaled (2 * r.value) r.scale (2 * d + 1) e with
  | .lt => true
  | .eq => d % 2 == 0
  | .gt => false

/-- The point of the grid `10 ^ e` that stands for the number, if the grid has one. -/
def Rounding.pointOn? (r : Rounding) (e : Int) : Option Scientific :=
  let d := r.floorOn e
  match r.contains d e, r.contains (d + 1) e with
  | true, true => some ⟨if r.nearerBelow d e then d else d + 1, e⟩
  | true, false => some ⟨d, e⟩
  | false, true => some ⟨d + 1, e⟩
  | false, false => none

/-- Tries `n` grids, each ten times finer than the one before, starting at `10 ^ e`. -/
def Rounding.firstPoint? (r : Rounding) : Nat → Int → Option Scientific
  | 0, _ => none
  | n + 1, e => r.pointOn? e <|> r.firstPoint? n (e - 1)

/-- The same decimal without trailing zeros among its digits. -/
def Scientific.strip (x : Scientific) : Nat → Scientific
  | 0 => x
  | n + 1 =>
    if x.digits ≠ 0 ∧ x.digits % 10 = 0 then
      Scientific.strip ⟨x.digits / 10, x.exponent + 1⟩ n
    else x

/-- The shortest decimal that rounds to the positive number with these fields. Every binary64
number is below `10 ^ 309` and has such a decimal of at most 17 digits. -/
def shortest (exponent fraction : Nat) : Scientific :=
  let r := Rounding.ofFields exponent fraction
  -- The first grid is coarser than any number's first digit; the last is finer than all need.
  match r.firstPoint? 650 309 with
  | some x => x.strip 20
  | none => ⟨0, 0⟩

/-- An exponent with its sign, which is never left out. -/
def exponentText (e : Int) : String :=
  if 0 ≤ e then "+" ++ toString e else toString e

/-- Positional text for magnitudes from `10 ^ -5` to below `10 ^ 16`, always with a point; else one
digit, a point and the others if there are others, and the exponent after `e`. -/
def Scientific.text (x : Scientific) : String :=
  let digits := (toString x.digits).toList
  let count : Int := digits.length
  let point : Int := count + x.exponent
  if 0 ≤ x.exponent ∧ point ≤ 16 then
    String.ofList (digits ++ List.replicate x.exponent.toNat '0' ++ ['.', '0'])
  else if 0 < point ∧ point ≤ 16 then
    String.ofList (digits.take point.toNat ++ '.' :: digits.drop point.toNat)
  else if -5 < point ∧ point ≤ 0 then
    String.ofList ('0' :: '.' :: List.replicate (-point).toNat '0' ++ digits)
  else
    let mantissa := match digits with
      | [] => []
      | [d] => [d]
      | d :: ds => d :: '.' :: ds
    String.ofList mantissa ++ "e" ++ exponentText (point - 1)

/-- The text of a finite number: its sign and the shortest decimal that reads back as it. -/
def text (x : Float) : String :=
  let bits := x.toBits.toNat
  let sign := if Nat.pow 2 63 ≤ bits then "-" else ""
  let exponent := bits / Nat.pow 2 52 % Nat.pow 2 11
  let fraction := bits % Nat.pow 2 52
  if exponent = 0 ∧ fraction = 0 then sign ++ "0.0"
  else sign ++ (shortest exponent fraction).text

end PartPatch.Decimal
