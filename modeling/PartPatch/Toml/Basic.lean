/-!
# TOML values

The keys of a table stand in the order in which they were first written.
-/

namespace PartPatch.Toml

set_option autoImplicit false

structure Date where
  year : Nat
  month : Nat
  day : Nat
deriving DecidableEq, Repr

/-- A time of day. Seconds that are left out are zero, and the fraction of a second is kept in
nanoseconds. -/
structure Time where
  hour : Nat
  minute : Nat
  second : Nat
  nanosecond : Nat
deriving DecidableEq, Repr

/-- The distance of a local time from universal time. -/
inductive Offset where
  | universal
  | minutes (behind : Bool) (amount : Nat)
deriving DecidableEq, Repr

structure Datetime where
  date : Option Date
  time : Option Time
  offset : Option Offset
deriving DecidableEq, Repr

inductive Value where
  | string (s : String)
  | integer (n : Int)
  | float (x : Float)
  | boolean (b : Bool)
  | datetime (d : Datetime)
  | array (items : List Value)
  | table (entries : List (String × Value))

/-- The number with leading zeros, at least `width` digits long. -/
def padded (width n : Nat) : String :=
  let digits := toString n
  String.ofList (List.replicate (width - digits.length) '0') ++ digits

def Date.text (d : Date) : String :=
  padded 4 d.year ++ "-" ++ padded 2 d.month ++ "-" ++ padded 2 d.day

/-- The fraction of a second without trailing zeros; nothing for a whole second. -/
def fractionText (nanosecond : Nat) : String :=
  match ((padded 9 nanosecond).toList.reverse.dropWhile (· == '0')).reverse with
  | [] => ""
  | digits => "." ++ String.ofList digits

def Time.text (t : Time) : String :=
  padded 2 t.hour ++ ":" ++ padded 2 t.minute ++ ":" ++ padded 2 t.second ++
    fractionText t.nanosecond

def Offset.text : Offset → String
  | .universal => "Z"
  | .minutes behind amount =>
    (if behind ∧ amount ≠ 0 then "-" else "+") ++ padded 2 (amount / 60) ++ ":" ++
      padded 2 (amount % 60)

def Datetime.text (d : Datetime) : String :=
  (match d.date with
    | some date => date.text
    | none => "") ++
    (match d.time with
      | some time => (if d.date.isSome then "T" else "") ++ time.text
      | none => "") ++
    (match d.offset with
      | some offset => offset.text
      | none => "")

end PartPatch.Toml
