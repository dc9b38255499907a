import ScoreText.Text.Basic

/-!
Decimal text of a binary number. A positive finite number is `mantissa · 2 ^ exponent`; the reals
that round to it form an interval around it. Its shortest text is the point of the coarsest decimal
grid that has a point in that interval, and of two such points the nearer.
-/

set_option autoImplicit false

namespace ScoreText

/-- The number `mantissa · 2 ^ exponent`; `edge` says that the next number below is half as far
away as the next above, as it is at a power of two. -/
structure Binary where
  mantissa : Nat
  exponent : Int
  edge : Bool
  deriving DecidableEq, Repr

namespace Binary

/-- A fraction with a common denominator for the number and the ends of its interval. -/
structure Interval where
  low : Nat
  value : Nat
  high : Nat
  denominator : Nat
  closed : Bool

def interval (b : Binary) : Interval :=
  let up := Nat.pow 2 (b.exponent - 2).toNat
  let down := Nat.pow 2 (2 - b.exponent).toNat
  { low := (4 * b.mantissa - (if b.edge then 1 else 2)) * up
    value := 4 * b.mantissa * up
    high := (4 * b.mantissa + 2) * up
    denominator := down
    closed := b.mantissa % 2 == 0 }

/-- The interval in units of `10 ^ place`. -/
def Interval.inUnits (i : Interval) (place : Int) : Interval :=
  let up := Nat.pow 10 (-place).toNat
  { i with
    low := i.low * up
    value := i.value * up
    high := i.high * up
    denominator := i.denominator * Nat.pow 10 place.toNat }

def Interval.holds (i : Interval) (n : Nat) : Bool :=
  let point := n * i.denominator
  if i.closed then i.low ≤ point && point ≤ i.high else i.low < point && point < i.high

/-- The grid point in the interval that is nearest to the number, the upper of two as near. -/
def Interval.nearest? (i : Interval) : Option Nat :=
  let below := i.value / i.denominator
  let left := i.value % i.denominator
  match 0 < below && i.holds below, i.holds (below + 1) with
  | true, true => some (if 2 * left < i.denominator then below else below + 1)
  | true, false => some below
  | false, true => some (below + 1)
  | false, false => none

/-- Searches the grids from `10 ^ place` downwards. -/
def searchGrids (i : Interval) : Nat → Int → Nat × Int
  | 0, place => ((i.inUnits place).value / (i.inUnits place).denominator, place)
  | fuel + 1, place =>
    match (i.inUnits place).nearest? with
    | some n => (n, place)
    | none => searchGrids i fuel (place - 1)

/-- Digits and power of ten of the shortest decimal that rounds to the number. Every number of
double precision is found within eight hundred grids. -/
def shortest (b : Binary) : Nat × Int :=
  let i := b.interval
  searchGrids i 800 (Nat.toDigits 10 (i.high / i.denominator)).length

/-- The number rounded to `places` decimal places, a half to the even neighbour, in those places. -/
def rounded (places : Nat) (b : Binary) : Nat :=
  let numerator := b.mantissa * Nat.pow 2 b.exponent.toNat * Nat.pow 10 places
  let denominator := Nat.pow 2 (-b.exponent).toNat
  let below := numerator / denominator
  let left := 2 * (numerator % denominator)
  if left < denominator then below
  else if denominator < left then below + 1
  else below + below % 2

end Binary

/-- `digits · 10 ^ place` in positional form, with no point when there is nothing after it. -/
def Text.positional (digits : Nat) (place : Int) : Text :=
  let ds := Text.ofNat digits
  if 0 ≤ place then ds ++ List.replicate place.toNat '0'
  else
    let places := (-place).toNat
    let padded := List.replicate (places + 1 - ds.length) '0' ++ ds
    let whole := padded.length - places
    padded.take whole ++ ['.'] ++ padded.drop whole

/-- The parts of a double's bit pattern: the sign, and the number if it is finite. -/
def Float.parts (x : Float) : Bool × Option Binary :=
  let bits := x.toBits.toNat
  let negative := bits / Nat.pow 2 63 == 1
  let exponent : Nat := bits / Nat.pow 2 52 % 2048
  let fraction := bits % Nat.pow 2 52
  if exponent = 2047 then (negative, none)
  else if exponent = 0 then (negative, some ⟨fraction, -1074, false⟩)
  else
    let mantissa := Nat.pow 2 52 + fraction
    (negative, some ⟨mantissa, (exponent : Int) - 1075, fraction == 0 && 1 < exponent⟩)

/-- The shortest decimal text that reads back as the number, always in positional form. -/
def Float.text (x : Float) : Text :=
  if x.isNaN then "NaN".toList
  else
    let (negative, number) := Float.parts x
    let sign := if negative then ['-'] else []
    match number with
    | none => sign ++ "inf".toList
    | some b =>
      if b.mantissa = 0 then sign ++ ['0']
      else
        let (digits, place) := b.shortest
        sign ++ Text.positional digits place

/-- The number with a fixed count of decimal places. -/
def Float.textFixed (places : Nat) (x : Float) : Text :=
  if x.isNaN then "NaN".toList
  else
    let (negative, number) := Float.parts x
    let sign := if negative then ['-'] else []
    match number with
    | none => sign ++ "inf".toList
    | some b => sign ++ Text.positional (b.rounded places) (-(places : Int))

end ScoreText
