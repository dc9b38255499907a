import ScoreText.Number.Numeral

/-!
Decimal fractions: a literal such as `2.5`, `.75` or `1e-3`, and its exact value as a sign, a whole
number and a power of ten.
-/

set_option autoImplicit false

namespace ScoreText

/-- The number `±mantissa · 10 ^ exponent`. -/
structure Decimal where
  negative : Bool
  mantissa : Nat
  exponent : Int
  deriving DecidableEq, Repr

namespace Decimal

/-- Digits with at most one point among or beside them, and what follows. -/
def unsigned? (s : Text) : Option (Nat × Int × Text) :=
  let (whole, rest) := Numeral.takeDigits s
  match rest with
  | '.' :: r =>
    let (places, rest) := Numeral.takeDigits r
    (Numeral.value? 10 (whole ++ places)).map fun m => (m, -(places.length : Int), rest)
  | _ => (Numeral.value? 10 whole).map fun m => (m, 0, rest)

/-- A signed power of ten after `e`, which takes all of the text. -/
def exponent? : Text → Option Int
  | '-' :: r => if r.all Char.isDigit then (Numeral.value? 10 r).map fun n => -(n : Int) else none
  | s => (Numeral.unsigned? 10 s).map fun n => (n : Int)

/-- A decimal literal with an optional sign and an optional power of ten. -/
def ofText? (s : Text) : Option Decimal := do
  let (negative, body) :=
    match s with
    | '-' :: r => (true, r)
    | '+' :: r => (false, r)
    | r => (false, r)
  let (mantissa, scale, rest) ← unsigned? body
  match rest with
  | [] => some ⟨negative, mantissa, scale⟩
  | c :: r =>
    if c = 'e' ∨ c = 'E' then do
      let power ← exponent? r
      some ⟨negative, mantissa, scale + power⟩
    else none

/-- The number of decimal digits of the mantissa. -/
def width (d : Decimal) : Nat := (Nat.toDigits 10 d.mantissa).length

end Decimal

end ScoreText
