import ScoreText.Number.Decimal
import ScoreText.Number.Shortest

/-!
The numbers in which lengths, positions and proportions are measured. A performance runs on doubles;
exact fractions obey the laws that rounding breaks, so what is said of time in general is said of
any `Scalar`.
-/

set_option autoImplicit false

namespace ScoreText

class Scalar (R : Type) extends Add R, Sub R, Mul R, Div R, Neg R, NatCast R, LT R, LE R,
    BEq R where
  decLT : DecidableLT R
  decLE : DecidableLE R
  /-- The number nearest to `mantissa · 10 ^ exponent`. -/
  scaled : Nat → Int → R
  isFinite : R → Bool
  /-- Has no fraction. -/
  isWhole : R → Bool
  /-- Whole part, nothing below zero. -/
  toNat : R → Nat
  /-- Nearest whole number, a half going up, nothing below zero. -/
  round : R → Nat
  text : R → Text

instance Scalar.decidableLT {R : Type} [Scalar R] : DecidableLT R := Scalar.decLT

instance Scalar.decidableLE {R : Type} [Scalar R] : DecidableLE R := Scalar.decLE

namespace Scalar

variable {R : Type} [Scalar R]

def ofDecimal (d : Decimal) : R :=
  let size : R := Scalar.scaled d.mantissa d.exponent
  if d.negative then -size else size

/-- The larger of two numbers; one that does not equal itself gives way to the other. -/
def max (a b : R) : R := if a < b then b else if a == a then a else b

/-- The number kept between zero and one. -/
def clampUnit (a : R) : R :=
  if a < ((0 : Nat) : R) then ((0 : Nat) : R)
  else if ((1 : Nat) : R) < a then ((1 : Nat) : R)
  else a

end Scalar

/-- Whole part of a double: nothing for what is not a number, and at most what 64 bits hold. -/
def Float.whole (x : Float) : Nat := x.toUInt64.toNat

def Float.scaled (mantissa : Nat) (exponent : Int) : Float :=
  let width : Int := (Nat.toDigits 10 mantissa).length
  if mantissa = 0 then 0
  else if 310 < width + exponent then 1 / 0
  else if width + exponent < -330 then 0
  else Float.ofScientific mantissa (exponent < 0) exponent.natAbs

instance : Scalar Float where
  natCast := Float.ofNat
  decLT := inferInstance
  decLE := inferInstance
  scaled := Float.scaled
  isFinite x := x.isFinite
  isWhole x := x.floor == x && x.isFinite
  toNat := Float.whole
  round x := Float.whole x.round
  text := Float.text

/-- Decimal expansion, exact when it ends; one that does not is cut where every expansion with the
same denominator that ends would have ended. -/
def Rat.text (q : Rat) : Text :=
  let places := Nat.log2 q.den
  let scaled := q.num.natAbs * Nat.pow 10 places / q.den
  let body := Text.positional scaled (-(places : Int))
  let kept :=
    if places = 0 then Text.ofNat scaled
    else ((body.reverse.dropWhile (· = '0')).dropWhile (· = '.')).reverse
  if q < 0 then '-' :: kept else kept

instance : Scalar Rat where
  natCast n := (n : Rat)
  decLT := inferInstance
  decLE := inferInstance
  scaled m e := ((m * Nat.pow 10 e.toNat : Nat) : Rat) / ((Nat.pow 10 (-e).toNat : Nat) : Rat)
  isFinite _ := true
  isWhole q := q.den == 1
  toNat q := q.floor.toNat
  round q := (q + 1 / 2).floor.toNat
  text := Rat.text

end ScoreText
