import ScoreText.Text.Basic

/-!
Whole numbers written in digits. Digits are those of ASCII; a plus sign may stand in front of any
number and a minus sign in front of a signed one. A number beyond its limit is refused.
-/

set_option autoImplicit false

namespace ScoreText

namespace Numeral

/-- The largest number of so many bits. -/
def largest (bits : Nat) : Nat := Nat.pow 2 bits - 1

/-- The value of a digit in a base of at most sixteen, in either case. -/
def digit? (base : Nat) (c : Char) : Option Nat :=
  let value :=
    if c.isDigit then c.toNat - '0'.toNat
    else if 'a' ≤ c ∧ c ≤ 'f' then c.toNat - 'a'.toNat + 10
    else if 'A' ≤ c ∧ c ≤ 'F' then c.toNat - 'A'.toNat + 10
    else base
  if value < base then some value else none

/-- The value of `digits` written after a number `acc`. -/
def valueFrom? (base : Nat) : Nat → Text → Option Nat
  | acc, [] => some acc
  | acc, c :: r => (digit? base c).bind fun d => valueFrom? base (acc * base + d) r

/-- The value of a non-empty run of digits. -/
def value? (base : Nat) (s : Text) : Option Nat :=
  if s.isEmpty then none else valueFrom? base 0 s

def unsigned? (base : Nat) : Text → Option Nat
  | '+' :: r => value? base r
  | s => value? base s

/-- A natural number of at most `limit`. -/
def nat? (limit : Nat) (s : Text) : Option Nat := (unsigned? 10 s).filter (· ≤ limit)

/-- A natural number of at most `limit` in hexadecimal digits. -/
def hex? (limit : Nat) (s : Text) : Option Nat := (unsigned? 16 s).filter (· ≤ limit)

/-- A number written in decimal, or in hexadecimal after `0x`. -/
def natOrHex? (limit : Nat) : Text → Option Nat
  | '0' :: 'x' :: r => hex? limit r
  | '0' :: 'X' :: r => hex? limit r
  | s => nat? limit s

/-- A signed number of `bits` bits. -/
def int? (bits : Nat) (s : Text) : Option Int :=
  let value :=
    match s with
    | '-' :: r => (value? 10 r).map fun n => -(n : Int)
    | s => (unsigned? 10 s).map fun n => (n : Int)
  value.filter fun n => -(largest (bits - 1) : Int) - 1 ≤ n ∧ n ≤ largest (bits - 1)

/-- The leading digits of a text, and what follows them. -/
def takeDigits (s : Text) : Text × Text := (s.takeWhile Char.isDigit, s.dropWhile Char.isDigit)

theorem takeDigits_append (s : Text) : (takeDigits s).1 ++ (takeDigits s).2 = s :=
  List.takeWhile_append_dropWhile

end Numeral

end ScoreText
