import ScoreText.Error
import ScoreText.Number.Numeral
import ScoreText.Number.Scalar
import ScoreText.Text.Classes

/-!
Time signatures.
-/

set_option autoImplicit false

namespace ScoreText

/-- So many beats to a measure, each so long a part of a whole note. Both numbers fit a byte. -/
structure Meter where
  beats : Nat
  unit : Nat
  deriving DecidableEq, Repr

namespace Meter

def common : Meter := ⟨4, 4⟩

/-- The meter whose unit is a power of two, or zero when that does not fit a byte. -/
def ofPower (beats power : Nat) : Meter := ⟨beats, if power < 8 then Nat.pow 2 power else 0⟩

/-- How often two divides a byte; eight for zero. -/
def powerOf (n : Nat) : Nat := ((List.range 8).find? fun k => n.testBit k).getD 8

def power (m : Meter) : Nat := powerOf m.unit

/-- A number of eight bits with white space around it. -/
def part? (s : Text) : Option Nat := Numeral.nat? (Numeral.largest 8) (Text.trim s)

/-- Reads `3/4`; the number of beats is not zero and the unit is a power of two. -/
def ofText (text : Text) : Except Error Meter :=
  match Text.cut? '/' text with
  | none => .error (.invalid .timeSignature text)
  | some (beats, unit) =>
    match part? beats, part? unit with
    | some b, some u =>
      if b ≠ 0 ∧ u = Nat.pow 2 (powerOf u) then .ok ⟨b, u⟩
      else .error (.invalid .timeSignature text)
    | _, _ => .error (.invalid .timeSignature text)

def text (m : Meter) : Text := Text.ofNat m.beats ++ ['/'] ++ Text.ofNat m.unit

/-- The length of a measure in whole notes. -/
def measure {R : Type} [Scalar R] (m : Meter) : R := ((m.beats : Nat) : R) / ((m.unit : Nat) : R)

end Meter

end ScoreText
