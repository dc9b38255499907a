import ScoreText.Number.Scalar

/-!
Times in whole notes, ticks and milliseconds. A quarter note is a beat: it has `resolution` ticks,
and a tempo of so many beats a minute gives it its milliseconds.
-/

set_option autoImplicit false

namespace ScoreText

namespace Tick

variable {R : Type} [Scalar R]

/-- The tick that a time in whole notes falls on. -/
def ofBeats (beats : R) (resolution : Nat) : Nat :=
  Scalar.toNat (Scalar.max ((resolution : R) * beats * ((4 : Nat) : R)) ((0 : Nat) : R))

/-- A tick as a time in whole notes. -/
def toBeats (tick resolution : Nat) : R := (tick : R) / ((resolution : R) * ((4 : Nat) : R))

end Tick

namespace Tempo

variable {R : Type} [Scalar R]

def millisOfBeats (beats : R) (bpm : Nat) : R :=
  beats * ((4 : Nat) : R) * ((60000 : Nat) : R) / ((max bpm 1 : Nat) : R)

def beatsOfMillis (millis : R) (bpm : Nat) : R :=
  millis * ((max bpm 1 : Nat) : R) / (((4 : Nat) : R) * ((60000 : Nat) : R))

/-- The millisecond nearest to a time, none before zero. -/
def millisecond (millis : R) : Nat := Scalar.round (Scalar.max millis ((0 : Nat) : R))

/-- Microseconds in a quarter note, which is what a tempo message carries. -/
def quarterMicros (bpm : Nat) : Nat := 60000000 / max bpm 1

/-- The tempo nearest to one of so many microseconds in a quarter note. -/
def ofQuarterMicros (micros : Nat) : Nat := (2 * 60000000 + max micros 1) / (2 * max micros 1)

end Tempo

end ScoreText
