import ScoreText.Live.Machine
import ScoreText.Theory.Tone

/-!
Ramps: values that run evenly from one data value to another, told only when they change.
-/

set_option autoImplicit false

namespace ScoreText

structure Ramp where
  start : Nat
  goal : Nat
  /-- The value told last. -/
  last : Option Nat := none
  deriving DecidableEq, Repr

namespace Ramp

/-- A ramp between two values, or as far as data values go. -/
def between (start goal : Nat) : Ramp := { start := min start maxData, goal := min goal maxData }

/-- Tells a value unless it was the last one told. -/
def tell (r : Ramp) (value : Nat) : Ramp × Option Nat :=
  if r.last = some value then (r, none) else ({ r with last := some value }, some value)

variable {R : Type} [Scalar R]

/-- The value at a part of the way. -/
def valueAt (r : Ramp) (portion : R) : Nat :=
  Scalar.round ((r.start : R) + ((r.goal : R) - (r.start : R)) * Scalar.clampUnit portion)

def begin (r : Ramp) : Ramp × Option Nat := r.tell r.start

def update (r : Ramp) (portion : R) : Ramp × Option Nat := r.tell (r.valueAt portion)

/-- What is told along parts of the way, one after another. -/
def updates (r : Ramp) : List R → List Nat
  | [] => []
  | portion :: rest =>
    let (r, told) := r.update portion
    told.toList ++ r.updates rest

/-- The ramp as a glide. -/
def call (R : Type) [Scalar R] (r : Ramp) : Call → Ramp × Option Nat
  | .start => r.begin
  | .update elapsed duration => r.update (Call.portion elapsed duration : R)
  | .finish => (r, none)

end Ramp

end ScoreText
