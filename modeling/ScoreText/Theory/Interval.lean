import ScoreText.Error
import ScoreText.Number.Numeral
import ScoreText.Text.Classes
import ScoreText.Theory.Note

/-!
Interval patterns such as `1 b3 5`: scale degrees above a root, each lowered by every flat and
raised by every sharp written with it.
-/

set_option autoImplicit false

namespace ScoreText

/-- Scale degrees as written. -/
structure Intervals where
  degrees : List Text
  deriving DecidableEq, Repr

namespace Intervals

/-- Semitones above the root of the plain degrees, from the first to the fifteenth. -/
def degreeSteps : List Nat := [0, 2, 4, 5, 7, 9, 11, 12, 14, 16, 17, 19, 21, 23, 24]

/-- The degree that lies a number of semitones above the root. -/
def degreeOf? (steps : Nat) : Option Nat := (degreeSteps.idxOf? steps).map (· + 1)

def accidental : Char → Int
  | 'b' => -1
  | 'B' => -1
  | '#' => 1
  | _ => 0

/-- What all the accidentals of a written degree add up to. -/
def alteration (degree : Text) : Int := degree.foldl (fun total c => total + accidental c) 0

/-- Semitones above the root of one written degree: its digits name the degree, wherever they
stand. -/
def degreeSteps? (degree : Text) : Option Int := do
  let number ← Numeral.value? 10 (degree.filter Char.isDigit)
  if number = 0 then none
  let base ← degreeSteps[number - 1]?
  some (base + alteration degree)

def stepsOf (degree : Text) : Except Error Int :=
  match degreeSteps? degree with
  | some n => .ok n
  | none => .error (.invalid .interval degree)

/-- Reads a pattern of degrees separated by white space. -/
def ofText (pattern : Text) : Except Error Intervals :=
  let degrees := Text.words pattern
  if degrees.isEmpty then .error (.invalid .intervalPattern pattern)
  else
    match degrees.find? fun d => (degreeSteps? d).isNone with
    | some d => .error (.invalid .interval d)
    | none => .ok ⟨degrees⟩

def text (i : Intervals) : Text := Text.join [' '] i.degrees

/-- Semitones above the root of every degree. -/
def steps (i : Intervals) : List Int := i.degrees.map fun d => (degreeSteps? d).getD 0

/-- The spelling of a distance below an octave: a plain degree, or the flattened next one. -/
def spell (distance : Nat) : Text :=
  match degreeOf? distance with
  | some n => Text.ofNat n
  | none => 'b' :: ((degreeOf? (distance + 1)).map Text.ofNat).getD []

/-- The pitch classes of notes measured from that of the first. -/
def ofNotes {R : Type} : List (Note R) → Intervals
  | [] => ⟨[['1']]⟩
  | root :: rest =>
    ⟨['1'] :: rest.map fun n => spell (((n.position : Int) - root.position) % octaveSize).toNat⟩

def rotate (i : Intervals) (n : Nat) : Intervals :=
  ⟨i.degrees.rotateLeft n⟩

/-- Whether the note's pitch class is one of the degrees above a root. -/
def has {R : Type} (i : Intervals) (root note : Note R) : Bool :=
  i.steps.any fun s => (root.value + s) % octaveSize == (note.position : Int)

end Intervals

end ScoreText
