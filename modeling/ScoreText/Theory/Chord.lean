import ScoreText.Theory.ChordTable

/-!
Chords: a root that carries length, velocities and ties, a shape above it, and an inversion. The
notes of a chord sound together, the bass first.
-/

set_option autoImplicit false

namespace ScoreText

structure Chord (R : Type) where
  root : Note R
  intervals : Intervals
  inversion : Nat := 0
  /-- The name as written; without one, the shape is looked up among the standard ones. -/
  name : Option Text := none

namespace Chord

variable {R : Type} [Scalar R]

def withInversion (c : Chord R) (n : Nat) : Chord R := { c with inversion := n }

/-- The last degree with the pitch class of a tone. -/
def degreeWithClass? (c : Chord R) (value : Nat) : Option Nat :=
  (c.intervals.steps.zipIdx.filter fun (s, _) =>
    (value : Int) % octaveSize == (c.root.value + s) % octaveSize).getLast?.map Prod.snd

/-- The inversion that puts the pitch class of a tone in the bass, if the chord has it. -/
def withBass (c : Chord R) (bass : Note R) : Chord R :=
  { c with inversion := (c.degreeWithClass? bass.value).getD c.inversion }

/-- The degree in the bass, in the octave of the root. -/
def bassNote (c : Chord R) : Note R :=
  let steps := c.intervals.steps
  let step := (steps[min c.inversion (steps.length - 1)]?).getD 0
  let position := ((c.root.value + step) % octaveSize).toNat
  { Note.ofValue (c.root.octave * octaveSize + position) with
    written := some (Tone.name position)
    octaveWritten := c.root.octaveWritten }

/-- The note of a degree above the root, in the root's length, velocities and ties. -/
def noteAbove (root : Note R) (step : Int) : Note R :=
  let value := (max 0 (min (root.value + step) maxData)).toNat
  { (Note.ofValue value : Note R) with
    length := root.length
    lengthWritten := root.lengthWritten
    attack := root.attack
    decay := root.decay
    octaveWritten := root.octaveWritten
    startsTie := root.startsTie
    endsTie := root.endsTie
    written := if root.octaveWritten then none else some (Tone.name value) }

/-- The note an octave up, or as high as there are notes. -/
def raise (n : Note R) : Note R := { n with value := min (n.value + octaveSize) maxData }

/-- The first note takes the chord's place in its group, the others sound with it. -/
def assignRoles (root : Note R) : List (Note R) → List (Note R)
  | [] => []
  | bass :: rest =>
    { bass with
      isFirst := root.isFirst
      isMelodic := root.isMelodic
      isHarmonic := root.isHarmonic }
      :: rest.map fun n => { n with isFirst := false, isMelodic := false, isHarmonic := true }

/-- The notes of the chord, bass first: as many of the lowest as the inversion says go up an octave,
and behind the others. -/
def notes (c : Chord R) : List (Note R) :=
  let upright := c.root :: (c.intervals.steps.drop 1).map (noteAbove c.root)
  let raised := (upright.take c.inversion).map raise ++ upright.drop c.inversion
  assignRoles c.root (raised.rotateLeft c.inversion)

/-- The name as written, or of the shape in the standard table. -/
def type? (c : Chord R) : Option Text := c.name.or (ChordTable.standard.nameOf? c.intervals)

def plainType? (c : Chord R) : Option Text := c.type?.map ChordTable.plainName

def isMajor (c : Chord R) : Bool := c.intervals.text == "1 3 5".toList

def isMinor (c : Chord R) : Bool := c.intervals.text == "1 b3 5".toList

def joinNotes (notes : List (Note R)) : Text := Text.join ['+'] (notes.map Note.text)

/-- All notes in full. -/
def textWithNotes (c : Chord R) : Text := joinNotes c.notes

/-- The notes of other pitch classes than the root's. -/
def textWithoutRoot (c : Chord R) : Text :=
  joinNotes (c.notes.filter fun n => n.position != c.root.position)

/-- The notes of other pitch classes than the bass note's. -/
def textWithoutBass (c : Chord R) : Text :=
  match c.notes with
  | [] => []
  | bass :: rest => joinNotes ((bass :: rest).filter fun n => n.position != bass.position)

/-- The written form: root, name and a caret for each inversion, then what follows a note; a shape
without a name is written as its notes. -/
def text (c : Chord R) : Text :=
  match c.type? with
  | none => c.textWithNotes
  | some name =>
    (if c.root.isPercussion then Tone.percussionText c.root.value else c.root.toneName)
      ++ name ++ List.replicate c.inversion '^' ++ c.root.suffix

/-- Chords are the same when they have the same pitches in the same inversion. -/
instance : BEq (Chord R) where
  beq a b :=
    a.root.value == b.root.value && a.intervals == b.intervals && a.inversion == b.inversion

end Chord

end ScoreText
