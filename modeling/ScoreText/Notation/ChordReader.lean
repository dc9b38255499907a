import ScoreText.Notation.Dialect

/-!
Chords from text and from notes. Notes name a chord when, counted from one of their pitch classes,
the distances of the others make a shape in the table.
-/

set_option autoImplicit false

namespace ScoreText

namespace ChordReader

variable {R : Type} [Scalar R]

/-- The chord that a text in any case spells from start to end. -/
def read (dialect : Dialect R) (text : Text) : Except Error (Chord R) := do
  match ← dialect.noteContext.read (Text.upper text) with
  | (.chord c :: _, []) => return c
  | _ => .error (.invalid .chord text)

/-- Notes from the lowest to the highest by a measure, those of equal measure in their order. -/
def sortNotes (measure : Note R → Nat) (notes : List (Note R)) : List (Note R) :=
  notes.mergeSort fun a b => measure a ≤ measure b

/-- The first note of each pitch class. -/
def classes : List (Note R) → List (Note R)
  | [] => []
  | n :: rest => n :: (classes rest).filter fun m => m.position != n.position

/-- Every rotation of a list, starting with the list itself. -/
def rotations {α : Type} (l : List α) : List (List α) :=
  (List.range l.length).map fun n => l.rotateLeft n

/-- The written chord whose shape a rotation has above its first note, over a bass. -/
def named? (table : ChordTable) (narrow : Bool) (bass : Note R) (rotation : List (Note R)) :
    Option Text := do
  let name ← table.nameOf? (Intervals.ofNotes rotation)
  let root ← rotation.head?
  let tone := if narrow then root.text else Tone.name root.value
  some (tone ++ name ++ if root.value = bass.value then [] else '^' :: bass.text)

/-- Notation of the chord that notes form. Where they span more than an octave, the root is written
without one. -/
def textOfNotes? (table : ChordTable) (notes : List (Note R)) : Option Text := do
  let sorted := sortNotes Note.value notes
  let bass ← sorted.head?
  let highest ← sorted.getLast?
  let narrow := highest.value ≤ bass.value + octaveSize
  (rotations (classes (sortNotes Note.position sorted))).findSome? (named? table narrow bass)

def describe (notes : List (Note R)) : Text := Text.join [' '] (notes.map Note.text)

/-- The chord that notes form, the lowest of them its bass. -/
def ofNotes (dialect : Dialect R) (notes : List (Note R)) : Except Error (Chord R) :=
  match textOfNotes? dialect.chords notes with
  | none => .error (.invalid .chordNotes (describe notes))
  | some text => read dialect text

/-- The notes that a word starts with; chords among them are passed over. -/
def notesOfWord (dialect : Dialect R) (word : Text) : Except Error (List (Note R)) := do
  let (elements, _) ← dialect.noteContext.read (Text.upper word)
  return elements.filterMap fun
    | .note n => some n
    | .chord _ => none

/-- The chord that written notes form in the standard dialect. -/
def ofNoteText (text : Text) : Except Error (Chord R) := do
  let notes ← (Text.words text).mapM (notesOfWord Dialect.standard)
  ofNotes .standard notes.flatten

end ChordReader

end ScoreText
