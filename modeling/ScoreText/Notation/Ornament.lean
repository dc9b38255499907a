import ScoreText.Notation.Dialect
import ScoreText.Notation.Control

/-!
Ornaments: a trill, an arpeggio or a broken chord written out as plain notes that together last as
long as what they stand for.
-/

set_option autoImplicit false

namespace ScoreText

namespace Ornament

variable {R : Type} [Scalar R]

/-- The length of a note, or the usual one when none was written. -/
def lengthOf (ctx : NoteContext R) (n : Note R) : R :=
  if n.lengthWritten then n.length else ctx.settings.length

/-- A note written as its number with a length and velocities. -/
def piece (value : Nat) (suffix : Text) : Text := ['['] ++ Text.ofNat value ++ [']'] ++ suffix

def pieceSuffix (length : R) (n : Note R) : Text :=
  Text.upper (Length.text length ++ n.velocityText)

/-- The note that a whole text spells. -/
def trillNote (ctx : NoteContext R) (text : Text) : Except Error (Note R) := do
  match ← ctx.read text with
  | ([.note n], []) => if n.isRest then .error (.invalid .trillNote text) else return n
  | _ => .error (.invalid .trillNote text)

/-- Semitones from the note to the one above it, two unless written. -/
def trillInterval : Option Text → Except Error Int
  | none => .ok 2
  | some text =>
    match Params.number? text with
    | some n => .ok n
    | none => .error (.invalid .trillInterval text)

/-- The length of one piece by its letter, a thirty-second note unless written. -/
def trillPiece (params : Text) : Option Text → Except Error R
  | none => .ok (Length.halved 5)
  | some text =>
    match Text.upper text with
    | [letter] =>
      if 128 ≤ letter.toNat then .error (.invalid .trillPiece text)
      else
        match Length.ofLetter? letter with
        | some length => .ok length
        | none => .error (.invalid .trillPiece params)
    | _ => .error (.invalid .trillPiece text)

/-- The note and the one above it by turns, until the note's length is filled. -/
def writeTrill (ctx : NoteContext R) (params : Text) : Except Error Text :=
  match Params.split params with
  | [] => .error (.malformed .trillNeedsNote params)
  | note :: options => do
    let n ← trillNote ctx (Text.upper note)
    let interval ← trillInterval options[0]?
    let length ← trillPiece params options[1]?
    let upper ← checkRange .trillNote (n.value + interval) 0 maxData
    let count := max 1 (Scalar.round (lengthOf ctx n / length))
    let suffix := pieceSuffix length n
    return Text.join [' '] ((List.range count).map fun i =>
      piece (if i % 2 = 0 then n.value else upper) suffix)

/-- The chord that a whole text spells, if it spells one chord. -/
def wholeChord? (ctx : NoteContext R) (text : Text) : Except Error (Option (Chord R)) := do
  match ← ctx.read text with
  | ([.chord c], []) => return some c
  | _ => return none

/-- The notes of a chord one after another. -/
def writeArpeggio (ctx : NoteContext R) (params : Text) : Except Error Text := do
  let text := Text.upper (Text.trim params)
  match ← wholeChord? ctx text with
  | none => .error (.invalid .arpeggiatedChord text)
  | some c =>
    let notes := c.notes
    let each := lengthOf ctx c.root / ((notes.length : Nat) : R)
    let suffix := pieceSuffix each c.root
    return Text.join ['_'] (notes.map fun n => piece n.value suffix)

/-- The note of a chord that an index names, counted from the bass. -/
def indexed (notes : List (Note R)) (index : Text) : Except Error (Note R) :=
  match (Numeral.nat? (Numeral.largest 64) index).bind fun i => notes[i]? with
  | some n => .ok n
  | none => .error (.invalid .brokenChordIndex index)

/-- Notes of a chord in the order of a list of indexes, one after another. -/
def writeBroken (ctx : NoteContext R) (chord indexes : Text) : Except Error Text := do
  match ← wholeChord? ctx chord with
  | none => .error (.malformed .brokenChordNeedsChord chord)
  | some c =>
    let played ← (Text.fields ',' indexes).mapM (indexed c.notes)
    let each := lengthOf ctx c.root / ((played.length : Nat) : R)
    let suffix := pieceSuffix each c.root
    return Text.join [' '] (played.map fun n => piece n.value suffix)

/-- The notation that a call stands for. -/
def expand (ornament : Ornament) (ctx : NoteContext R) (params : Text) : Except Error Text :=
  match ornament with
  | .trill => writeTrill ctx params
  | .arpeggio => writeArpeggio ctx params

end Ornament

end ScoreText
