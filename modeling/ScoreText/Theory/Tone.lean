import ScoreText.Number.Shortest
import ScoreText.Symbols.Names

/-!
Tones are whole numbers, semitones above the lowest C; twelve of them make an octave.
-/

set_option autoImplicit false

namespace ScoreText

/-- Semitones in an octave. -/
def octaveSize : Nat := 12

/-- The highest tone and the largest velocity, pressure or controller value. -/
def maxData : Nat := 127

/-- The largest number in fourteen bits, which is what a pitch wheel holds. -/
def maxWheel : Nat := 16383

namespace Tone

/-- The names that notation is written back with. -/
def commonNames : List Text :=
  List.map String.toList ["C", "C#", "D", "Eb", "E", "F", "F#", "G", "G#", "A", "Bb", "B"]

def sharpNames : List Text :=
  List.map String.toList ["C", "C#", "D", "D#", "E", "F", "F#", "G", "G#", "A", "A#", "B"]

def flatNames : List Text :=
  List.map String.toList ["C", "Db", "D", "Eb", "E", "F", "Gb", "G", "Ab", "A", "Bb", "B"]

def octave (value : Nat) : Nat := value / octaveSize

/-- Semitones above the C of its octave. -/
def position (value : Nat) : Nat := value % octaveSize

def nameIn (names : List Text) (value : Nat) : Text := (names[position value]?).getD []

/-- The name of a tone in any octave. -/
def name (value : Nat) : Text := nameIn commonNames value

/-- The name and octave of a tone: 60 is `C5`. -/
def text (value : Nat) : Text := name value ++ Text.ofNat (octave value)

/-- The name in brackets of a percussion note, the name and octave of any other. -/
def percussionText (value : Nat) : Text :=
  match Symbols.percussionName? value with
  | some n => ['['] ++ n ++ [']']
  | none => text value

/-- Semitones from C to a natural note letter. -/
def ofLetter? : Char → Option Nat
  | 'C' => some 0
  | 'D' => some 2
  | 'E' => some 4
  | 'F' => some 5
  | 'G' => some 7
  | 'A' => some 9
  | 'B' => some 11
  | _ => none

theorem ofLetter?_lt (c : Char) (n : Nat) (h : ofLetter? c = some n) : n < octaveSize := by
  unfold ofLetter? at h
  split at h <;> simp_all [octaveSize] <;> omega

/-- The frequency of the lowest tone in hertz. -/
def lowestHertz : Float := 8.1757989156

/-- The frequency in hertz of a tone. -/
def hertz (value : Nat) : Float := lowestHertz * Float.pow 2 (Float.ofNat value / 12)

end Tone

end ScoreText
