import ScoreText.Error
import ScoreText.Text.Classes
import ScoreText.Text.Upper

/-!
Keys as places on the circle of fifths: so many sharps, or so many flats, in major or minor.
-/

set_option autoImplicit false

namespace ScoreText

inductive Mode where
  | major | minor
  deriving DecidableEq, Repr

namespace Mode

/-- The number that stands for the mode in a key signature event. -/
def flag : Mode → Nat
  | .major => 0
  | .minor => 1

def ofFlag (n : Nat) : Mode := if n = 1 then .minor else .major

theorem ofFlag_flag (m : Mode) : ofFlag m.flag = m := by cases m <;> rfl

def suffix : Mode → Text
  | .major => ['M', 'A', 'J']
  | .minor => ['M', 'I', 'N']

/-- The tonics with no sharps up to seven. -/
def sharpTonics : Mode → List Text
  | .major => List.map String.toList ["C", "G", "D", "A", "E", "B", "F#", "C#"]
  | .minor => List.map String.toList ["A", "E", "B", "F#", "C#", "G#", "D#", "A#"]

/-- The tonics with no flats up to seven. -/
def flatTonics : Mode → List Text
  | .major => List.map String.toList ["C", "F", "BB", "EB", "AB", "DB", "GB", "CB"]
  | .minor => List.map String.toList ["A", "D", "G", "C", "F", "BB", "EB", "AB"]

end Mode

/-- A key: its sharps, or minus its flats, and its mode. -/
structure Key where
  fifths : Int
  mode : Mode
  within : -7 ≤ fifths ∧ fifths ≤ 7
  deriving DecidableEq, Repr

namespace Key

def cMajor : Key := ⟨0, .major, by decide⟩

/-- The key with this signature, or the nearest signature there is. -/
def ofSignature (fifths : Int) (mode : Mode) : Key :=
  ⟨max (-7) (min fifths 7), mode, by omega⟩

theorem ofSignature_fifths (k : Key) : ofSignature k.fifths k.mode = k := by
  obtain ⟨f, m, h⟩ := k
  simp only [ofSignature, mk.injEq, and_true]
  omega

/-- Letters in the order in which sharps are added; flats are added in the reverse order. -/
def sharpOrder : Text := ['F', 'C', 'G', 'D', 'A', 'E', 'B']

/-- The tonic as written and the mode: the mode is named at the end or is major. -/
def splitMode (s : Text) : Text × Mode :=
  match Text.before? Mode.major.suffix s with
  | some tonic => (tonic, .major)
  | none =>
    match Text.before? Mode.minor.suffix s with
    | some tonic => (tonic, .minor)
    | none => (s, .major)

/-- Reads a key such as `GMAJ` or `F#MIN` in any case; a tonic alone is major. -/
def ofText (text : Text) : Except Error Key :=
  let (tonic, mode) := splitMode (Text.upper (Text.trim text))
  match mode.sharpTonics.idxOf? tonic with
  | some n => .ok (ofSignature n mode)
  | none =>
    match mode.flatTonics.idxOf? tonic with
    | some n => .ok (ofSignature (-n) mode)
    | none => .error (.invalid .keySignature text)

/-- Semitones from C to the tonic. -/
def tonicPosition (k : Key) : Nat :=
  match k.mode with
  | .major => (k.fifths * 7 % 12).toNat
  | .minor => ((k.fifths * 7 - 3) % 12).toNat

/-- What the signature adds to a letter, in semitones. -/
def accidental (k : Key) (letter : Char) : Int :=
  if letter.toUpper ∈ sharpOrder.take k.fifths.toNat then 1
  else if letter.toUpper ∈ sharpOrder.reverse.take (-k.fifths).toNat then -1
  else 0

def tonicName (k : Key) : Text :=
  let tonics := if 0 ≤ k.fifths then k.mode.sharpTonics else k.mode.flatTonics
  (tonics[k.fifths.natAbs]?).getD []

def text (k : Key) : Text := k.tonicName ++ k.mode.suffix

end Key

end ScoreText
