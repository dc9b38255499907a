import ScoreText.Error
import ScoreText.Number.Scalar
import ScoreText.Text.Classes
import ScoreText.Text.Scan
import ScoreText.Theory.Tone

/-!
Microtones: `M` and a frequency in hertz become the nearest note with the pitch wheel bent towards
the frequency before it and centred after it.
-/

set_option autoImplicit false

namespace ScoreText

namespace Microtone

/-- The pitch wheel at rest. -/
def wheelCentre : Nat := 8192

/-- The note nearest to a frequency, and the wheel value that reaches the frequency from it. -/
def noteAndBend (hertz : Float) : Except Error (Nat × Nat) :=
  if 0 < hertz then do
    let exact := 12 * Float.log2 (hertz / Tone.lowestHertz)
    let note ← checkRange .microtoneNote exact.round.toInt64.toInt 0 maxData
    let bend := Float.round (Float.ofNat wheelCentre + (exact - Float.ofNat note) * 8192)
    return (note, (max 0 (min bend.toInt64.toInt maxWheel)).toNat)
  else .error (.invalid .microtoneFrequency (ScoreText.Float.text hertz))

/-- A microtone as written: the space before it, the frequency, and what follows. -/
structure Written where
  lead : Text
  frequency : Text
  suffix : Text

/-- Digits of any script, and more after a point. -/
def takeFrequency (s : Text) : Text × Text :=
  let whole := s.takeWhile Text.isAnyDigit
  match s.dropWhile Text.isAnyDigit with
  | '.' :: r =>
    let places := r.takeWhile Text.isAnyDigit
    if places.isEmpty then (whole, '.' :: r)
    else (whole ++ '.' :: places, r.dropWhile Text.isAnyDigit)
  | rest => (whole, rest)

/-- A microtone at the front of a text, which starts the text or follows a plain space. -/
def find (behind here : Text) : Option (Text.Match Written) :=
  let start? : Option (Text × Text) :=
    match here with
    | 'M' :: r => if behind.isEmpty then some ([], r) else none
    | ' ' :: 'M' :: r => some ([' '], r)
    | _ => none
  start?.bind fun (lead, r) =>
    let (frequency, rest) := takeFrequency r
    if frequency.isEmpty then none
    else
      let suffix := rest.takeWhile fun c => !Text.isBlank c
      some ⟨⟨lead, frequency, suffix⟩, lead.length + 1 + frequency.length + suffix.length⟩

def wheelCall (value : Nat) : Text := ":PITCHWHEEL(".toList ++ Text.ofNat value ++ [')']

/-- The bend, the note and the wheel's return. -/
def render (w : Written) : Except Error Text :=
  match Decimal.ofText? w.frequency with
  | none => .error (.invalid .microtoneFrequency w.frequency)
  | some d => do
    let (note, bend) ← noteAndBend (Scalar.ofDecimal d)
    return w.lead ++ wheelCall bend ++ " [".toList ++ Text.ofNat note ++ [']'] ++ w.suffix ++ [' ']
      ++ wheelCall wheelCentre

def apply (text : Text) : Except Error Text := Text.renderPiecesOr render (Text.pieces find text)

end Microtone

end ScoreText
