import ScoreText.Text.Basic

/-!
Why reading, writing or playing notation can fail, and how each failure is worded.
-/

set_option autoImplicit false

namespace ScoreText

/-- What a name was looked up as. -/
inductive NameKind where
  | voice | layer | instrument | tempo | note | controller | controllerValue | symbol
  deriving DecidableEq, Repr

def NameKind.text : NameKind → String
  | .voice => "voice"
  | .layer => "layer"
  | .instrument => "instrument"
  | .tempo => "tempo"
  | .note => "note"
  | .controller => "controller"
  | .controllerValue => "controller value"
  | .symbol => "symbol"

/-- A number that has to lie in a range. -/
inductive Quantity where
  | note | velocity | voice | layer | instrument | tempo | choice | microtoneNote | trillNote
  | pitchWheel | pitchWheelLow | pitchWheelHigh | controller | controllerValue | pressure | key
  deriving DecidableEq, Repr

def Quantity.text : Quantity → String
  | .note => "note"
  | .velocity => "velocity"
  | .voice => "voice"
  | .layer => "layer"
  | .instrument => "instrument"
  | .tempo => "tempo"
  | .choice => "choice"
  | .microtoneNote => "microtone note"
  | .trillNote => "trill note"
  | .pitchWheel => "pitch wheel"
  | .pitchWheelLow => "pitch wheel lsb"
  | .pitchWheelHigh => "pitch wheel msb"
  | .controller => "controller"
  | .controllerValue => "controller value"
  | .pressure => "pressure"
  | .key => "key"

/-- Something written in a form that cannot be read. -/
inductive Subject where
  | intervalPattern | interval | keySignature | timeSignature | chord | chordNotes | beatTime
  | barLine | number (kind : NameKind) | parameter | choiceIndex | microtoneFrequency
  | brokenChordIndex | trillNote | trillInterval | trillPiece | arpeggiatedChord | sysexByte
  | definition | definitionValue
  deriving DecidableEq, Repr

def Subject.text : Subject → String
  | .intervalPattern => "interval pattern"
  | .interval => "interval"
  | .keySignature => "key signature"
  | .timeSignature => "time signature"
  | .chord => "chord"
  | .chordNotes => "chord notes"
  | .beatTime => "beat time"
  | .barLine => "bar line"
  | .number kind => kind.text
  | .parameter => "function parameter"
  | .choiceIndex => "choice index"
  | .microtoneFrequency => "microtone frequency"
  | .brokenChordIndex => "broken chord index"
  | .trillNote => "trill note"
  | .trillInterval => "trill interval"
  | .trillPiece => "trill piece"
  | .arpeggiatedChord => "arpeggiated chord"
  | .sysexByte => "sysex byte"
  | .definition => "definition"
  | .definitionValue => "definition value"

/-- What is wrong with the form of a fragment whose kind is known. -/
inductive Fault where
  | expectedNote | expectedLetter | badNoteNumber | unclosedBracket | badDuration | badTuplet
  | tupletNeedsRatio | badVelocity | needsValue (kind : NameKind) | badAtomPart | badAtomNote
  | callNeedsName | unclosedParenthesis | bookmarkNeedsName | brokenChordNeedsChord
  | trillNeedsNote | parameterCount (function : String) (count : Nat) | pitchWheelParameters
  | sysexNeedsByte
  deriving DecidableEq, Repr

def Fault.text : Fault → String
  | .expectedNote => "expected a note"
  | .expectedLetter => "expected a note letter"
  | .badNoteNumber => "bad note number"
  | .unclosedBracket => "unclosed '['"
  | .badDuration => "bad duration"
  | .badTuplet => "bad tuplet"
  | .tupletNeedsRatio => "tuplet needs n:m"
  | .badVelocity => "bad velocity"
  | .needsValue kind => kind.text ++ " needs a value"
  | .badAtomPart => "bad atom part"
  | .badAtomNote => "bad atom note"
  | .callNeedsName => "function needs a name"
  | .unclosedParenthesis => "unclosed '('"
  | .bookmarkNeedsName => "bookmark needs a name"
  | .brokenChordNeedsChord => "broken chord needs a chord"
  | .trillNeedsNote => "trill needs a note"
  | .parameterCount function count =>
    function ++ " takes " ++ String.ofList (Text.ofNat count) ++ " parameter(s)"
  | .pitchWheelParameters => "pitch wheel takes 1 or 2 parameters"
  | .sysexNeedsByte => "sysex needs at least one byte"

/-- A setting that would make timing or messages meaningless. -/
inductive SettingFault where
  | resolution | tempo | channelFilter | velocities | octaves
  deriving DecidableEq, Repr

def SettingFault.text : SettingFault → String
  | .resolution => "resolution must be positive"
  | .tempo => "tempo must be positive"
  | .channelFilter => "channel_filter must be 0-15"
  | .velocities => "velocities must be 0-127"
  | .octaves => "octaves must be 0-10"

inductive Error where
  /-- Nothing claims the rest of a fragment; the position counts characters of the text. -/
  | unrecognized (token : Text) (position : Nat)
  | unknownName (kind : NameKind) (name : Text)
  | invalid (subject : Subject) (value : Text)
  | outOfRange (quantity : Quantity) (value low high : Int)
  | malformed (fault : Fault) (text : Text)
  | settings (fault : SettingFault)
  deriving DecidableEq, Repr

def Error.message : Error → Text
  | .unrecognized token position =>
    "No parser was found for the following element: ".toList ++ token
      ++ " (Position ".toList ++ Text.ofNat position ++ [')']
  | .unknownName kind name => "unknown ".toList ++ kind.text.toList ++ " '".toList ++ name ++ ['\'']
  | .invalid subject value =>
    "invalid ".toList ++ subject.text.toList ++ ": '".toList ++ value ++ ['\'']
  | .outOfRange quantity value low high =>
    quantity.text.toList ++ " out of range: ".toList ++ Text.ofInt value ++ " (expected ".toList
      ++ Text.ofInt low ++ "..=".toList ++ Text.ofInt high ++ [')']
  | .malformed fault text => fault.text.toList ++ " in '".toList ++ text ++ ['\'']
  | .settings fault => "configuration error: ".toList ++ fault.text.toList

/-- The number itself when it lies in the range. -/
def checkRange (quantity : Quantity) (value : Int) (low high : Nat) : Except Error Nat :=
  if value < low ∨ high < value then .error (.outOfRange quantity value low high)
  else .ok value.toNat

theorem checkRange_eq_ok_iff (quantity : Quantity) (value : Int) (low high n : Nat) :
    checkRange quantity value low high = .ok n ↔ value = n ∧ low ≤ n ∧ n ≤ high := by
  unfold checkRange
  split <;> simp <;> omega

end ScoreText
