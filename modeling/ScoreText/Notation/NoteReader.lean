import ScoreText.Settings
import ScoreText.Symbols.Basic
import ScoreText.Theory.Chord
import ScoreText.Theory.Key

/-!
Reading notes, rests and chords: `C5Q`, `EB4MAJ^^H.A80`, `[BASS_DRUM]I`, `C+E_G`. Notes are joined
by `+`, which lets them sound together, or `_`, which lets one follow the other. Notation is in
upper case here. A reader takes what it can from the front of a text and returns the rest; `text` is
the whole that was to be read, for what an error says.
-/

set_option autoImplicit false

namespace ScoreText

/-- One note or one chord of a fragment. -/
inductive Element (R : Type) where
  | note (n : Note R)
  | chord (c : Chord R)

namespace Element

variable {R : Type}

/-- The note that carries length, velocities and the place in the group. -/
def lead : Element R → Note R
  | .note n => n
  | .chord c => c.root

def mapLead (f : Note R → Note R) : Element R → Element R
  | .note n => .note (f n)
  | .chord c => .chord { c with root := f c.root }

end Element

/-- What decides how a note is read: settings, the key in force, and the tables of names. -/
structure NoteContext (R : Type) where
  settings : NoteSettings R
  key : Key
  symbols : Symbols
  chords : ChordTable

/-- How the bass of a chord is written: so many carets, or a bass note. -/
inductive Inversion (R : Type) where
  | count (n : Nat)
  | bass (n : Note R)

/-- How a note is joined to the one before it. -/
inductive Joint where
  | opening | harmonic | melodic
  deriving DecidableEq, Repr

/-- Whether a fragment that starts with this character can be a note, a rest or a chord. -/
def startsNote (c : Char) : Bool := ('A' ≤ c && c ≤ 'G') || c == 'R' || c == '[' || c.isDigit

namespace NoteContext

variable {R : Type} [Scalar R]

/-- The largest number that digits may spell before their range is looked at. -/
def maxNumber : Nat := Numeral.largest 63

def readNumber (fault : Fault) (quantity : Quantity) (text digits : Text) : Except Error Nat :=
  match Numeral.nat? maxNumber digits with
  | some n => checkRange quantity n 0 maxData
  | none => .error (.malformed fault text)

/-- Semitones added by the accidental written, or by the key where none is. -/
def readAccidental (ctx : NoteContext R) (letter : Char) : Text → Int × Text
  | '#' :: r => (1, r)
  | 'B' :: r => (-1, r)
  | 'N' :: r => (0, r)
  | s => (if ctx.settings.followsKey then ctx.key.accidental letter else 0, s)

/-- An octave from 0 to 10. -/
def readOctave : Text → Option Nat × Text
  | '1' :: '0' :: r => (some 10, r)
  | c :: r => if c.isDigit then (some (c.toNat - '0'.toNat), r) else (none, c :: r)
  | [] => (none, [])

/-- A letter with its accidental and octave. -/
def readLetter (ctx : NoteContext R) (text : Text) : Text → Except Error (Note R × Text)
  | [] => .error (.malformed .expectedNote text)
  | letter :: r =>
    match Tone.ofLetter? letter with
    | none => .error (.malformed .expectedLetter text)
    | some position => do
      let (shift, afterAccidental) := ctx.readAccidental letter r
      let (octave, rest) := readOctave afterAccidental
      let tone := (octave.getD ctx.settings.octave : Int) * octaveSize + position + shift
      let value ← checkRange .note tone 0 maxData
      let written := (letter :: r).take (r.length + 1 - rest.length)
      return ({ (Note.ofValue value : Note R) with
        octaveWritten := octave.isSome, written := some written }, rest)

/-- A number or a name up to the closing bracket. -/
def readBracketed (ctx : NoteContext R) (text s : Text) : Except Error (Note R × Text) :=
  match Text.cut? ']' s with
  | none => .error (.malformed .unclosedBracket text)
  | some (inner, rest) => do
    let value ←
      if !inner.isEmpty && inner.all Char.isDigit then readNumber .badNoteNumber .note text inner
      else do
        let value ← ctx.symbols.require .note inner
        checkRange .note value 0 maxData
    return ({ (Note.ofValue value : Note R) with
      octaveWritten := true
      isPercussion := Symbols.percussionName? value == some inner }, rest)

/-- The tone, or the rest, that a note starts with. -/
def readTone (ctx : NoteContext R) (text : Text) : Text → Except Error (Note R × Text)
  | [] => .error (.malformed .expectedNote text)
  | 'R' :: r => .ok ({ (Note.ofValue 0 : Note R) with isRest := true, written := some ['R'] }, r)
  | '[' :: r => ctx.readBracketed text r
  | c :: r =>
    if c.isDigit then do
      let (digits, rest) := Numeral.takeDigits (c :: r)
      let value ← readNumber .badNoteNumber .note text digits
      return ({ (Note.ofValue value : Note R) with octaveWritten := true }, rest)
    else ctx.readLetter text (c :: r)

/-- Carets, or a caret and a bass note, after `n` carets. -/
def readInversion (ctx : NoteContext R) (text : Text) :
    Nat → Text → Except Error (Inversion R × Text)
  | n, '^' :: r =>
    match r.head?.bind Tone.ofLetter? with
    | some _ => do
      let (bass, rest) ← ctx.readLetter text r
      return (.bass bass, rest)
    | none => ctx.readInversion text (n + 1) r
  | n, s => .ok (.count n, s)

/-- Dots, each of which makes the length half as long again. -/
def readDots : R → Text → R × Text
  | length, '.' :: r => readDots (length * Length.dot) r
  | length, s => (length, s)

/-- Length letters, each with a count and dots, added up onto a sum. -/
def readLengthLetters : Nat → Option R → Text → Option R × Text
  | fuel + 1, sum, c :: r =>
    match Length.ofLetter? c with
    | none => (sum, c :: r)
    | some base =>
      let (digits, afterDigits) := Numeral.takeDigits r
      let counted :=
        match Numeral.value? 10 digits with
        | some n => base * Scalar.scaled n 0
        | none => base
      let (length, rest) := readDots counted afterDigits
      readLengthLetters fuel (some ((sum.getD ((0 : Nat) : R)) + length)) rest
  | _, sum, s => (sum, s)

/-- A length in letters or as a decimal after a slash; none when neither is written. -/
def readLength? (text : Text) : Text → Except Error (Option R × Text)
  | '/' :: r =>
    let literal := r.takeWhile fun c => c.isDigit || c == '.'
    match Decimal.ofText? literal with
    | some d => .ok (some (Scalar.ofDecimal d), r.dropWhile fun c => c.isDigit || c == '.')
    | none => .error (.malformed .badDuration text)
  | s => .ok (readLengthLetters s.length none s)

/-- The ratio of a tuplet after its star, three in the time of two unless written. -/
def readTuplet (text s : Text) : Except Error (R × Text) :=
  let (numerator, rest) := Numeral.takeDigits s
  match Numeral.value? 10 numerator with
  | none => .ok (((2 : Nat) : R) / ((3 : Nat) : R), rest)
  | some n =>
    match rest with
    | ':' :: r =>
      let (denominator, rest) := Numeral.takeDigits r
      match Numeral.value? 10 denominator with
      | none => .error (.malformed .badTuplet text)
      | some m =>
        if n = 0 then .error (.malformed .badTuplet text)
        else .ok ((Scalar.scaled m 0 : R) / Scalar.scaled n 0, rest)
    | _ => .error (.malformed .tupletNeedsRatio text)

/-- A tie mark, which a rest cannot have. -/
def readTie (isRest : Bool) : Text → Bool × Text
  | '-' :: r => if isRest then (false, '-' :: r) else (true, r)
  | s => (false, s)

/-- The ties and the length of a note. -/
def readTiesAndLength (text : Text) (note : Note R) (s : Text) : Except Error (Note R × Text) := do
  let (endsTie, s) := readTie note.isRest s
  let note := { note with endsTie := endsTie }
  let (length?, s) ← readLength? text s
  match length? with
  | none => return (note, s)
  | some length =>
    let (length, s) ←
      match s with
      | '*' :: r => do
        let (ratio, r) ← readTuplet text r
        pure (length * ratio, r)
      | s => pure (length, s)
    let (startsTie, s) := readTie note.isRest s
    return ({ note.withLength length with startsTie := startsTie }, s)

/-- Attack and decay velocities, the last of each kind holding. -/
def readVelocities (text : Text) : Nat → Note R → Text → Except Error (Note R × Text)
  | fuel + 1, note, c :: d :: r =>
    if (c = 'A' ∨ c = 'D') ∧ d.isDigit then do
      let (digits, rest) := Numeral.takeDigits (d :: r)
      let value ← readNumber .badVelocity .velocity text digits
      let note := if c = 'A' then { note with attack := value } else { note with decay := value }
      readVelocities text fuel note rest
    else .ok (note, c :: d :: r)
  | _, note, s => .ok (note, s)

/-- What follows a tone or a chord name. -/
def readSuffix (text : Text) (note : Note R) (s : Text) : Except Error (Note R × Text) := do
  let (note, s) ← readTiesAndLength text note s
  readVelocities text s.length note s

/-- A chord root without an octave stands in the octave for chords. -/
def chordRoot (ctx : NoteContext R) (note : Note R) : Except Error (Note R) :=
  if note.octaveWritten then .ok note
  else do
    let shift := ((ctx.settings.chordOctave : Int) - ctx.settings.octave) * octaveSize
    let value ← checkRange .note (note.value + shift) 0 maxData
    return { note with value := value }

/-- The chord name at the front of a text, which a rest cannot have. -/
def matchChord? (ctx : NoteContext R) (note : Note R) (s : Text) : Option (Text × Intervals) :=
  if note.isRest then none else ctx.chords.matchStart? s

/-- One note, rest or chord. -/
def readElement (ctx : NoteContext R) (text s : Text) : Except Error (Element R × Text) := do
  let (tone, s) ← ctx.readTone text s
  let tone := { tone with attack := ctx.settings.attack, decay := ctx.settings.decay }
  match ctx.matchChord? tone s with
  | none => do
    let (note, s) ← readSuffix text tone s
    return (.note note, s)
  | some (name, intervals) => do
    let root ← ctx.chordRoot tone
    let (inversion, s) ← ctx.readInversion text 0 (s.drop name.length)
    let (root, s) ← readSuffix text root s
    let chord : Chord R := { root := root, intervals := intervals, name := some name }
    return (.chord <|
      match inversion with
      | .count n => chord.withInversion n
      | .bass bass => chord.withBass bass, s)

/-- Marks an element with its place in the group. -/
def join (joint : Joint) (e : Element R) : Element R :=
  e.mapLead fun n =>
    match joint with
    | .opening => { n with isFirst := true }
    | .harmonic => { n with isHarmonic := true }
    | .melodic => { n with isMelodic := true }

/-- The joint at the front of a text, when a note can follow it. -/
def readJoint? : Text → Option (Joint × Text)
  | c :: d :: r =>
    if startsNote d then
      if c = '+' then some (.harmonic, d :: r)
      else if c = '_' then some (.melodic, d :: r)
      else none
    else none
  | _ => none

/-- At most `fuel` joined elements. -/
def readJoined (ctx : NoteContext R) (text : Text) :
    Nat → Joint → Text → Except Error (List (Element R) × Text)
  | 0, _, s => .ok ([], s)
  | fuel + 1, joint, s => do
    let (element, s) ← ctx.readElement text s
    match readJoint? s with
    | none => return ([join joint element], s)
    | some (next, s) => do
      let (more, s) ← ctx.readJoined text fuel next s
      return (join joint element :: more, s)

/-- The joined notes at the front of a text, and the rest of it. Each takes a character at least, so
there are no more of them than characters. -/
def read (ctx : NoteContext R) (text : Text) : Except Error (List (Element R) × Text) :=
  ctx.readJoined text (text.length + 1) .opening text

end NoteContext

end ScoreText
