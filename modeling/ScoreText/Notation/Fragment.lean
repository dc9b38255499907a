import ScoreText.Expansion.Parentheses
import ScoreText.Notation.Control

/-!
Fragments: what stands between spaces. Each family of fragments is told by how it starts; its reader
takes what belongs to it from the front of a text and announces events.
-/

set_option autoImplicit false

namespace ScoreText

/-- The families of fragments, in the order in which they are tried. -/
inductive Family where
  | atom | note | barLine | selection | signature | tempo | beatTime | caption | call
  deriving DecidableEq, Repr

/-- What reading a fragment did: the events announced, what is remembered after it, and what is left
of the text unless it failed. -/
structure Reading (R : Type) where
  events : List (Event R)
  memory : Memory
  result : Except Error Text

namespace Fragment

variable {R : Type} [Scalar R]

/-- The number of tracks, and of layers on each. -/
def trackCount : Nat := 16

def timeWord : Text := ['T', 'I', 'M', 'E', ':']

def keyWord : Text := ['K', 'E', 'Y', ':']

def shortKeyWord : Text := ['K', ':']

/-- The value after a one-letter sign: digits, a name in brackets, or a name to the end. -/
def readValue (symbols : Symbols) (kind : NameKind) (fragment : Text) : Except Error (Int × Text) :=
  let body := fragment.drop 1
  let (digits, rest) := Numeral.takeDigits body
  if !digits.isEmpty then
    match Numeral.nat? NoteContext.maxNumber digits with
    | some n => .ok (n, rest)
    | none => .error (.invalid (.number kind) fragment)
  else
    match body with
    | [] => .error (.malformed (.needsValue kind) fragment)
    | '[' :: r =>
      match Text.cut? ']' r with
      | none => .error (.malformed .unclosedBracket fragment)
      | some (name, rest) => do
        let value ← symbols.require kind name
        return (value, rest)
    | name => do
      let value ← symbols.require kind name
      return (value, [])

/-- A change of voice, layer or instrument. -/
def readSelection? (symbols : Symbols) (fragment : Text) : Option (Except Error (Event R × Text)) :=
  match fragment.head? with
  | some 'V' => some do
    let (value, rest) ← readValue symbols .voice fragment
    let track ← checkRange .voice value 0 (trackCount - 1)
    return (.track track, rest)
  | some 'L' => some do
    let (value, rest) ← readValue symbols .layer fragment
    let layer ← checkRange .layer value 0 (trackCount - 1)
    return (.layer layer, rest)
  | some 'I' => some do
    let (value, rest) ← readValue symbols .instrument fragment
    let program ← checkRange .instrument value 0 maxData
    return (.instrument program, rest)
  | _ => none

def readSelection (symbols : Symbols) (fragment : Text) : Except Error (List (Event R) × Text) := do
  match readSelection? symbols fragment with
  | some reading =>
    let (event, rest) ← reading
    return ([event], rest)
  | none => return ([], fragment)

def elementEvent : Element R → Event R
  | .note n => .note n
  | .chord c => .chord c

def readNotes (ctx : NoteContext R) (fragment : Text) : Except Error (List (Event R) × Text) := do
  let (elements, rest) ← ctx.read fragment
  return (elements.map elementEvent, rest)

def readBarLine (fragment : Text) : Except Error (List (Event R) × Text) :=
  let (digits, rest) := Numeral.takeDigits (fragment.drop 1)
  if digits.isEmpty then .ok ([.barLine 0], rest)
  else
    match Numeral.nat? (Numeral.largest 64) digits with
    | some n => .ok ([.barLine n], rest)
    | none => .error (.invalid .barLine fragment)

def readTempo (symbols : Symbols) (fragment : Text) : Except Error (List (Event R) × Text) := do
  let (value, rest) ← readValue symbols .tempo fragment
  let bpm ← checkRange .tempo value 1 (Numeral.largest 32)
  return ([.tempo bpm], rest)

def readBeatTime (fragment : Text) : Except Error (List (Event R) × Text) :=
  match fragment.drop 1 with
  | '#' :: name =>
    if name.isEmpty then .error (.malformed .bookmarkNeedsName fragment)
    else .ok ([.bookmarkRequest name], [])
  | literal =>
    match Decimal.ofText? literal with
    | none => .error (.invalid .beatTime fragment)
    | some d =>
      let time : R := Scalar.ofDecimal d
      if time < ((0 : Nat) : R) ∨ !Scalar.isFinite time then .error (.invalid .beatTime fragment)
      else .ok ([.timeRequest time], [])

/-- The text of a lyric or marker: without the parentheses around it, and with its spaces back. -/
def captionText (body : Text) : Text :=
  let inner := ((Text.after? ['('] body).bind (Text.before? [')'])).getD body
  Text.replaceChar Parentheses.protectedSpace ' ' inner

/-- A marker also sets a bookmark of its name. -/
def readCaption (fragment : Text) : List (Event R) × Text :=
  let text := captionText (fragment.drop 1)
  if fragment.head? = some '&' then ([.lyric text], []) else ([.marker text, .bookmark text], [])

/-- Name, parameters and rest of a call; the parameters end at the last closing parenthesis. -/
def splitCall (fragment : Text) : Except Error (Text × Text × Text) :=
  let body := fragment.drop 1
  match Text.cut? '(' body with
  | none =>
    if body.isEmpty then .error (.malformed .callNeedsName fragment) else .ok (body, [], [])
  | some (name, tail) =>
    match Text.cutLast? ')' tail with
    | none => .error (.malformed .unclosedParenthesis fragment)
    | some (params, rest) => .ok (name, params, rest)

/-- A call of a control function announces what that does, any other is announced as it is. -/
def readCall (ctx : Context R) (fragment : Text) : Except Error (List (Event R) × Text) := do
  let (name, params, rest) ← splitCall fragment
  let name := Text.upper name
  match ctx.dialect.functions.control? name with
  | some control => do
    let events ← control.events ctx.memory.symbols params
    return (events, rest)
  | none => return ([.call name params], rest)

/-- A key or time signature, which is remembered too. -/
def readSignature (memory : Memory) (fragment : Text) :
    Except Error (List (Event R) × Memory × Text) :=
  match Text.after? timeWord fragment with
  | some body => do
    let meter ← Meter.ofText body
    return ([.timeSignature meter.beats meter.power], { memory with meter := meter }, [])
  | none => do
    let afterWord := (Text.after? keyWord fragment).or (Text.after? shortKeyWord fragment)
    let body := afterWord.getD fragment
    let key ← Key.ofText body
    return ([.keySignature key.fifths key.mode], { memory with key := key }, [])

/-- The changes in an atom up to the first that fails: what they announce, and that failure. -/
def readAtomParts (symbols : Symbols) (fragment : Text) : List Text → List (Event R) × Option Error
  | [] => ([], none)
  | part :: rest =>
    match readSelection? symbols part with
    | none => ([], some (.malformed .badAtomPart fragment))
    | some (.error e) => ([], some e)
    | some (.ok (event, _)) =>
      let (events, failure) := readAtomParts symbols fragment rest
      (event :: events, failure)

/-- Changes of voice, layer and instrument and a note, between commas. -/
def readAtom (ctx : Context R) (fragment : Text) : List (Event R) × Except Error Text :=
  let parts := Text.fields ',' (fragment.drop 1)
  let (changes, failure) := readAtomParts ctx.memory.symbols fragment parts.dropLast
  match failure with
  | some e => (changes, .error e)
  | none =>
    match readNotes ctx.noteContext (parts.getLast?.getD []) with
    | .error e => (changes, .error e)
    | .ok (_, _ :: _) => (changes, .error (.malformed .badAtomNote fragment))
    | .ok (events, []) => (changes ++ events, .ok [])

end Fragment

namespace Family

variable {R : Type} [Scalar R]

def all : List Family :=
  [.atom, .note, .barLine, .selection, .signature, .tempo, .beatTime, .caption, .call]

/-- Whether a text starts like a fragment of the family. -/
def claims : Family → Text → Bool
  | .atom, s => s.head? == some '~'
  | .note, s => s.head?.any startsNote
  | .barLine, s => s.head? == some '|'
  | .selection, s => s.head? == some 'V' || s.head? == some 'L' || s.head? == some 'I'
  | .signature, s =>
    Fragment.timeWord.isPrefixOf s || Fragment.keyWord.isPrefixOf s
      || Fragment.shortKeyWord.isPrefixOf s
  | .tempo, s => s.head? == some 'T'
  | .beatTime, s => s.head? == some '@'
  | .caption, s => s.head? == some '&' || s.head? == some '!'
  | .call, s => s.head? == some ':'

/-- The first family that claims a text. -/
def of? (s : Text) : Option Family := all.find? fun f => f.claims s

/-- A reading that changes nothing it remembers, and announces nothing when it fails. -/
def settled (memory : Memory) : Except Error (List (Event R) × Text) → Reading R
  | .ok (events, rest) => ⟨events, memory, .ok rest⟩
  | .error e => ⟨[], memory, .error e⟩

/-- Reads a fragment of the family from the front of a text. -/
def read (ctx : Context R) (fragment : Text) : Family → Reading R
  | .atom =>
    let (events, result) := Fragment.readAtom ctx fragment
    ⟨events, ctx.memory, result⟩
  | .note => settled ctx.memory (Fragment.readNotes ctx.noteContext fragment)
  | .barLine => settled ctx.memory (Fragment.readBarLine fragment)
  | .selection => settled ctx.memory (Fragment.readSelection ctx.memory.symbols fragment)
  | .signature =>
    match Fragment.readSignature ctx.memory fragment with
    | .ok (events, memory, rest) => ⟨events, memory, .ok rest⟩
    | .error e => ⟨[], ctx.memory, .error e⟩
  | .tempo => settled ctx.memory (Fragment.readTempo ctx.memory.symbols fragment)
  | .beatTime => settled ctx.memory (Fragment.readBeatTime fragment)
  | .caption => settled ctx.memory (.ok (Fragment.readCaption fragment))
  | .call => settled ctx.memory (Fragment.readCall ctx fragment)

end Family

end ScoreText
