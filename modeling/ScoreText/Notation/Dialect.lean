import ScoreText.Notation.NoteReader
import ScoreText.Theory.Meter

/-!
What a parser is built with, and what it remembers from one text to the next.
-/

set_option autoImplicit false

namespace ScoreText

/-- The functions that announce control messages. -/
inductive Control where
  | pitchWheel | controller | channelPressure | polyPressure | systemExclusive
  deriving DecidableEq, Repr

def Control.names : Control → List Text
  | .pitchWheel => List.map String.toList ["PW", "PITCHWHEEL", "PB", "PITCHBEND"]
  | .controller => List.map String.toList ["CE", "CON", "CONTROLLER", "CONTROLLEREVENT"]
  | .channelPressure => List.map String.toList ["CP", "CHANNELPRESSURE"]
  | .polyPressure => List.map String.toList ["PP", "POLYPRESSURE"]
  | .systemExclusive => List.map String.toList ["SYSEX", "SX"]

/-- The functions that stand for other notation. -/
inductive Ornament where
  | trill | arpeggio
  deriving DecidableEq, Repr

def Ornament.names : Ornament → List Text
  | .trill => List.map String.toList ["TRILL", "TR"]
  | .arpeggio => List.map String.toList ["ARPEGGIATED", "ARP"]

/-- The functions a notation may call, by their names in upper case. -/
structure Functions where
  controls : Table Control
  ornaments : Table Ornament

namespace Functions

def nameAll {F : Type} (names : F → List Text) (functions : List F) : Table F :=
  Table.ofList (functions.flatMap fun f => (names f).map fun name => (name, f))

def standard : Functions where
  controls := nameAll Control.names
    [.pitchWheel, .controller, .channelPressure, .polyPressure, .systemExclusive]
  ornaments := nameAll Ornament.names [.trill, .arpeggio]

def remove (f : Functions) (name : Text) : Functions :=
  ⟨f.controls.erase (Text.upper name), f.ornaments.erase (Text.upper name)⟩

def control? (f : Functions) (name : Text) : Option Control := f.controls.get? (Text.upper name)

def ornament? (f : Functions) (name : Text) : Option Ornament := f.ornaments.get? (Text.upper name)

end Functions

/-- Settings, tables and the symbols that a parser starts with. -/
structure Dialect (R : Type) where
  settings : ReadingSettings R
  chords : ChordTable
  functions : Functions
  symbols : Symbols

/-- What a parser remembers. -/
structure Memory where
  symbols : Symbols
  key : Key
  meter : Meter

variable {R : Type} [Scalar R]

def Dialect.ofSettings (settings : ReadingSettings R) : Dialect R :=
  ⟨settings, .standard, .standard, .standard⟩

def Dialect.standard : Dialect R := .ofSettings .standard

/-- Reading notes in C major with the dialect's own symbols. -/
def Dialect.noteContext (d : Dialect R) : NoteContext R :=
  ⟨d.settings.notes, .cMajor, d.symbols, d.chords⟩

def Memory.initial (symbols : Symbols) : Memory := ⟨symbols, .cMajor, .common⟩

/-- What reading one fragment looks at. -/
structure Context (R : Type) where
  dialect : Dialect R
  memory : Memory

/-- Reading notes in the key in force with the symbols known by now. -/
def Context.noteContext (ctx : Context R) : NoteContext R :=
  ⟨ctx.dialect.settings.notes, ctx.memory.key, ctx.memory.symbols, ctx.dialect.chords⟩

end ScoreText
