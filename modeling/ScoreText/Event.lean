import ScoreText.Theory.Chord
import ScoreText.Theory.Key

/-!
The events that reading a notation announces, each one musical fact.
-/

set_option autoImplicit false

namespace ScoreText

inductive Event (R : Type) where
  | parsingStarts
  | parsingEnds
  | track (number : Nat)
  | layer (number : Nat)
  | instrument (program : Nat)
  /-- Beats a minute. -/
  | tempo (bpm : Nat)
  | keySignature (fifths : Int) (mode : Mode)
  /-- The unit is given as a power of two. -/
  | timeSignature (beats power : Nat)
  | barLine (measure : Nat)
  | bookmark (name : Text)
  | bookmarkRequest (name : Text)
  /-- A time in whole notes. -/
  | timeRequest (time : R)
  | pitchWheel (low high : Nat)
  | channelPressure (pressure : Nat)
  | polyPressure (key pressure : Nat)
  | systemExclusive (bytes : List UInt8)
  | controller (number value : Nat)
  | lyric (text : Text)
  | marker (text : Text)
  /-- A call of a function that has no event of its own. -/
  | call (name params : Text)
  /-- A note that sounds until it is released. -/
  | notePressed (note : Note R)
  | noteReleased (note : Note R)
  | note (note : Note R)
  | chord (chord : Chord R)

inductive EventKind where
  | parsingStarts | parsingEnds | track | layer | instrument | tempo | keySignature | timeSignature
  | barLine | bookmark | bookmarkRequest | timeRequest | pitchWheel | channelPressure | polyPressure
  | systemExclusive | controller | lyric | marker | call | notePressed | noteReleased | note | chord
  deriving DecidableEq, Repr

namespace EventKind

def text : EventKind → String
  | .parsingStarts => "before-parsing-starts"
  | .parsingEnds => "after-parsing-finished"
  | .track => "track-changed"
  | .layer => "layer-changed"
  | .instrument => "instrument-parsed"
  | .tempo => "tempo-changed"
  | .keySignature => "key-signature-parsed"
  | .timeSignature => "time-signature-parsed"
  | .barLine => "bar-line-parsed"
  | .bookmark => "bookmarked"
  | .bookmarkRequest => "bookmark-requested"
  | .timeRequest => "time-requested"
  | .pitchWheel => "pitch-wheel-parsed"
  | .channelPressure => "channel-pressure-parsed"
  | .polyPressure => "polyphonic-pressure-parsed"
  | .systemExclusive => "sysex-parsed"
  | .controller => "controller-parsed"
  | .lyric => "lyric-parsed"
  | .marker => "marker-parsed"
  | .call => "function-parsed"
  | .notePressed => "note-pressed"
  | .noteReleased => "note-released"
  | .note => "note-parsed"
  | .chord => "chord-parsed"

/-- All kinds, in alphabetical order of their texts. -/
def all : List EventKind :=
  [.parsingEnds, .barLine, .parsingStarts, .bookmarkRequest, .bookmark, .channelPressure, .chord,
    .controller, .call, .instrument, .keySignature, .layer, .lyric, .marker, .note, .notePressed,
    .noteReleased, .pitchWheel, .polyPressure, .systemExclusive, .tempo, .timeRequest,
    .timeSignature, .track]

theorem mem_all (k : EventKind) : k ∈ all := by cases k <;> decide

def ofText? (s : String) : Option EventKind := all.find? fun k => k.text == s

end EventKind

namespace Event

variable {R : Type}

def kind : Event R → EventKind
  | .parsingStarts => .parsingStarts
  | .parsingEnds => .parsingEnds
  | .track _ => .track
  | .layer _ => .layer
  | .instrument _ => .instrument
  | .tempo _ => .tempo
  | .keySignature _ _ => .keySignature
  | .timeSignature _ _ => .timeSignature
  | .barLine _ => .barLine
  | .bookmark _ => .bookmark
  | .bookmarkRequest _ => .bookmarkRequest
  | .timeRequest _ => .timeRequest
  | .pitchWheel _ _ => .pitchWheel
  | .channelPressure _ => .channelPressure
  | .polyPressure _ _ => .polyPressure
  | .systemExclusive _ => .systemExclusive
  | .controller _ _ => .controller
  | .lyric _ => .lyric
  | .marker _ => .marker
  | .call _ _ => .call
  | .notePressed _ => .notePressed
  | .noteReleased _ => .noteReleased
  | .note _ => .note
  | .chord _ => .chord

/-- The fourteen bits that two seven-bit halves make. -/
def wheelValue (low high : Nat) : Nat := high * 128 + low % 128

/-- The notes that a list of events plays, those of chords included. -/
def notes [Scalar R] : List (Event R) → List (Note R)
  | [] => []
  | .note n :: rest => n :: notes rest
  | .chord c :: rest => c.notes ++ notes rest
  | _ :: rest => notes rest

end Event

end ScoreText
