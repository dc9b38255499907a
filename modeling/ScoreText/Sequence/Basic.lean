import ScoreText.Text.Basic

/-!
Sequences: tracks of channel and meta events in the order of their ticks. An event added at a tick
comes after all that are there already.
-/

set_option autoImplicit false

namespace ScoreText

/-- The kinds of meta events by number. -/
inductive MetaKind where
  | lyric | marker | endOfTrack | tempo | timeSignature | keySignature
  deriving DecidableEq, Repr

def MetaKind.number : MetaKind → Nat
  | .lyric => 0x05
  | .marker => 0x06
  | .endOfTrack => 0x2F
  | .tempo => 0x51
  | .timeSignature => 0x58
  | .keySignature => 0x59

inductive SequenceEvent where
  | noteOn (channel note velocity : Nat)
  | noteOff (channel note velocity : Nat)
  | program (channel number : Nat)
  | control (channel controller value : Nat)
  | bend (channel low high : Nat)
  | channelPressure (channel pressure : Nat)
  | polyPressure (channel key pressure : Nat)
  | metaEvent (kind : Nat) (data : List UInt8)
  | systemExclusive (bytes : List UInt8)
  deriving DecidableEq, Repr

namespace SequenceEvent

def isEndOfTrack : SequenceEvent → Bool
  | .metaEvent kind _ => kind == MetaKind.endOfTrack.number
  | _ => false

/-- The channel of a channel event. -/
def channel? : SequenceEvent → Option Nat
  | .noteOn channel _ _ => some channel
  | .noteOff channel _ _ => some channel
  | .program channel _ => some channel
  | .control channel _ _ => some channel
  | .bend channel _ _ => some channel
  | .channelPressure channel _ => some channel
  | .polyPressure channel _ _ => some channel
  | .metaEvent _ _ => none
  | .systemExclusive _ => none

def bytesText (bytes : List UInt8) : Text :=
  ['['] ++ Text.join [',', ' '] (bytes.map fun b => Text.ofNat b.toNat) ++ [']']

/-- A name and named fields in braces. -/
def recordText (name : String) (fields : List (String × Text)) : Text :=
  name.toList ++ " \x7b ".toList
    ++ Text.join [',', ' '] (fields.map fun (field, value) => field.toList ++ ": ".toList ++ value)
    ++ " \x7d".toList

def text : SequenceEvent → Text
  | .noteOn channel note velocity =>
    recordText "NoteOn"
      [("channel", Text.ofNat channel), ("note", Text.ofNat note),
        ("velocity", Text.ofNat velocity)]
  | .noteOff channel note velocity =>
    recordText "NoteOff"
      [("channel", Text.ofNat channel), ("note", Text.ofNat note),
        ("velocity", Text.ofNat velocity)]
  | .program channel n =>
    recordText "ProgramChange" [("channel", Text.ofNat channel), ("program", Text.ofNat n)]
  | .control channel controller value =>
    recordText "ControlChange"
      [("channel", Text.ofNat channel), ("controller", Text.ofNat controller),
        ("value", Text.ofNat value)]
  | .bend channel low high =>
    recordText "PitchBend"
      [("channel", Text.ofNat channel), ("lsb", Text.ofNat low), ("msb", Text.ofNat high)]
  | .channelPressure channel pressure =>
    recordText "ChannelPressure"
      [("channel", Text.ofNat channel), ("pressure", Text.ofNat pressure)]
  | .polyPressure channel key pressure =>
    recordText "PolyPressure"
      [("channel", Text.ofNat channel), ("key", Text.ofNat key), ("pressure", Text.ofNat pressure)]
  | .metaEvent kind data =>
    recordText "Meta" [("kind", Text.ofNat kind), ("data", bytesText data)]
  | .systemExclusive bytes => "SysEx(".toList ++ bytesText bytes ++ [')']

end SequenceEvent

structure TimedEvent where
  tick : Nat
  event : SequenceEvent
  deriving DecidableEq, Repr

/-- A note-on and the note-off that ends it. -/
structure SequencedNote where
  note : Nat
  attack : Nat
  decay : Nat
  start : Nat
  finish : Nat
  deriving DecidableEq, Repr

def SequencedNote.length (n : SequencedNote) : Nat := n.finish - n.start

/-- Tracks of events at so many ticks to a quarter note. -/
structure Sequence where
  resolution : Nat
  tracks : List (List TimedEvent)
  deriving DecidableEq

namespace Sequence

/-- An empty sequence; there is at least one tick to a quarter note. -/
def ofResolution (resolution : Nat) : Sequence := ⟨max resolution 1, []⟩

/-- The events of a track, none if there is no such track. -/
def track (s : Sequence) (n : Nat) : List TimedEvent := (s.tracks[n]?).getD []

def endTick (s : Sequence) (n : Nat) : Nat := ((s.track n).getLast?.map TimedEvent.tick).getD 0

/-- Brings a track and all below it into being. -/
def createTrack (s : Sequence) (n : Nat) : Sequence :=
  { s with tracks := s.tracks ++ List.replicate (n + 1 - s.tracks.length) [] }

/-- Puts an event behind all that are at its tick or before. -/
def insertEvent (e : TimedEvent) : List TimedEvent → List TimedEvent
  | [] => [e]
  | f :: rest => if f.tick ≤ e.tick then f :: insertEvent e rest else e :: f :: rest

def addEvent (s : Sequence) (track tick : Nat) (event : SequenceEvent) : Sequence :=
  let s := s.createTrack track
  { s with tracks := s.tracks.modify track (insertEvent ⟨tick, event⟩) }

/-- A note-on that no note-off has ended. -/
structure OpenNote where
  note : Nat
  start : Nat
  attack : Nat
  deriving DecidableEq, Repr

/-- The earliest open note of a pitch, and the others. -/
def takeOpen? (note : Nat) : List OpenNote → Option (OpenNote × List OpenNote)
  | [] => none
  | o :: rest =>
    if o.note = note then some (o, rest)
    else (takeOpen? note rest).map fun (found, others) => (found, o :: others)

/-- The notes that end among the events, in the order in which they end. Each note-off ends the
earliest open note of its pitch, if there is one. -/
def pairFrom : List OpenNote → List TimedEvent → List SequencedNote
  | _, [] => []
  | opened, e :: rest =>
    match e.event with
    | .noteOn _ note velocity => pairFrom (opened ++ [⟨note, e.tick, velocity⟩]) rest
    | .noteOff _ note velocity =>
      match takeOpen? note opened with
      | some (o, others) => ⟨note, o.attack, velocity, o.start, e.tick⟩ :: pairFrom others rest
      | none => pairFrom opened rest
    | _ => pairFrom opened rest

/-- The notes of a track by start; one that never ends is left out. -/
def notes (s : Sequence) (n : Nat) : List SequencedNote :=
  (pairFrom [] (s.track n)).mergeSort fun a b => a.start ≤ b.start

/-- One line for the resolution and one for each event: track, tick and event. -/
def lines (s : Sequence) : List Text :=
  ("resolution ".toList ++ Text.ofNat s.resolution) ::
    s.tracks.zipIdx.flatMap fun (events, n) => events.map fun e =>
      Text.padLeft 2 (Text.ofNat n) ++ [' '] ++ Text.padLeft 8 (Text.ofNat e.tick) ++ [' ']
        ++ e.event.text

end Sequence

end ScoreText
