import ScoreText.Event
import ScoreText.Sequence.Basic
import ScoreText.Text.Utf8
import ScoreText.Timeline.Basic
import ScoreText.Timeline.Tempo

/-!
From parsed events to tracks of timed events. The sequencer places notes on a timeline in whole
notes and tells a sink what to do; a sequence is one such sink.
-/

set_option autoImplicit false

namespace ScoreText

/-- What a sequencer asks of the sink it writes to. -/
inductive SinkCall where
  | createTrack (track : Nat)
  | addEvent (track tick : Nat) (event : SequenceEvent)
  deriving DecidableEq, Repr

def Sequence.obey (s : Sequence) : SinkCall → Sequence
  | .createTrack n => s.createTrack n
  | .addEvent track tick event => s.addEvent track tick event

def Sequence.obeyAll (s : Sequence) (calls : List SinkCall) : Sequence := calls.foldl obey s

structure Sequencer (R : Type) where
  resolution : Nat
  timeline : Timeline R
  /-- What a note without a length takes. -/
  noteLength : R
  finished : Bool

namespace Sequencer

variable {R : Type} [Scalar R]

/-- A sequencer on its first track, and what it asks of the sink at once. -/
def start (resolution : Nat) (noteLength : R) : Sequencer R × List SinkCall :=
  let (timeline, created) := Timeline.start.setTrack 0
  (⟨max resolution 1, timeline, noteLength, false⟩, created.map .createTrack)

def tick (s : Sequencer R) (beats : R) : Nat := Tick.ofBeats beats s.resolution

/-- The channel of the current track. -/
def channel (s : Sequencer R) : Nat := s.timeline.track.val

def emitAt (s : Sequencer R) (beats : R) (event : SequenceEvent) : SinkCall :=
  .addEvent s.channel (s.tick beats) event

/-- An event at the current time of the current track and layer. -/
def emit (s : Sequencer R) (event : SequenceEvent) : Sequencer R × List SinkCall :=
  (s, [s.emitAt s.timeline.time event])

def emitMeta (s : Sequencer R) (kind : MetaKind) (data : List UInt8) :
    Sequencer R × List SinkCall :=
  s.emit (.metaEvent kind.number data)

def playNote (s : Sequencer R) (note : Note R) : Sequencer R × List SinkCall :=
  let (timeline, placement) := s.timeline.place note (Timeline.lengthOf note s.noteLength)
  let on := placement.on.map fun time => s.emitAt time (.noteOn s.channel note.value note.attack)
  let off := placement.off.map fun time => s.emitAt time (.noteOff s.channel note.value note.decay)
  ({ s with timeline := timeline }, on.toList ++ off.toList)

def playNotes (s : Sequencer R) : List (Note R) → Sequencer R × List SinkCall
  | [] => (s, [])
  | note :: rest =>
    let (s, calls) := s.playNote note
    let (s, more) := s.playNotes rest
    (s, calls ++ more)

/-- The three bytes of a number below `2 ^ 24`, highest first. -/
def threeBytes (n : Nat) : List UInt8 :=
  [(n / 65536).toUInt8, (n / 256).toUInt8, n.toUInt8]

/-- Takes in a parsed event: the sequencer after it, and what it asks of the sink. -/
def hear (s : Sequencer R) : Event R → Sequencer R × List SinkCall
  | .track n =>
    let (timeline, created) := s.timeline.setTrack n
    ({ s with timeline := timeline }, created.map .createTrack)
  | .layer n => ({ s with timeline := s.timeline.setLayer n }, [])
  | .instrument n => s.emit (.program s.channel n)
  | .tempo bpm => s.emitMeta .tempo (threeBytes (Tempo.quarterMicros bpm))
  | .keySignature fifths mode =>
    s.emitMeta .keySignature [(fifths % 256).toNat.toUInt8, mode.flag.toUInt8]
  | .timeSignature beats power =>
    s.emitMeta .timeSignature [beats.toUInt8, power.toUInt8, 24, 8]
  | .bookmark name => ({ s with timeline := s.timeline.setBookmark name }, [])
  | .bookmarkRequest name => ({ s with timeline := s.timeline.jump name }, [])
  | .timeRequest time => ({ s with timeline := s.timeline.setTime time }, [])
  | .pitchWheel low high => s.emit (.bend s.channel low high)
  | .channelPressure p => s.emit (.channelPressure s.channel p)
  | .polyPressure key p => s.emit (.polyPressure s.channel key p)
  | .systemExclusive bytes => s.emit (.systemExclusive bytes)
  | .controller number value => s.emit (.control s.channel number value)
  | .lyric text => s.emitMeta .lyric (Text.utf8 text)
  | .marker text => s.emitMeta .marker (Text.utf8 text)
  | .note n => s.playNote n
  | .chord c => s.playNotes c.notes
  | .parsingStarts | .parsingEnds | .barLine _ | .call _ _ | .notePressed _ | .noteReleased _ =>
    (s, [])

def hearAll (s : Sequencer R) : List (Event R) → Sequencer R × List SinkCall
  | [] => (s, [])
  | event :: rest =>
    let (s, calls) := s.hear event
    let (s, more) := s.hearAll rest
    (s, calls ++ more)

/-- Ends every track at the latest time of any of its layers. A second end does nothing. -/
def finish (s : Sequencer R) : Sequencer R × List SinkCall :=
  if s.finished then (s, [])
  else
    ({ s with finished := true }, s.timeline.createdTracks.map fun track =>
      .addEvent track (s.tick (s.timeline.latest track)) (.metaEvent MetaKind.endOfTrack.number []))

end Sequencer

/-- A sequencer together with the sequence that it writes. -/
structure Recorder (R : Type) where
  sequencer : Sequencer R
  sequence : Sequence

namespace Recorder

variable {R : Type} [Scalar R]

def start (resolution : Nat) (noteLength : R) : Recorder R :=
  let sequence := Sequence.ofResolution resolution
  let (sequencer, calls) := Sequencer.start sequence.resolution noteLength
  ⟨sequencer, sequence.obeyAll calls⟩

def after (r : Recorder R) (step : Sequencer R × List SinkCall) : Recorder R :=
  ⟨step.1, r.sequence.obeyAll step.2⟩

def hear (r : Recorder R) (event : Event R) : Recorder R := r.after (r.sequencer.hear event)

def finish (r : Recorder R) : Recorder R := r.after r.sequencer.finish

end Recorder

end ScoreText
