import ScoreText.Event
import ScoreText.Live.Sink
import ScoreText.Settings
import ScoreText.Timeline.Basic
import ScoreText.Timeline.Tempo

/-!
From parsed events to messages at milliseconds. A performer keeps time for every track and layer; a
text begins at the first millisecond that has not begun, or where the last text ends if that is
later.
-/

set_option autoImplicit false

namespace ScoreText

/-- What a performer asks for: a message at a millisecond or at once, on a channel. -/
inductive Order where
  | later (millisecond channel : Nat) (message : Message)
  | atOnce (channel : Nat) (message : Message)
  deriving DecidableEq, Repr

structure Performer (R : Type) where
  /-- Cursors in milliseconds. -/
  timeline : Timeline R
  tempo : Nat
  /-- What a note without a length takes. -/
  noteLength : R
  /-- Where the text began; times requested count from here. -/
  origin : R

namespace Performer

variable {R : Type} [Scalar R]

def start (noteLength : R) : Performer R :=
  ⟨(Timeline.start.setTrack 0).1, defaultTempo, noteLength, ((0 : Nat) : R)⟩

/-- The channel of the current track. -/
def channel (p : Performer R) : Nat := p.timeline.track.val

def orderAt (p : Performer R) (millis : R) (message : Message) : Order :=
  .later (Tempo.millisecond millis) p.channel message

/-- A message at the current time of the current track and layer. -/
def order (p : Performer R) (message : Message) : Performer R × List Order :=
  (p, [p.orderAt p.timeline.time message])

def orderAtOnce (p : Performer R) (message : Message) : Performer R × List Order :=
  (p, [.atOnce p.channel message])

def millisOf (p : Performer R) (note : Note R) : R :=
  Tempo.millisOfBeats (Timeline.lengthOf note p.noteLength) p.tempo

def playNote (p : Performer R) (note : Note R) (millis : R) : Performer R × List Order :=
  let (timeline, placement) := p.timeline.place note millis
  let on := placement.on.map fun time => p.orderAt time (.noteOn note.value note.attack)
  let off := placement.off.map fun time => p.orderAt time (.noteOff note.value note.decay)
  ({ p with timeline := timeline }, on.toList ++ off.toList)

def playNotes (millis : R) : Performer R → List (Note R) → Performer R × List Order
  | p, [] => (p, [])
  | p, note :: rest =>
    let (p, orders) := p.playNote note millis
    let (p, more) := p.playNotes millis rest
    (p, orders ++ more)

/-- Takes in a parsed event while a millisecond is the last begun. -/
def hear (now : Nat) (p : Performer R) (event : Event R) : Performer R × List Order :=
  match event with
  | .parsingStarts =>
    let next : R := ((now + 1 : Nat) : R)
    ({ p with timeline := p.timeline.raiseAll next, origin := next }, [])
  | .track n => ({ p with timeline := (p.timeline.setTrack n).1 }, [])
  | .layer n => ({ p with timeline := p.timeline.setLayer n }, [])
  | .tempo bpm => ({ p with tempo := max bpm 1 }, [])
  | .instrument n => p.order (.program n)
  | .controller number value => p.order (.controller number value)
  | .pitchWheel low high => p.order (.pitchWheel (Event.wheelValue low high))
  | .channelPressure pressure => p.order (.channelPressure pressure)
  | .polyPressure key pressure => p.order (.polyPressure key pressure)
  | .bookmark name => ({ p with timeline := p.timeline.setBookmark name }, [])
  | .bookmarkRequest name => ({ p with timeline := p.timeline.jump name }, [])
  | .timeRequest beats =>
    ({ p with timeline := p.timeline.setTime (p.origin + Tempo.millisOfBeats beats p.tempo) }, [])
  | .notePressed n => p.orderAtOnce (.noteOn n.value n.attack)
  | .noteReleased n => p.orderAtOnce (.noteOff n.value n.decay)
  | .note n => p.playNote n (p.millisOf n)
  | .chord c => p.playNotes (p.millisOf c.root) c.notes
  | .parsingEnds | .keySignature _ _ | .timeSignature _ _ | .barLine _ | .systemExclusive _
  | .lyric _ | .marker _ | .call _ _ => (p, [])

end Performer

end ScoreText
