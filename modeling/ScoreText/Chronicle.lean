import ScoreText.Agenda
import ScoreText.Event
import ScoreText.Settings
import ScoreText.Timeline.Basic
import ScoreText.Timeline.Tempo

/-!
A chronicle files every event under the millisecond at which it happens, with the track and layer it
belongs to. It can be replayed in the order of time.
-/

set_option autoImplicit false

namespace ScoreText

structure ChronicleEntry (R : Type) where
  track : Nat
  layer : Nat
  event : Event R

structure Chronicle (R : Type) where
  entries : Agenda (ChronicleEntry R)
  /-- Cursors in milliseconds. -/
  timeline : Timeline R
  tempo : Nat
  /-- What a note without a length takes. -/
  noteLength : R

namespace Chronicle

variable {R : Type} [Scalar R]

def start (noteLength : R) : Chronicle R :=
  ⟨.empty, (Timeline.start.setTrack 0).1, defaultTempo, noteLength⟩

/-- The same chronicle with nothing in it. -/
def cleared (c : Chronicle R) : Chronicle R := start c.noteLength

def recordAt (c : Chronicle R) (millis : R) (event : Event R) : Chronicle R :=
  { c with
    entries := c.entries.add (Tempo.millisecond millis)
      ⟨c.timeline.track.val, c.timeline.layer.val, event⟩ }

def record (c : Chronicle R) (event : Event R) : Chronicle R := c.recordAt c.timeline.time event

def millisOf (c : Chronicle R) (note : Note R) : R :=
  Tempo.millisOfBeats (Timeline.lengthOf note c.noteLength) c.tempo

/-- Places notes one after another; the start is that of the first. -/
def placeAll (timeline : Timeline R) (length : R) : List (Note R) → Timeline R × Option R
  | [] => (timeline, none)
  | note :: rest =>
    let (timeline, placement) := timeline.place note length
    ((placeAll timeline length rest).1, some placement.start)

def hear (c : Chronicle R) (event : Event R) : Chronicle R :=
  match event with
  | .track n => { c with timeline := (c.timeline.setTrack n).1 }
  | .layer n => { c with timeline := c.timeline.setLayer n }
  | .tempo bpm => { c with tempo := max bpm 1 }.record event
  | .bookmark name => { c with timeline := c.timeline.setBookmark name }
  | .bookmarkRequest name => { c with timeline := c.timeline.jump name }
  | .timeRequest beats =>
    { c with timeline := c.timeline.setTime (Tempo.millisOfBeats beats c.tempo) }
  | .note n =>
    let (timeline, placement) := c.timeline.place n (c.millisOf n)
    { c with timeline := timeline }.recordAt placement.start event
  | .chord chord =>
    let (timeline, start) := placeAll c.timeline (c.millisOf chord.root) chord.notes
    { c with timeline := timeline }.recordAt (start.getD c.timeline.time) event
  | .parsingStarts | .parsingEnds => c
  | _ => c.record event

/-- The time of the last entry or of the end of the last note. -/
def duration (c : Chronicle R) : Nat :=
  (c.timeline.createdTracks.map fun track => Scalar.round (c.timeline.latest track)).foldl max
    (c.entries.last?.getD 0)

/-- Changes of track and layer that lead from one place to another. -/
def moves (position : Option (Nat × Nat)) (e : ChronicleEntry R) : List (Event R) :=
  if position.map Prod.fst = some e.track then
    if position.map Prod.snd = some e.layer then [] else [.layer e.layer]
  else [.track e.track, .layer e.layer]

def replayFrom : Option (Nat × Nat) → List (ChronicleEntry R) → List (Event R)
  | _, [] => []
  | position, e :: rest => moves position e ++ e.event :: replayFrom (some (e.track, e.layer)) rest

/-- All entries in the order of time, with the changes of track and layer that they need. -/
def replay (c : Chronicle R) : List (Event R) :=
  .parsingStarts :: replayFrom none (c.entries.toList.map Prod.snd) ++ [.parsingEnds]

end Chronicle

end ScoreText
