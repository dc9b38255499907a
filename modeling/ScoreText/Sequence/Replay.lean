import ScoreText.Sequence.Sequencer

/-!
From a sequence back to parsed events. Notes that start on one tick sound together, shortest first.
A gap before a tick becomes a rest, and a tick before the end of the last group a request for its
time.
-/

set_option autoImplicit false

namespace ScoreText

namespace Replay

variable {R : Type} [Scalar R]

/-- What starts on one tick of a track. -/
structure Group where
  tick : Nat
  events : List SequenceEvent
  notes : List SequencedNote

/-- The group of a tick changed by `f`, in its place among groups in ascending order. -/
def update (tick : Nat) (f : Group → Group) : List Group → List Group
  | [] => [f ⟨tick, [], []⟩]
  | g :: rest =>
    if tick < g.tick then f ⟨tick, [], []⟩ :: g :: rest
    else if tick = g.tick then f g :: rest
    else g :: update tick f rest

def isNote : SequenceEvent → Bool
  | .noteOn _ _ _ => true
  | .noteOff _ _ _ => true
  | _ => false

/-- The events of a track other than notes and its end, and the starts of its notes, by tick. -/
def groups (s : Sequence) (track : Nat) : List Group :=
  let others := (s.track track).filter fun e => !isNote e.event && !e.event.isEndOfTrack
  let withEvents := others.foldl
    (fun gs e => update e.tick (fun g => { g with events := g.events ++ [e.event] }) gs) []
  (s.notes track).foldl
    (fun gs n => update n.start (fun g => { g with notes := g.notes ++ [n] }) gs) withEvents

def metaEvents (kind : Nat) (data : List UInt8) : List (Event R) :=
  if kind = MetaKind.tempo.number then
    match data with
    | [a, b, c] => [.tempo (Tempo.ofQuarterMicros (a.toNat * 65536 + b.toNat * 256 + c.toNat))]
    | _ => []
  else if kind = MetaKind.keySignature.number then
    match data with
    | [fifths, mode] => [.keySignature (Int.bmod fifths.toNat 256) (.ofFlag mode.toNat)]
    | _ => []
  else if kind = MetaKind.timeSignature.number then
    match data with
    | beats :: power :: _ => [.timeSignature beats.toNat power.toNat]
    | _ => []
  else if kind = MetaKind.lyric.number then [.lyric (Text.ofUtf8 data)]
  else if kind = MetaKind.marker.number then [.marker (Text.ofUtf8 data)]
  else []

def eventsOf : SequenceEvent → List (Event R)
  | .program _ n => [.instrument n]
  | .control _ number value => [.controller number value]
  | .bend _ low high => [.pitchWheel low high]
  | .channelPressure _ p => [.channelPressure p]
  | .polyPressure _ key p => [.polyPressure key p]
  | .systemExclusive bytes => [.systemExclusive bytes]
  | .metaEvent kind data => metaEvents kind data
  | .noteOn _ _ _ => []
  | .noteOff _ _ _ => []

def noteEvents (resolution : Nat) (notes : List SequencedNote) : List (Event R) :=
  notes.zipIdx.map fun (n, i) =>
    .note { ((Note.ofValue n.note).withLength (Tick.toBeats n.length resolution)).withVelocities
      n.attack n.decay with isFirst := i == 0, isHarmonic := i != 0 }

/-- What takes the time from one tick to another: a rest, a request, or nothing. -/
def approach (resolution cursor tick : Nat) : List (Event R) :=
  if cursor < tick then
    [.note { Note.rest (Tick.toBeats (tick - cursor) resolution) with isFirst := true }]
  else if tick < cursor then [.timeRequest (Tick.toBeats tick resolution)]
  else []

/-- The groups of a track, the first of them after what ends at `cursor`. -/
def groupEvents (resolution : Nat) : Nat → List Group → List (Event R)
  | _, [] => []
  | cursor, g :: rest =>
    let notes := g.notes.mergeSort fun a b => a.length ≤ b.length
    let next := (notes.getLast?.map SequencedNote.finish).getD g.tick
    approach resolution cursor g.tick ++ g.events.flatMap eventsOf ++ noteEvents resolution notes
      ++ groupEvents resolution next rest

/-- A track with nothing on it is passed over. -/
def trackEvents (s : Sequence) (track : Nat) : List (Event R) :=
  match groups s track with
  | [] => []
  | gs => .track (track % 256) :: groupEvents s.resolution 0 gs

/-- The events that stand for a sequence. -/
def events (s : Sequence) : List (Event R) :=
  .parsingStarts :: (List.range s.tracks.length).flatMap (trackEvents s) ++ [.parsingEnds]

end Replay

end ScoreText
