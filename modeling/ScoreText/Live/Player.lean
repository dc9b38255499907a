import ScoreText.Live.Performer
import ScoreText.Live.Ramp
import ScoreText.Notation.Parser

/-!
A player reads notation and plays it on a live sink as time advances. Notes and controls can be sent
at once, on a channel of the caller's.
-/

set_option autoImplicit false

namespace ScoreText

/-- Scheduled messages, named events, and ramps of a controller on the channel selected last. -/
abbrev PlayerMachine := Machine (Nat × Message) Text (Nat × Ramp)

/-- What came of a step: messages with their milliseconds, and named events that ran. -/
structure Played where
  messages : List (Nat × Sent) := []
  events : List (Text × Nat) := []

namespace Played

def append (a b : Played) : Played := ⟨a.messages ++ b.messages, a.events ++ b.events⟩

end Played

structure Player (R : Type) where
  parser : Parser R
  performer : Performer R
  machine : PlayerMachine
  sink : Sink := {}
  /-- The channel of what is sent at once. -/
  channel : Nat := 0
  isClosed : Bool := false

namespace Player

variable {R : Type} [Scalar R]

/-- A player of a dialect at a time. -/
def start (dialect : Dialect R) (time : Nat) : Player R where
  parser := .ofDialect dialect
  performer := .start dialect.settings.notes.length
  machine := .startAt _ _ _ time

/-- Messages and events perform no operations of their own. -/
def script (R : Type) [Scalar R] : Script (Nat × Message) Text (Nat × Ramp) where
  command _ := []
  event _ := []
  glide := fun (controller, ramp) call => ((controller, (ramp.call R call).1), [])

def now (p : Player R) : Nat := p.machine.scheduler.now

def isFinished (p : Player R) : Bool := p.machine.scheduler.isIdle

def obey (p : Player R) (operation : Operation (Nat × Message) Text (Nat × Ramp)) :
    Player R × Reply :=
  let (machine, reply) := p.machine.obey operation
  ({ p with machine := machine }, reply)

/-- Schedules a message, or sends it. -/
def carryOut (p : Player R) : Order → Player R × List Sent
  | .later millisecond channel message =>
    ((p.obey (.schedule millisecond (channel, message))).1, [])
  | .atOnce channel message =>
    let (sink, sent) := Sink.sendOn channel message
    ({ p with sink := sink }, [sent])

def carryOutAll (p : Player R) : List Order → Player R × List Sent
  | [] => (p, [])
  | order :: rest =>
    let (p, sent) := p.carryOut order
    let (p, more) := p.carryOutAll rest
    (p, sent ++ more)

/-- Fires events of the parser. -/
def fire (p : Player R) : List (Event R) → Player R × List Sent
  | [] => (p, [])
  | event :: rest =>
    let (performer, orders) := p.performer.hear p.now event
    let (p, sent) := { p with performer := performer }.carryOutAll orders
    let (p, more) := p.fire rest
    (p, sent ++ more)

/-- Schedules a text from the next millisecond on. -/
def play (p : Player R) (text : Text) : Player R × List Sent × Except Error Unit :=
  let o := p.parser.parse text
  let (p, sent) := { p with parser := { p.parser with memory := o.memory } }.fire o.events
  (p, sent, o.result)

/-- What a happening comes to, and the channel selected after it. -/
def realize (R : Type) [Scalar R] (sink : Sink) :
    Nat × Happening (Nat × Message) Text (Nat × Ramp) → Sink × Played
  | (time, .command _ (channel, message)) =>
    let (sink, sent) := Sink.sendOn channel message
    (sink, { messages := [(time, sent)] })
  | (time, .event _ name) => (sink, { events := [(name, time)] })
  | (time, .glide _ (controller, ramp) call) =>
    match (ramp.call R call).2 with
    | some value => (sink, { messages := [(time, sink.send (.controller controller value))] })
    | none => (sink, {})
  | (_, .did _ _) => (sink, {})

def realizeAll (R : Type) [Scalar R] (sink : Sink) :
    List (Nat × Happening (Nat × Message) Text (Nat × Ramp)) → Sink × Played
  | [] => (sink, {})
  | h :: rest =>
    let (sink, played) := realize R sink h
    let (sink, more) := realizeAll R sink rest
    (sink, played.append more)

/-- Plays every millisecond up to a time and including it. -/
def advanceTo (p : Player R) (time : Nat) : Player R × Played :=
  let (history, machine) := (p.machine.advanceTo (script R) time).takeHistory
  let (sink, played) := realizeAll R p.sink history
  ({ p with machine := machine, sink := sink }, played)

def selectChannel (p : Player R) (channel : Nat) : Player R := { p with channel := channel % 16 }

/-- Sends a message on the caller's channel. -/
def send (p : Player R) (message : Message) : Player R × List Sent :=
  p.carryOut (.atOnce p.channel message)

def startNote (p : Player R) (n : Note R) : Player R × List Sent :=
  p.send (.noteOn n.value n.attack)

def stopNote (p : Player R) (n : Note R) : Player R × List Sent :=
  p.send (.noteOff n.value n.decay)

def changeInstrument (p : Player R) (program : Nat) : Player R × List Sent :=
  p.send (.program (min program maxData))

def bend (p : Player R) (value : Nat) : Player R × List Sent :=
  p.send (.pitchWheel (min value maxWheel))

def changeController (p : Player R) (number value : Nat) : Player R × List Sent :=
  p.send (.controller (min number maxData) (min value maxData))

/-- Drops what is scheduled and ends all notes. A player closes once. -/
def close (p : Player R) : Player R × List Sent :=
  if p.isClosed then (p, [])
  else
    let (sink, sent) := Sink.silence
    ({ (p.obey .clear).1 with sink := sink, isClosed := true }, sent)

end Player

end ScoreText
