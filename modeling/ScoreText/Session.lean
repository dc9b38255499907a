import ScoreText.Bus.Listener
import ScoreText.Notation.Parser
import ScoreText.Sequence.Replay

/-!
A session is a parser and a bus on which the parser's events are fired.
-/

set_option autoImplicit false

namespace ScoreText

/-- What listeners of a session do to its bus. -/
abbrev BusAct (R : Type) := Act (Event R) (Listener R) Request

structure Session (R : Type) where
  parser : Parser R
  bus : Bus (Listener R) := {}

namespace Session

variable {R : Type} [Scalar R]

def perform (s : Session R) (acts : List (BusAct R)) : Session R :=
  { s with bus := s.bus.performAll Listener.behaviour acts }

def fire (s : Session R) (events : List (Event R)) : Session R := s.perform (events.map .fire)

/-- Reads a text and fires its events. -/
def parse (s : Session R) (text : Text) : Session R × Except Error Unit :=
  let o := s.parser.parse text
  ({ s with parser := { s.parser with memory := o.memory } }.fire o.events, o.result)

/-- Reads a text with a guest that is subscribed until the reading ends, however it ends. -/
def parseFor (s : Session R) (guest : Listener R) (text : Text) :
    Session R × Listener R × Except Error Unit :=
  let (bus, subscription) := s.bus.join guest
  let (s, result) := { s with bus := bus }.parse text
  let guest := (s.bus.listener? subscription.listener).getD guest
  ({ s with bus := (s.bus.unsubscribe subscription.id).1 }, guest, result)

/-- The finished sequence of a recorder. -/
def sequenceOf? : Listener R → Option Sequence
  | .recorder r => some r.finish.sequence
  | _ => none

/-- The sequence that a text stands for. -/
def materialize (s : Session R) (text : Text) (resolution : Nat) :
    Session R × Except Error Sequence :=
  let recorder := Recorder.start resolution s.parser.dialect.settings.notes.length
  let (s, guest, result) := s.parseFor (.recorder recorder) text
  (s, result.map fun _ => (sequenceOf? guest).getD recorder.sequence)

end Session

/-- The sequence that a text stands for, read by a parser that nothing else listens to. -/
def Parser.materialize {R : Type} [Scalar R] (p : Parser R) (text : Text) (resolution : Nat) :
    Except Error Sequence :=
  let o := p.parse text
  let recorder := Recorder.start resolution p.dialect.settings.notes.length
  o.result.map fun _ => (o.events.foldl Recorder.hear recorder).finish.sequence

/-- The pattern that a list of events is written as. -/
def Pattern.ofEvents {R : Type} [Scalar R] (events : List (Event R)) : Pattern :=
  (events.foldl Writer.hear {}).pattern

end ScoreText
