/-!
A live sink plays messages on the channel that was selected last.
-/

set_option autoImplicit false

namespace ScoreText

inductive Message where
  | noteOn (note velocity : Nat)
  | noteOff (note velocity : Nat)
  | program (number : Nat)
  /-- Fourteen bits, with the wheel at rest in the middle. -/
  | pitchWheel (value : Nat)
  | channelPressure (pressure : Nat)
  | polyPressure (key pressure : Nat)
  | controller (number value : Nat)
  deriving DecidableEq, Repr

/-- A message and the channel that it went to. -/
structure Sent where
  channel : Nat
  message : Message
  deriving DecidableEq, Repr

structure Sink where
  channel : Nat := 0
  deriving DecidableEq, Repr

namespace Sink

/-- There are sixteen channels. -/
def select (channel : Nat) : Sink := ⟨channel % 16⟩

/-- A message on the channel selected. -/
def send (s : Sink) (message : Message) : Sent := ⟨s.channel, message⟩

/-- A message on a channel, which stays selected. -/
def sendOn (channel : Nat) (message : Message) : Sink × Sent :=
  (select channel, (select channel).send message)

/-- The controller that ends all notes. -/
def allNotesOff : Nat := 123

/-- Ends all notes on every channel, the last of which stays selected. -/
def silence : Sink × List Sent :=
  (select 15, (List.range 16).map fun channel => (select channel).send (.controller allNotesOff 0))

end Sink

end ScoreText
