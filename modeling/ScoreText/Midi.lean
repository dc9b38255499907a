import ScoreText.Event

/-!
Channel messages as bytes. A status byte holds the kind in its upper half and the channel in its
lower; data bytes hold seven bits each.
-/

set_option autoImplicit false

namespace ScoreText

namespace Midi

/-- The kinds of channel messages. -/
inductive Status where
  | noteOff | noteOn | polyPressure | controller | program | channelPressure | pitchWheel
  deriving DecidableEq, Repr

namespace Status

def number : Status → Nat
  | .noteOff => 8
  | .noteOn => 9
  | .polyPressure => 10
  | .controller => 11
  | .program => 12
  | .channelPressure => 13
  | .pitchWheel => 14

def all : List Status :=
  [.noteOff, .noteOn, .polyPressure, .controller, .program, .channelPressure, .pitchWheel]

def ofNumber? (n : Nat) : Option Status := all.find? fun s => s.number == n

theorem ofNumber?_number (s : Status) : ofNumber? s.number = some s := by cases s <;> rfl

/-- The byte of the kind on one of sixteen channels. -/
def byte (s : Status) (channel : Nat) : UInt8 := (s.number * 16 + channel % 16).toUInt8

end Status

/-- The first byte of a system exclusive message. -/
def systemExclusive : UInt8 := 0xF0

def dataByte (n : Nat) : UInt8 := (n % 128).toUInt8

def noteOn (channel note velocity : Nat) : List UInt8 :=
  [Status.noteOn.byte channel, dataByte note, dataByte velocity]

def noteOff (channel note velocity : Nat) : List UInt8 :=
  [Status.noteOff.byte channel, dataByte note, dataByte velocity]

def polyPressure (channel key pressure : Nat) : List UInt8 :=
  [Status.polyPressure.byte channel, dataByte key, dataByte pressure]

def controller (channel number value : Nat) : List UInt8 :=
  [Status.controller.byte channel, dataByte number, dataByte value]

def program (channel number : Nat) : List UInt8 := [Status.program.byte channel, dataByte number]

def channelPressure (channel pressure : Nat) : List UInt8 :=
  [Status.channelPressure.byte channel, dataByte pressure]

/-- The wheel at a value of fourteen bits, or as far as it goes. -/
def pitchWheel (channel value : Nat) : List UInt8 :=
  let value := min value maxWheel
  [Status.pitchWheel.byte channel, dataByte value, dataByte (value / 128)]

variable {R : Type} [Scalar R]

/-- The event of a message with two data bytes. A note-on without velocity is a release. -/
def twoByteEvent? (status : Status) (a b : Nat) : Option (Event R) :=
  match status with
  | .noteOff => some (.noteReleased ((Note.ofValue a).withVelocities 0 b))
  | .noteOn =>
    if 0 < b then some (.notePressed ((Note.ofValue a).withVelocities b 0))
    else some (.noteReleased ((Note.ofValue a).withVelocities 0 0))
  | .polyPressure => some (.polyPressure a b)
  | .controller => some (.controller a b)
  | .pitchWheel => some (.pitchWheel a b)
  | .program => none
  | .channelPressure => none

/-- The event of a message with one data byte. -/
def oneByteEvent? (status : Status) (a : Nat) : Option (Event R) :=
  match status with
  | .program => some (.instrument a)
  | .channelPressure => some (.channelPressure a)
  | _ => none

/-- The event of a channel message; bytes beyond those it needs do not count. -/
def event? (status : Status) : List UInt8 → Option (Event R)
  | [] => none
  | [a] => oneByteEvent? status (a.toNat % 128)
  | a :: b :: _ =>
    (oneByteEvent? status (a.toNat % 128)).or
      (twoByteEvent? status (a.toNat % 128) (b.toNat % 128))

/-- The channel and the event of a message. A system exclusive message counts as one on channel
zero; other system messages and those cut short have none. -/
def decode? : List UInt8 → Option (Nat × Event R)
  | [] => none
  | first :: rest =>
    if first = systemExclusive then some (0, .systemExclusive (first :: rest))
    else do
      let status ← Status.ofNumber? (first.toNat / 16)
      let event ← event? status rest
      return (first.toNat % 16, event)

end Midi

end ScoreText
