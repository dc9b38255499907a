import ScoreText.Bus.Delivery
import ScoreText.Chronicle
import ScoreText.Pattern
import ScoreText.Sequence.Sequencer

/-!
The listeners of a session: those that keep what they hear in one form or another, relays that pass
events on changed, and triggers that act on the bus.
-/

set_option autoImplicit false

namespace ScoreText

/-- What a relay does to events. -/
inductive Transform where
  | pass
  /-- Shifts notes and chords by semitones, as far as there are notes. -/
  | transpose (semitones : Int)
  /-- Gives programs other numbers. -/
  | remap (programs : List (Nat × Nat))
  /-- Lets nothing of these kinds through. -/
  | swallow (kinds : List EventKind)

namespace Transform

variable {R : Type}

def shift (semitones : Int) (n : Note R) : Note R :=
  { n with value := (max 0 (min (n.value + semitones) maxData)).toNat, written := none }

def transposed (semitones : Int) : Event R → Event R
  | .note n => .note (if n.isRest then n else shift semitones n)
  | .chord c => .chord { c with root := shift semitones c.root }
  | event => event

def remapped (programs : List (Nat × Nat)) : Event R → Event R
  | .instrument n => .instrument ((programs.lookup n).getD n)
  | event => event

/-- The event passed on, if any. -/
def apply (t : Transform) (event : Event R) : Option (Event R) :=
  match t with
  | .pass => some event
  | .transpose semitones => some (transposed semitones event)
  | .remap programs => some (remapped programs event)
  | .swallow kinds => if kinds.contains event.kind then none else some event

end Transform

/-- Counts of events by kind. -/
structure Tally where
  /-- The kinds heard, the last first. -/
  heard : List EventKind := []

namespace Tally

def count (t : Tally) (kind : EventKind) : Nat := t.heard.count kind

def total (t : Tally) : Nat := t.heard.length

/-- One line for each kind heard, in alphabetical order. -/
def lines (t : Tally) : List Text :=
  (EventKind.all.filter fun kind => t.count kind != 0).map fun kind =>
    kind.text.toList ++ [':', ' '] ++ Text.ofNat (t.count kind)

def summary (t : Tally) : Text := Text.join ['\n'] t.lines

end Tally

/-- What can be asked of a listener from outside. -/
inductive Request where
  /-- A recorder ends its tracks. -/
  | finish
  /-- A chronicle drops all it holds. -/
  | restart
  deriving DecidableEq, Repr

inductive Listener (R : Type) where
  /-- Keeps every event. -/
  | collector (events : List (Event R))
  | writer (writer : Writer)
  | recorder (recorder : Recorder R)
  | chronicle (chronicle : Chronicle R)
  | tally (tally : Tally)
  /-- Passes events on to a listener of its own. -/
  | relay (transform : Transform) (down : Listener R)
  /-- Acts on events of some kinds, so many times if a number is given. -/
  | trigger (kinds : List EventKind) (times : Option Nat)
      (acts : List (Act (Event R) (Listener R) Request))

namespace Listener

instance {R : Type} : Inhabited (Listener R) := ⟨.collector []⟩

variable {R : Type} [Scalar R]

/-- Whether a trigger with so many times left still acts. -/
def isLoaded : Option Nat → Bool
  | some n => n != 0
  | none => true

/-- The listener after an event, and what it does to the bus. -/
def respond (l : Listener R) (event : Event R) :
    Listener R × List (Act (Event R) (Listener R) Request) :=
  match l with
  | .collector events => (.collector (events ++ [event]), [])
  | .writer w => (.writer (w.hear event), [])
  | .recorder r => (.recorder (r.hear event), [])
  | .chronicle c => (.chronicle (c.hear event), [])
  | .tally t => (.tally ⟨event.kind :: t.heard⟩, [])
  | .relay transform down =>
    match transform.apply event with
    | none => (.relay transform down, [])
    | some passed =>
      let (down, acts) := down.respond passed
      (.relay transform down, acts)
  | .trigger kinds times acts =>
    if kinds.contains event.kind && isLoaded times then
      (.trigger kinds (times.map (· - 1)) acts, acts)
    else (.trigger kinds times acts, [])

/-- The listener at the end of a chain of relays. -/
def last : Listener R → Listener R
  | .relay _ down => down.last
  | l => l

def comply (request : Request) : Listener R → Listener R
  | .relay transform down => .relay transform (down.comply request)
  | .recorder r =>
    match request with
    | .finish => .recorder r.finish
    | .restart => .recorder r
  | .chronicle c =>
    match request with
    | .finish => .chronicle c
    | .restart => .chronicle c.cleared
  | l => l

def behaviour : Behaviour (Event R) (Listener R) Request where
  respond := respond
  change := comply

end Listener

end ScoreText
