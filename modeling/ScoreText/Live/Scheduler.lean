import ScoreText.Agenda

/-!
A scheduler keeps work for whole milliseconds: commands, events that can be withdrawn, and glides,
which last for a while. Callers change it by single operations; what is accepted at one millisecond
is for a later one.
-/

set_option autoImplicit false

namespace ScoreText

/-- Work for milliseconds. Each piece goes by its number in the order of acceptance. -/
structure Queue (W : Type) where
  agenda : Agenda (Nat × W) := {}
  /-- The millisecond of every piece accepted so far. -/
  times : List Nat := []

namespace Queue

variable {W : Type}

def add (q : Queue W) (time : Nat) (work : W) : Queue W :=
  ⟨q.agenda.add time (q.times.length, work), q.times ++ [time]⟩

def dueAt (q : Queue W) (time : Nat) : List (Nat × W) := q.agenda.itemsAt time

/-- The queue without what is due at a time. -/
def passed (q : Queue W) (time : Nat) : Queue W := { q with agenda := q.agenda.clearAt time }

def isWaiting (q : Queue W) (number : Nat) : Bool := q.agenda.any fun piece => piece.1 == number

def without (q : Queue W) (number : Nat) : Queue W :=
  { q with agenda := q.agenda.remove fun piece => piece.1 == number }

/-- The queue with nothing waiting; numbers go on from where they were. -/
def cleared (q : Queue W) : Queue W := { q with agenda := .empty }

end Queue

/-- Work that goes on over so many milliseconds. -/
structure Glide (I : Type) where
  number : Nat
  work : I
  duration : Nat
  startedAt : Option Nat := none
  hasEnded : Bool := false

structure Scheduler (C E I : Type) where
  /-- The last millisecond begun. -/
  now : Nat
  commands : Queue C := {}
  events : Queue E := {}
  glides : List (Glide I) := []
  /-- The numbers of glides that are neither removed nor known to have ended. -/
  live : List Nat := []
  glideCount : Nat := 0

/-- What a caller asks of a scheduler. -/
inductive Operation (C E I : Type) where
  | schedule (time : Nat) (command : C)
  | scheduleEvent (time : Nat) (event : E)
  /-- Takes back the event of a number. -/
  | withdraw (number : Nat)
  | glide (work : I) (duration : Nat)
  /-- Stops the glide of a number. -/
  | stop (number : Nat)
  | clear
  | isIdle
  | time

/-- What a caller is told. -/
inductive Reply where
  | nothing
  | truth (value : Bool)
  | millisecond (time : Nat)
  deriving DecidableEq, Repr

namespace Scheduler

variable {C E I : Type}

/-- The millisecond that work for a time is done at, which is never one that has begun. -/
def landing (s : Scheduler C E I) (time : Nat) : Nat := max time (s.now + 1)

/-- Whether nothing is left to do. -/
def isIdle (s : Scheduler C E I) : Bool :=
  s.commands.agenda.isEmpty && s.events.agenda.isEmpty && s.live.isEmpty

def clear (s : Scheduler C E I) : Scheduler C E I :=
  { s with commands := s.commands.cleared, events := s.events.cleared, glides := [], live := [] }

def addGlide (s : Scheduler C E I) (work : I) (duration : Nat) : Scheduler C E I :=
  let number := s.glideCount
  { s with
    glides := s.glides ++ [{ number := number, work := work, duration := duration }]
    live := s.live ++ [number]
    glideCount := number + 1 }

def removeGlide (s : Scheduler C E I) (number : Nat) : Scheduler C E I :=
  if s.live.contains number then
    { s with
      live := s.live.filter (· != number)
      glides := s.glides.filter fun g => g.number != number }
  else s

/-- The scheduler after an operation, and the reply. Of what was never accepted, nothing is said. -/
def obey (s : Scheduler C E I) : Operation C E I → Scheduler C E I × Reply
  | .schedule time command =>
    ({ s with commands := s.commands.add (s.landing time) command }, .millisecond (s.landing time))
  | .scheduleEvent time event =>
    ({ s with events := s.events.add (s.landing time) event }, .millisecond (s.landing time))
  | .withdraw number =>
    if number < s.events.times.length then
      ({ s with events := s.events.without number }, .truth (s.events.isWaiting number))
    else (s, .nothing)
  | .glide work duration => (s.addGlide work duration, .nothing)
  | .stop number =>
    if number < s.glideCount then (s.removeGlide number, .truth (s.live.contains number))
    else (s, .nothing)
  | .clear => (s.clear, .nothing)
  | .isIdle => (s, .truth s.isIdle)
  | .time => (s, .millisecond s.now)

end Scheduler

end ScoreText
