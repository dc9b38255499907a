import ScoreText.Live.Scheduler
import ScoreText.Number.Scalar

/-!
Doing scheduled work. A millisecond begins when its work is taken from the scheduler; then the
commands run, then the events, then every glide moves on, and the glides that last are put back.
Each of these is one step, between any two of which callers may change the scheduler.
-/

set_option autoImplicit false

namespace ScoreText

/-- How a glide is called upon. -/
inductive Call where
  | start
  | update (elapsed duration : Nat)
  | finish
  deriving DecidableEq, Repr

/-- The part of a duration that has elapsed; all of it when there is no duration. -/
def Call.portion {R : Type} [Scalar R] (elapsed duration : Nat) : R :=
  if duration = 0 then ((1 : Nat) : R) else (elapsed : R) / (duration : R)

/-- The operations that work performs when it runs. -/
structure Script (C E I : Type) where
  command : C → List (Operation C E I)
  event : E → List (Operation C E I)
  glide : I → Call → I × List (Operation C E I)

inductive Happening (C E I : Type) where
  | command (number : Nat) (work : C)
  | event (number : Nat) (work : E)
  | glide (number : Nat) (work : I) (call : Call)
  /-- An operation that running work performed. -/
  | did (operation : Operation C E I) (reply : Reply)

/-- The work of a millisecond that is still to be done. -/
structure Tick (C E I : Type) where
  commands : List (Nat × C)
  events : List (Nat × E)
  waiting : List (Glide I)
  /-- The glides that have moved on. -/
  moved : List (Glide I) := []

/-- The number of steps that the rest of a millisecond takes. -/
def Tick.size {C E I : Type} (t : Tick C E I) : Nat :=
  t.commands.length + t.events.length + t.waiting.length + 1

/-- A scheduler and the work in progress. -/
structure Machine (C E I : Type) where
  scheduler : Scheduler C E I
  tick : Option (Tick C E I) := none
  /-- What happened, and in which millisecond, the last first. -/
  history : List (Nat × Happening C E I) := []

namespace Machine

variable {C E I : Type}

/-- An operation of a caller. -/
def obey (m : Machine C E I) (operation : Operation C E I) : Machine C E I × Reply :=
  let (scheduler, reply) := m.scheduler.obey operation
  ({ m with scheduler := scheduler }, reply)

def note (m : Machine C E I) (h : Happening C E I) : Machine C E I :=
  { m with history := (m.scheduler.now, h) :: m.history }

/-- Operations of running work, one after another. -/
def perform : Machine C E I → List (Operation C E I) → Machine C E I
  | m, [] => m
  | m, operation :: rest =>
    let (m, reply) := m.obey operation
    (m.note (.did operation reply)).perform rest

/-- Begins the next millisecond and takes its work. -/
def begin (m : Machine C E I) : Machine C E I :=
  let s := m.scheduler
  let now := s.now + 1
  { m with
    scheduler :=
      { s with
        now := now
        commands := s.commands.passed now
        events := s.events.passed now
        glides := [] }
    tick := some ⟨s.commands.dueAt now, s.events.dueAt now, s.glides, []⟩ }

def callGlide (script : Script C E I) (m : Machine C E I) (g : Glide I) (call : Call) :
    Machine C E I × Glide I :=
  let (work, operations) := script.glide g.work call
  ((m.note (.glide g.number g.work call)).perform operations, { g with work := work })

/-- A glide starts the first time and then goes through its duration; at the end it is told so. -/
def moveGlide (script : Script C E I) (m : Machine C E I) (g : Glide I) :
    Machine C E I × Glide I :=
  match g.startedAt with
  | none => m.callGlide script { g with startedAt := some m.scheduler.now } .start
  | some start =>
    let elapsed := min (m.scheduler.now - start) g.duration
    let (m, g) := m.callGlide script g (.update elapsed g.duration)
    if g.duration ≤ elapsed then
      let (m, g) := m.callGlide script g .finish
      (m, { g with hasEnded := true })
    else (m, g)

/-- Puts back the glides that last, before any that were added meanwhile. -/
def putBack (m : Machine C E I) (moved : List (Glide I)) : Machine C E I :=
  let s := m.scheduler
  let ended := (moved.filter Glide.hasEnded).map Glide.number
  let live := s.live.filter fun n => !ended.contains n
  { m with
    scheduler :=
      { s with live := live, glides := (moved.filter fun g => live.contains g.number) ++ s.glides }
    tick := none }

/-- One step: the next millisecond begins, or one piece of its work is done. -/
def step (script : Script C E I) (m : Machine C E I) : Machine C E I :=
  match m.tick with
  | none => m.begin
  | some t =>
    match t.commands, t.events, t.waiting with
    | (n, work) :: rest, _, _ =>
      ({ m with tick := some { t with commands := rest } }.note (.command n work)).perform
        (script.command work)
    | [], (n, work) :: rest, _ =>
      ({ m with tick := some { t with events := rest } }.note (.event n work)).perform
        (script.event work)
    | [], [], g :: rest =>
      let (m, g) := m.moveGlide script g
      { m with tick := some { t with waiting := rest, moved := t.moved ++ [g] } }
    | [], [], [] => m.putBack t.moved

def steps (script : Script C E I) : Nat → Machine C E I → Machine C E I
  | 0, m => m
  | n + 1, m => steps script n (m.step script)

/-- The number of steps to the end of the millisecond. -/
def pending (m : Machine C E I) : Nat := (m.tick.map Tick.size).getD 0

/-- Does what is left of a millisecond. -/
def complete (script : Script C E I) (m : Machine C E I) : Machine C E I :=
  steps script m.pending m

/-- So many milliseconds from begin to end. -/
def pass (script : Script C E I) : Nat → Machine C E I → Machine C E I
  | 0, m => m
  | n + 1, m => pass script n (m.begin.complete script)

/-- Every millisecond up to a time and including it. -/
def advanceTo (script : Script C E I) (m : Machine C E I) (time : Nat) : Machine C E I :=
  pass script (time - m.scheduler.now) m

/-- What happened, in order, and the machine without it. -/
def takeHistory (m : Machine C E I) : List (Nat × Happening C E I) × Machine C E I :=
  (m.history.reverse, { m with history := [] })

end Machine

/-- A machine with nothing to do at a time. -/
def Machine.startAt (C E I : Type) (time : Nat) : Machine C E I := { scheduler := { now := time } }

end ScoreText
