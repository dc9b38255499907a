import ScoreText.Live.Machine

/-!
Runs of a scheduler, in which callers' operations fall in any order between the steps of the loop,
and what the record of a run says: which work was accepted for when, what was taken back, what ran.
-/

set_option autoImplicit false

namespace ScoreText

/-- A caller's operation, or one step of the loop. -/
inductive Move (C E I : Type) where
  | call (operation : Operation C E I)
  | step

namespace Machine

variable {C E I : Type}

/-- An operation of a caller, put down in the history like those of running work. -/
def call (m : Machine C E I) (operation : Operation C E I) : Machine C E I :=
  (m.obey operation).1.note (.did operation (m.obey operation).2)

def move (script : Script C E I) (m : Machine C E I) : Move C E I → Machine C E I
  | .call operation => m.call operation
  | .step => m.step script

def run (script : Script C E I) (m : Machine C E I) (moves : List (Move C E I)) : Machine C E I :=
  moves.foldl (move script) m

theorem perform_eq_foldl (m : Machine C E I) (operations : List (Operation C E I)) :
    m.perform operations = operations.foldl call m := by
  induction operations generalizing m with
  | nil => rfl
  | cons operation rest ih => simp only [perform, List.foldl_cons, ih, call]

/-- What every operation keeps is kept by what work performs. -/
theorem keeps_perform {P : Machine C E I → Prop} {operations : List (Operation C E I)}
    (hcall : ∀ m, P m → ∀ operation ∈ operations, P (m.call operation)) {m : Machine C E I} (h : P m) :
    P (m.perform operations) := by
  rw [perform_eq_foldl]
  induction operations generalizing m with
  | nil => exact h
  | cons operation rest ih =>
    exact ih (fun n hn other hother => hcall n hn other (List.mem_cons_of_mem operation hother))
      (hcall m h operation List.mem_cons_self)

/-- What every operation of a caller and every step keep is kept by a run. -/
theorem keeps_run {P : Machine C E I → Prop} {script : Script C E I} {moves : List (Move C E I)}
    (hcall : ∀ m, P m → ∀ operation, .call operation ∈ moves → P (m.call operation))
    (hstep : ∀ m, P m → P (m.step script)) {m : Machine C E I} (h : P m) : P (m.run script moves) := by
  rw [run]
  induction moves generalizing m with
  | nil => exact h
  | cons mv rest ih =>
    refine ih (fun n hn operation hmem => hcall n hn operation (List.mem_cons_of_mem mv hmem)) ?_
    cases mv with
    | call operation => exact hcall m h operation List.mem_cons_self
    | step => exact hstep m h

/-- The milliseconds that begin in the course of a run. -/
def begun (script : Script C E I) : Machine C E I → List (Move C E I) → List Nat
  | _, [] => []
  | m, mv :: rest =>
    match mv, m.tick with
    | .step, none => (m.scheduler.now + 1) :: begun script (m.move script mv) rest
    | _, _ => begun script (m.move script mv) rest

/-- Whether all work of a millisecond is done. -/
def HasCompleted (m : Machine C E I) (time : Nat) : Prop :=
  time < m.scheduler.now ∨ time = m.scheduler.now ∧ m.tick.isNone

/-- What happened, and in which millisecond, in order. -/
def record (m : Machine C E I) : List (Nat × Happening C E I) := m.history.reverse

@[simp] theorem record_note (m : Machine C E I) (h : Happening C E I) :
    (m.note h).record = m.record ++ [(m.scheduler.now, h)] := by
  simp [record, note]

/-- What holds of all that is on record holds still when it holds of what is noted. -/
theorem forall_record_note {P : Nat × Happening C E I → Prop} {m : Machine C E I}
    (hrecord : ∀ e ∈ m.record, P e) {h : Happening C E I} (hnow : P (m.scheduler.now, h)) :
    ∀ e ∈ (m.note h).record, P e := by
  intro e he
  rw [record_note, List.mem_append, List.mem_singleton] at he
  rcases he with he | rfl
  · exact hrecord e he
  · exact hnow

@[simp] theorem scheduler_note (m : Machine C E I) (h : Happening C E I) :
    (m.note h).scheduler = m.scheduler := rfl

@[simp] theorem tick_note (m : Machine C E I) (h : Happening C E I) : (m.note h).tick = m.tick := rfl

@[simp] theorem tick_call (m : Machine C E I) (operation : Operation C E I) :
    (m.call operation).tick = m.tick := rfl

@[simp] theorem scheduler_call (m : Machine C E I) (operation : Operation C E I) :
    (m.call operation).scheduler = (m.scheduler.obey operation).1 := rfl

theorem record_call (m : Machine C E I) (operation : Operation C E I) :
    (m.call operation).record = m.record ++
      [((m.scheduler.obey operation).1.now, .did operation (m.scheduler.obey operation).2)] := by
  simp only [call, record_note]
  rfl

end Machine

namespace Scheduler

variable {C E I : Type}

@[simp] theorem now_removeGlide (s : Scheduler C E I) (number : Nat) :
    (s.removeGlide number).now = s.now := by
  rw [removeGlide]
  split <;> rfl

@[simp] theorem commands_removeGlide (s : Scheduler C E I) (number : Nat) :
    (s.removeGlide number).commands = s.commands := by
  rw [removeGlide]
  split <;> rfl

@[simp] theorem events_removeGlide (s : Scheduler C E I) (number : Nat) :
    (s.removeGlide number).events = s.events := by
  rw [removeGlide]
  split <;> rfl

theorem now_lt_landing (s : Scheduler C E I) (time : Nat) : s.now < s.landing time :=
  Nat.lt_of_lt_of_le (Nat.lt_succ_self _) (Nat.le_max_right _ _)

@[simp] theorem now_obey (s : Scheduler C E I) (operation : Operation C E I) :
    (s.obey operation).1.now = s.now := by
  cases operation with
  | withdraw | stop =>
    simp only [obey]
    split <;> simp
  | _ => rfl

end Scheduler

namespace Record

variable {C E I : Type}

/-- The millisecond that is given to a command accepted in one millisecond for a time, and the
command; in the order of acceptance. -/
def commandOrders (record : List (Nat × Happening C E I)) : List (Nat × C) :=
  record.filterMap fun
    | (now, .did (.schedule time command) _) => some (max time (now + 1), command)
    | _ => none

/-- The same for events. -/
def eventOrders (record : List (Nat × Happening C E I)) : List (Nat × E) :=
  record.filterMap fun
    | (now, .did (.scheduleEvent time event) _) => some (max time (now + 1), event)
    | _ => none

/-- The numbers of events that were taken back: the caller was told so. -/
def withdrawals (record : List (Nat × Happening C E I)) : List Nat :=
  record.filterMap fun
    | (_, .did (.withdraw number) (.truth true)) => some number
    | _ => none

/-- The commands that ran: in which millisecond, by number. -/
def commandRuns (record : List (Nat × Happening C E I)) : List (Nat × Nat × C) :=
  record.filterMap fun
    | (now, .command number command) => some (now, number, command)
    | _ => none

def eventRuns (record : List (Nat × Happening C E I)) : List (Nat × Nat × E) :=
  record.filterMap fun
    | (now, .event number event) => some (now, number, event)
    | _ => none

/-- Whether a caller who has work accepted is told its millisecond. -/
def Answered : Nat × Happening C E I → Prop
  | (now, .did (.schedule time _) reply) => reply = .millisecond (max time (now + 1))
  | (now, .did (.scheduleEvent time _) reply) => reply = .millisecond (max time (now + 1))
  | _ => True

/-- When a piece of work ran: its millisecond, zero for a command and one for an event, its
number. -/
def turn? : Nat × Happening C E I → Option (Nat × Nat × Nat)
  | (now, .command number _) => some (now, 0, number)
  | (now, .event number _) => some (now, 1, number)
  | _ => none

def turns (record : List (Nat × Happening C E I)) : List (Nat × Nat × Nat) := record.filterMap turn?

/-- Earlier milliseconds come first, in one of them commands before events, and of one kind what was
accepted earlier. -/
def TurnBefore (a b : Nat × Nat × Nat) : Prop :=
  a.1 < b.1 ∨ a.1 = b.1 ∧ (a.2.1 < b.2.1 ∨ a.2.1 = b.2.1 ∧ a.2.2 < b.2.2)

end Record

end ScoreText
