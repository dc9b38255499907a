import ScoreText.Live.Player
import ScoreText.Proofs.Live.Ledger

/-!
Milliseconds in which nothing but commands is due, and no command performs operations of its own. Each
of them runs the commands that are due in it, so that the books of the commands are kept from one
millisecond to the next.
-/

set_option autoImplicit false

namespace ScoreText

namespace Ledger

variable {W : Type}

/-- All that is left of the millisecond has run. -/
def finish (l : Ledger W) : Ledger W :=
  { l with ran := l.ran ++ l.left.map (fun p => (l.now, p)), left := [] }

theorem Balanced.finish {l : Ledger W} (h : l.Balanced) : l.finish.Balanced := by
  have hsame : l.finish.schedule = l.schedule := by simp [schedule, Ledger.finish]
  refine ⟨h.ascending, h.times, hsame ▸ h.sorted, hsame ▸ h.agrees, hsame ▸ h.complete, ?_, h.future⟩
  intro e he
  rcases List.mem_append.mp he with he | he
  · exact h.past e he
  · obtain ⟨p, -, rfl⟩ := List.mem_map.mp he
    exact Nat.le_refl _

end Ledger

namespace Machine

variable {C E I : Type}

/-- Between milliseconds, with nothing to do but commands. -/
structure Plain (m : Machine C E I) : Prop where
  tick : m.tick = none
  events : m.scheduler.events.agenda = .empty
  glides : m.scheduler.glides = []

/-- The books of the commands of a machine. -/
structure Books (m : Machine C E I) (l : Ledger C) : Prop where
  now : l.now = m.scheduler.now
  queue : l.queue = m.scheduler.commands
  left : l.left = []
  gone : l.gone = []
  balanced : l.Balanced

/-- The history that runs of commands leave, the last first. -/
def historyOf (runs : List (Nat × Nat × C)) : List (Nat × Happening C E I) :=
  (runs.map fun e => (e.1, Happening.command e.2.1 e.2.2)).reverse

variable {script : Script C E I}

/-- What is left of a millisecond, if it is commands only, runs in order. -/
theorem complete_commands (hquiet : ∀ work, script.command work = []) {m : Machine C E I}
    {commands : List (Nat × C)} (htick : m.tick = some ⟨commands, [], [], []⟩) :
    m.complete script = { m with
      tick := none
      history := historyOf (commands.map fun c => (m.scheduler.now, c)) ++ m.history } := by
  have hpending : m.pending = commands.length + 1 := by simp [pending, htick, Tick.size]
  rw [complete, hpending]
  clear hpending
  induction commands generalizing m with
  | nil => simp [steps, step, htick, putBack, historyOf]
  | cons command rest ih =>
    have hstep : m.step script = { m with
        tick := some ⟨rest, [], [], []⟩
        history := (m.scheduler.now, .command command.1 command.2) :: m.history } := by
      simp [step, htick, hquiet, perform, note]
    rw [List.length_cons, steps, hstep, ih rfl]
    simp [historyOf]

/-- A millisecond runs the commands that are due in it. -/
theorem Plain.complete_begin (hquiet : ∀ work, script.command work = []) {m : Machine C E I}
    (hplain : m.Plain) :
    m.begin.complete script = { m.begin with
      tick := none
      history := historyOf ((m.scheduler.commands.dueAt (m.scheduler.now + 1)).map fun c =>
        (m.scheduler.now + 1, c)) ++ m.history } := by
  refine complete_commands hquiet (m := m.begin) ?_
  have hevents : m.scheduler.events.dueAt (m.scheduler.now + 1) = [] := by
    rw [Queue.dueAt, hplain.events]
    rfl
  simp only [begin, hevents, hplain.glides]

theorem Plain.next (hquiet : ∀ work, script.command work = []) {m : Machine C E I}
    (hplain : m.Plain) : (m.begin.complete script).Plain := by
  rw [hplain.complete_begin hquiet]
  refine ⟨rfl, ?_, rfl⟩
  change m.scheduler.events.agenda.clearAt _ = _
  rw [hplain.events]
  rfl

/-- The books after a millisecond. -/
theorem Books.next (hquiet : ∀ work, script.command work = []) {m : Machine C E I} {l : Ledger C}
    (hplain : m.Plain) (h : m.Books l) : (m.begin.complete script).Books l.begin.finish := by
  rw [hplain.complete_begin hquiet]
  refine ⟨congrArg (· + 1) h.now, ?_, rfl, h.gone, (h.balanced.begin h.left).finish⟩
  change l.queue.passed (l.now + 1) = _
  rw [h.queue, h.now]
  rfl

theorem Books.pass (hquiet : ∀ work, script.command work = []) {m : Machine C E I} {l : Ledger C}
    (hplain : m.Plain) (h : m.Books l) (n : Nat) :
    ∃ l' new, (Machine.pass script n m).Plain ∧ (Machine.pass script n m).Books l' ∧
      l'.orders = l.orders ∧ l'.ran = l.ran ++ new ∧
      (Machine.pass script n m).history = historyOf new ++ m.history := by
  induction n generalizing m l with
  | zero => exact ⟨l, [], hplain, h, rfl, (List.append_nil _).symm, rfl⟩
  | succ n ih =>
    obtain ⟨l', new, hplain', hbooks', horders, hran, hhistory⟩ :=
      ih (hplain.next hquiet) (h.next hquiet hplain)
    have hdue : (m.scheduler.commands.dueAt (m.scheduler.now + 1)).map (fun c =>
        (m.scheduler.now + 1, c)) = l.begin.left.map fun p => (l.begin.now, p) := by
      rw [← h.queue, ← h.now]
      rfl
    refine ⟨l', (l.begin.left.map fun p => (l.begin.now, p)) ++ new, hplain', hbooks', horders, ?_, ?_⟩
    · rw [hran]
      exact List.append_assoc _ _ _
    · rw [Machine.pass, hhistory, hplain.complete_begin hquiet, hdue, historyOf, historyOf, historyOf,
        List.map_append, List.reverse_append, List.append_assoc]

theorem Books.accept {m : Machine C E I} {l : Ledger C} (h : m.Books l) {time : Nat} (work : C)
    (hlater : m.scheduler.now < time) :
    ({ m with scheduler :=
        { m.scheduler with commands := m.scheduler.commands.add time work } } : Machine C E I).Books
      (l.accept time work) :=
  ⟨h.now, congrArg (fun q => q.add time work) h.queue, h.left, h.gone,
    h.balanced.accept work (h.now ▸ hlater)⟩

/-- A machine that has nothing to do has no commands waiting. -/
theorem Books.schedule_of_isIdle {m : Machine C E I} {l : Ledger C} (h : m.Books l)
    (hidle : m.scheduler.isIdle = true) : l.schedule = l.ran := by
  have hempty : m.scheduler.commands.agenda.buckets = [] := by
    simp only [Scheduler.isIdle, Agenda.isEmpty, Bool.and_eq_true, List.isEmpty_iff] at hidle
    exact hidle.1.1
  simp [Ledger.schedule, h.left, h.queue, Agenda.toList, hempty]

end Machine

end ScoreText
