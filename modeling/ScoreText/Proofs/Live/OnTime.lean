import ScoreText.Proofs.Live.Ledger
import ScoreText.Proofs.Live.Record

/-!
Scheduled work runs once and on time. In every run, with callers' operations between any two steps
of the loop and with work that performs operations itself, a piece that is accepted runs in the
millisecond it was given and in no other, unless it was taken back before.
-/

set_option autoImplicit false

namespace ScoreText

variable {C E I : Type}

/-- No work clears the scheduler. -/
structure Script.NeverClears (script : Script C E I) : Prop where
  command : ∀ work, .clear ∉ script.command work
  event : ∀ work, .clear ∉ script.event work
  glide : ∀ work call, .clear ∉ (script.glide work call).2

namespace Machine

open Record

def commandsLeft (m : Machine C E I) : List (Nat × C) := (m.tick.map Tick.commands).getD []

def eventsLeft (m : Machine C E I) : List (Nat × E) := (m.tick.map Tick.events).getD []

def commandLedger (m : Machine C E I) : Ledger C :=
  ⟨m.scheduler.now, commandOrders m.record, [], commandRuns m.record, m.commandsLeft,
    m.scheduler.commands⟩

def eventLedger (m : Machine C E I) : Ledger E :=
  ⟨m.scheduler.now, eventOrders m.record, withdrawals m.record, eventRuns m.record, m.eventsLeft,
    m.scheduler.events⟩

/-- What holds at every point of a run. -/
structure Sound (m : Machine C E I) : Prop where
  commands : m.commandLedger.Balanced
  events : m.eventLedger.Balanced
  stamped : ∀ e ∈ m.record, e.1 ≤ m.scheduler.now
  /-- No event runs while a command of the same millisecond is left. -/
  commandsFirst : ∀ k w, (m.scheduler.now, .event k w) ∈ m.record → m.commandsLeft = []
  inTurn : (turns m.record).Pairwise TurnBefore
  answered : ∀ e ∈ m.record, Answered e

theorem sound_startAt (start : Nat) : (startAt C E I start).Sound where
  commands := Ledger.balanced_start start
  events := Ledger.balanced_start start
  stamped := by simp [startAt, record]
  commandsFirst := by simp [startAt, record]
  inTurn := List.Pairwise.nil
  answered := by simp [startAt, record]

@[simp] theorem commandsLeft_call (m : Machine C E I) (operation : Operation C E I) :
    (m.call operation).commandsLeft = m.commandsLeft := rfl

@[simp] theorem eventsLeft_call (m : Machine C E I) (operation : Operation C E I) :
    (m.call operation).eventsLeft = m.eventsLeft := rfl

theorem mem_turns {record : List (Nat × Happening C E I)} {t : Nat × Nat × Nat}
    (h : t ∈ turns record) : (∃ w, (t.1, t.2.2, w) ∈ commandRuns record ∧ t.2.1 = 0) ∨
      ∃ w, (t.1, t.2.2, w) ∈ eventRuns record ∧ (t.1, .event t.2.2 w) ∈ record ∧ t.2.1 = 1 := by
  obtain ⟨⟨now, happening⟩, he, ht⟩ := List.mem_filterMap.mp h
  cases happening with
  | command number work =>
    obtain rfl : (now, 0, number) = t := by simpa [turn?] using ht
    exact Or.inl ⟨work, List.mem_filterMap.mpr ⟨_, he, rfl⟩, rfl⟩
  | event number work =>
    obtain rfl : (now, 1, number) = t := by simpa [turn?] using ht
    exact Or.inr ⟨work, List.mem_filterMap.mpr ⟨_, he, rfl⟩, he, rfl⟩
  | glide number work call => simp [turn?] at ht
  | did operation reply => simp [turn?] at ht

/-- An operation other than clearing puts a command it has accepted into the books of commands. -/
theorem commandLedger_call (m : Machine C E I) {operation : Operation C E I} (hclear : operation ≠ .clear) :
    (∃ time command, (m.call operation).commandLedger =
      m.commandLedger.accept (m.scheduler.landing time) command) ∨
    (m.call operation).commandLedger = m.commandLedger := by
  cases operation with
  | clear => exact absurd rfl hclear
  | schedule time command =>
    refine .inl ⟨time, command, ?_⟩
    simp [commandLedger, Ledger.accept, record_call, commandOrders, commandRuns, Scheduler.obey,
      Scheduler.landing]
  | withdraw number | stop number =>
    refine .inr ?_
    simp only [commandLedger, record_call, scheduler_call, commandsLeft_call, Scheduler.obey]
    split <;> simp [commandOrders, commandRuns]
  | scheduleEvent | glide | isIdle | time =>
    refine .inr ?_
    simp [commandLedger, record_call, commandOrders, commandRuns, Scheduler.obey, Scheduler.addGlide]

/-- An operation other than clearing puts an event it has accepted into the books of events, or takes
one back. -/
theorem eventLedger_call (m : Machine C E I) {operation : Operation C E I} (hclear : operation ≠ .clear) :
    (∃ time event, (m.call operation).eventLedger =
      m.eventLedger.accept (m.scheduler.landing time) event) ∨
    (∃ number, (m.call operation).eventLedger = m.eventLedger.withdraw number) ∨
    (m.call operation).eventLedger = m.eventLedger := by
  cases operation with
  | clear => exact absurd rfl hclear
  | scheduleEvent time event =>
    refine .inl ⟨time, event, ?_⟩
    simp [eventLedger, Ledger.accept, record_call, eventOrders, eventRuns, withdrawals, Scheduler.obey,
      Scheduler.landing]
  | withdraw number =>
    by_cases hknown : number < m.scheduler.events.times.length
    · refine .inr (.inl ⟨number, ?_⟩)
      cases hwaits : m.scheduler.events.isWaiting number <;>
        simp [eventLedger, Ledger.withdraw, record_call, eventOrders, eventRuns, withdrawals,
          Scheduler.obey, hknown, hwaits]
    · refine .inr (.inr ?_)
      simp [eventLedger, record_call, eventOrders, eventRuns, withdrawals, Scheduler.obey, hknown]
  | stop number =>
    refine .inr (.inr ?_)
    simp only [eventLedger, record_call, scheduler_call, eventsLeft_call, Scheduler.obey]
    split <;> simp [eventOrders, eventRuns, withdrawals]
  | schedule | glide | isIdle | time =>
    refine .inr (.inr ?_)
    simp [eventLedger, record_call, eventOrders, eventRuns, withdrawals, Scheduler.obey,
      Scheduler.addGlide]

/-- An operation of a caller other than clearing. -/
theorem Sound.call {m : Machine C E I} (h : m.Sound) {operation : Operation C E I}
    (hclear : operation ≠ .clear) : (m.call operation).Sound := by
  have hcommands : (m.call operation).commandLedger.Balanced := by
    rcases commandLedger_call m hclear with ⟨time, command, heq⟩ | heq <;> rw [heq]
    · exact h.commands.accept command (m.scheduler.now_lt_landing time)
    · exact h.commands
  have hevents : (m.call operation).eventLedger.Balanced := by
    rcases eventLedger_call m hclear with ⟨time, event, heq⟩ | ⟨number, heq⟩ | heq <;> rw [heq]
    · exact h.events.accept event (m.scheduler.now_lt_landing time)
    · exact h.events.withdraw number
    · exact h.events
  refine ⟨hcommands, hevents, ?_, ?_, ?_, ?_⟩
  · intro e he
    rw [record_call, List.mem_append, List.mem_singleton] at he
    rw [scheduler_call, Scheduler.now_obey]
    rcases he with he | rfl
    · exact h.stamped e he
    · simp
  · intro k w he
    rw [record_call, List.mem_append, scheduler_call, Scheduler.now_obey] at he
    rw [commandsLeft_call]
    exact h.commandsFirst k w (by simpa using he)
  · have hnone : turn? ((m.scheduler.obey operation).1.now,
        (.did operation (m.scheduler.obey operation).2 : Happening C E I)) = none := rfl
    rw [turns, record_call, List.filterMap_append, List.filterMap_cons_none hnone,
      List.filterMap_nil, List.append_nil]
    exact h.inTurn
  · intro e he
    rw [record_call, List.mem_append, List.mem_singleton, Scheduler.now_obey] at he
    rcases he with he | rfl
    · exact h.answered e he
    · cases operation <;> simp [Answered, Scheduler.obey, Scheduler.landing]

theorem Sound.perform {m : Machine C E I} (h : m.Sound) {operations : List (Operation C E I)}
    (hclear : .clear ∉ operations) : (m.perform operations).Sound :=
  keeps_perform (fun _ h _ hmem => h.call fun heq => hclear (heq ▸ hmem)) h

theorem tick_perform (m : Machine C E I) (operations : List (Operation C E I)) :
    (m.perform operations).tick = m.tick :=
  keeps_perform (P := fun n => n.tick = m.tick) (fun n h operation _ => (n.tick_call operation).trans h) rfl

theorem now_perform (m : Machine C E I) (operations : List (Operation C E I)) :
    (m.perform operations).scheduler.now = m.scheduler.now :=
  keeps_perform (P := fun n => n.scheduler.now = m.scheduler.now)
    (fun n h operation _ => (n.scheduler.now_obey operation).trans h) rfl

theorem Sound.begin {m : Machine C E I} (h : m.Sound) (hrest : m.tick = none) : m.begin.Sound := by
  have hc := h.commands.begin (by simp [commandLedger, commandsLeft, hrest])
  have he := h.events.begin (by simp [eventLedger, eventsLeft, hrest])
  refine ⟨hc, he, fun e hm => Nat.le_succ_of_le (h.stamped e hm), ?_, h.inTurn, h.answered⟩
  -- nothing is on record yet for the new millisecond
  intro k w hm
  exact absurd (h.stamped _ hm) (by simp [Machine.begin])

/-- The next command is taken from what is left and runs. -/
theorem Sound.runCommand {m : Machine C E I} (h : m.Sound) {t : Tick C E I} (htick : m.tick = some t)
    {number : Nat} {work : C} {rest : List (Nat × C)} (hleft : t.commands = (number, work) :: rest) :
    ({ m with tick := some { t with commands := rest } }.note (.command number work)).Sound := by
  have hled : m.commandLedger.left = (number, work) :: rest := by
    simp [commandLedger, commandsLeft, htick, hleft]
  have hc := h.commands.run hled
  refine ⟨?_, ?_, ?_, ?_, ?_, ?_⟩
  · simpa [commandLedger, Ledger.run, commandsLeft, record, note, commandOrders, commandRuns]
      using hc
  · simpa [eventLedger, eventsLeft, htick, record, note, eventOrders, eventRuns, withdrawals]
      using h.events
  · exact forall_record_note h.stamped (Nat.le_refl _)
  · intro k w he
    have hm : (m.scheduler.now, .event k w) ∈ m.record := by simpa [record, note] using he
    have := h.commandsFirst k w hm
    simp [commandsLeft, htick, hleft] at this
  · simp only [turns, record_note, List.filterMap_append, List.pairwise_append]
    refine ⟨h.inTurn, by simp [turn?], ?_⟩
    intro a ha b hb
    obtain rfl : b = (m.scheduler.now, 0, number) := by simpa [turn?] using hb
    rcases mem_turns ha with ⟨w, hw, hkind⟩ | ⟨w, hw, hrec, hkind⟩
    · rcases h.commands.before_left hled hw with hlt | ⟨heq, hlt⟩
      · exact Or.inl hlt
      · exact Or.inr ⟨heq, Or.inr ⟨hkind, hlt⟩⟩
    · rcases Nat.lt_or_eq_of_le (h.stamped _ hrec) with hlt | heq
      · exact Or.inl hlt
      · have heq : a.1 = m.scheduler.now := heq
        have := h.commandsFirst a.2.2 w (heq ▸ hrec)
        simp [commandsLeft, htick, hleft] at this
  · exact forall_record_note h.answered trivial

/-- The next event runs once no command is left. -/
theorem Sound.runEvent {m : Machine C E I} (h : m.Sound) {t : Tick C E I} (htick : m.tick = some t)
    (hnone : t.commands = []) {number : Nat} {work : E} {rest : List (Nat × E)}
    (hleft : t.events = (number, work) :: rest) :
    ({ m with tick := some { t with events := rest } }.note (.event number work)).Sound := by
  have hled : m.eventLedger.left = (number, work) :: rest := by
    simp [eventLedger, eventsLeft, htick, hleft]
  have he := h.events.run hled
  refine ⟨?_, ?_, ?_, ?_, ?_, ?_⟩
  · simpa [commandLedger, commandsLeft, htick, record, note, commandOrders, commandRuns]
      using h.commands
  · simpa [eventLedger, Ledger.run, eventsLeft, record, note, eventOrders, eventRuns, withdrawals]
      using he
  · exact forall_record_note h.stamped (Nat.le_refl _)
  · intro k w _
    simp [commandsLeft, note, hnone]
  · simp only [turns, record_note, List.filterMap_append, List.pairwise_append]
    refine ⟨h.inTurn, by simp [turn?], ?_⟩
    intro a ha b hb
    obtain rfl : b = (m.scheduler.now, 1, number) := by simpa [turn?] using hb
    rcases mem_turns ha with ⟨w, hw, hkind⟩ | ⟨w, hw, hrec, hkind⟩
    · rcases Nat.lt_or_eq_of_le (h.commands.past _ hw) with hlt | heq
      · exact Or.inl hlt
      · exact Or.inr ⟨heq, Or.inl (by simp [hkind])⟩
    · rcases h.events.before_left hled hw with hlt | ⟨heq, hlt⟩
      · exact Or.inl hlt
      · exact Or.inr ⟨heq, Or.inr ⟨hkind, hlt⟩⟩
  · exact forall_record_note h.answered trivial

/-- A call on a glide changes nothing but the record and what the glide performs. -/
theorem Sound.noteGlide {m : Machine C E I} (h : m.Sound) (number : Nat) (work : I) (call : Call) :
    (m.note (.glide number work call)).Sound := by
  refine ⟨?_, ?_, ?_, ?_, ?_, ?_⟩
  · simpa [commandLedger, commandsLeft, record, note, commandOrders, commandRuns] using h.commands
  · simpa [eventLedger, eventsLeft, record, note, eventOrders, eventRuns, withdrawals] using h.events
  · exact forall_record_note h.stamped (Nat.le_refl _)
  · intro k w he
    exact h.commandsFirst k w (by simpa [record, note] using he)
  · have hnone : turn? (m.scheduler.now, (.glide number work call : Happening C E I)) = none := rfl
    simpa [turns, hnone] using h.inTurn
  · exact forall_record_note h.answered trivial

/-- All that the turn of a glide can be: its start, an update, or the update that is the last and its end. -/
theorem moveGlide_cases (script : Script C E I) (m : Machine C E I) (g : Glide I) :
    (g.startedAt = none ∧
      m.moveGlide script g = m.callGlide script { g with startedAt := some m.scheduler.now } .start) ∨
    (∃ start elapsed, g.startedAt = some start ∧ elapsed = min (m.scheduler.now - start) g.duration ∧
      ¬ g.duration ≤ elapsed ∧ m.moveGlide script g = m.callGlide script g (.update elapsed g.duration)) ∨
    (∃ start elapsed u, g.startedAt = some start ∧ elapsed = min (m.scheduler.now - start) g.duration ∧
      g.duration ≤ elapsed ∧ u = m.callGlide script g (.update elapsed g.duration) ∧
      m.moveGlide script g = ((u.1.callGlide script u.2 .finish).1,
        { (u.1.callGlide script u.2 .finish).2 with hasEnded := true })) := by
  cases hstart : g.startedAt with
  | none =>
    refine .inl ⟨rfl, ?_⟩
    simp only [moveGlide, hstart]
  | some start =>
    by_cases hfull : g.duration ≤ min (m.scheduler.now - start) g.duration
    · refine .inr (.inr ⟨start, _, _, rfl, rfl, hfull, rfl, ?_⟩)
      simp only [moveGlide, hstart]
      exact if_pos hfull
    · refine .inr (.inl ⟨start, _, rfl, rfl, hfull, ?_⟩)
      simp only [moveGlide, hstart]
      exact if_neg hfull

/-- What every call on a glide keeps is kept by its turn. -/
theorem keeps_moveGlide {P : Machine C E I → Prop} {script : Script C E I}
    (hcall : ∀ m, P m → ∀ g call, P (m.callGlide script g call).1) {m : Machine C E I} (h : P m)
    (g : Glide I) : P (m.moveGlide script g).1 := by
  rcases moveGlide_cases script m g with ⟨-, heq⟩ | ⟨_, _, -, -, -, heq⟩ | ⟨_, _, _, -, -, -, rfl, heq⟩ <;>
    rw [heq]
  · exact hcall _ h _ _
  · exact hcall _ h _ _
  · exact hcall _ (hcall _ h _ _) _ _

theorem Sound.moveGlide {script : Script C E I} (hscript : script.NeverClears) {m : Machine C E I}
    (h : m.Sound) (g : Glide I) : (m.moveGlide script g).1.Sound :=
  keeps_moveGlide (fun _ h g call =>
    (h.noteGlide g.number g.work call).perform (hscript.glide g.work call)) h g

theorem tick_callGlide (script : Script C E I) (m : Machine C E I) (g : Glide I) (call : Call) :
    (m.callGlide script g call).1.tick = m.tick := by
  simp [callGlide, tick_perform]

theorem tick_moveGlide (script : Script C E I) (m : Machine C E I) (g : Glide I) :
    (m.moveGlide script g).1.tick = m.tick :=
  keeps_moveGlide (P := fun n => n.tick = m.tick) (fun n h g call =>
    (tick_callGlide script n g call).trans h) rfl g

theorem now_callGlide (script : Script C E I) (m : Machine C E I) (g : Glide I) (call : Call) :
    (m.callGlide script g call).1.scheduler.now = m.scheduler.now := by
  simp [callGlide, now_perform]

theorem now_moveGlide (script : Script C E I) (m : Machine C E I) (g : Glide I) :
    (m.moveGlide script g).1.scheduler.now = m.scheduler.now :=
  keeps_moveGlide (P := fun n => n.scheduler.now = m.scheduler.now) (fun n h g call =>
    (now_callGlide script n g call).trans h) rfl g

/-- Which glides are in progress is of no account for commands and events. -/
theorem Sound.setTick {m : Machine C E I} (h : m.Sound) (tick : Option (Tick C E I))
    (hcommands : (tick.map Tick.commands).getD [] = m.commandsLeft)
    (hevents : (tick.map Tick.events).getD [] = m.eventsLeft) :
    ({ m with tick := tick } : Machine C E I).Sound := by
  refine ⟨?_, ?_, h.stamped, ?_, h.inTurn, h.answered⟩
  · have := h.commands
    simp only [commandLedger, ← hcommands] at this
    exact this
  · have := h.events
    simp only [eventLedger, ← hevents] at this
    exact this
  · intro k w he
    rw [← h.commandsFirst k w he]
    exact hcommands

theorem Sound.putBack {m : Machine C E I} (h : m.Sound) (moved : List (Glide I))
    (hcommands : m.commandsLeft = []) (hevents : m.eventsLeft = []) : (m.putBack moved).Sound := by
  have := h.setTick none hcommands.symm hevents.symm
  exact ⟨this.commands, this.events, this.stamped, this.commandsFirst, this.inTurn, this.answered⟩

/-- All that a step can be. -/
theorem step_cases (script : Script C E I) (m : Machine C E I) :
    (m.tick = none ∧ m.step script = m.begin) ∨
    (∃ t n work rest, m.tick = some t ∧ t.commands = (n, work) :: rest ∧
      m.step script = ({ m with tick := some { t with commands := rest } }.note
        (.command n work)).perform (script.command work)) ∨
    (∃ t n work rest, m.tick = some t ∧ t.commands = [] ∧ t.events = (n, work) :: rest ∧
      m.step script = ({ m with tick := some { t with events := rest } }.note
        (.event n work)).perform (script.event work)) ∨
    (∃ t g rest, m.tick = some t ∧ t.commands = [] ∧ t.events = [] ∧ t.waiting = g :: rest ∧
      m.step script = { (m.moveGlide script g).1 with
        tick := some { t with waiting := rest, moved := t.moved ++ [(m.moveGlide script g).2] } }) ∨
    (∃ t, m.tick = some t ∧ t.commands = [] ∧ t.events = [] ∧ t.waiting = [] ∧
      m.step script = m.putBack t.moved) := by
  cases htick : m.tick with
  | none => exact Or.inl ⟨rfl, by simp [step, htick]⟩
  | some t =>
    refine Or.inr ?_
    cases hc : t.commands with
    | cons p rest => exact Or.inl ⟨t, p.1, p.2, rest, rfl, hc, by simp [step, htick, hc]⟩
    | nil =>
      refine Or.inr ?_
      cases he : t.events with
      | cons p rest => exact Or.inl ⟨t, p.1, p.2, rest, rfl, hc, he, by simp [step, htick, hc, he]⟩
      | nil =>
        refine Or.inr ?_
        cases hw : t.waiting with
        | cons g rest =>
          exact Or.inl ⟨t, g, rest, rfl, hc, he, hw, by simp [step, htick, hc, he, hw]⟩
        | nil => exact Or.inr ⟨t, rfl, hc, he, hw, by simp [step, htick, hc, he, hw]⟩

theorem Sound.step {script : Script C E I} (hscript : script.NeverClears) {m : Machine C E I}
    (h : m.Sound) : (m.step script).Sound := by
  rcases step_cases script m with ⟨hrest, heq⟩ | ⟨t, n, work, rest, htick, hc, heq⟩ |
    ⟨t, n, work, rest, htick, hc, he, heq⟩ | ⟨t, g, rest, htick, hc, he, -, heq⟩ |
    ⟨t, htick, hc, he, -, heq⟩
  · rw [heq]
    exact h.begin hrest
  · rw [heq]
    exact (h.runCommand htick hc).perform (hscript.command work)
  · rw [heq]
    exact (h.runEvent htick hc he).perform (hscript.event work)
  · have hm := h.moveGlide hscript g
    have ht := tick_moveGlide script m g
    rw [heq]
    exact hm.setTick _ (by simp [commandsLeft, ht, htick]) (by simp [eventsLeft, ht, htick])
  · rw [heq]
    exact h.putBack _ (by simp [commandsLeft, htick, hc]) (by simp [eventsLeft, htick, he])

theorem Sound.run {script : Script C E I} (hscript : script.NeverClears) {m : Machine C E I}
    (h : m.Sound) {moves : List (Move C E I)} (hclear : .call .clear ∉ moves) :
    (m.run script moves).Sound :=
  keeps_run (fun _ h _ hmem => h.call fun heq => hclear (heq ▸ hmem)) (fun _ h => h.step hscript) h

theorem now_step (script : Script C E I) (m : Machine C E I) :
    (m.step script).scheduler.now = m.scheduler.now + if m.tick.isNone then 1 else 0 := by
  rcases step_cases script m with ⟨hrest, heq⟩ | ⟨t, n, work, rest, htick, -, heq⟩ |
    ⟨t, n, work, rest, htick, -, -, heq⟩ | ⟨t, g, rest, htick, -, -, -, heq⟩ |
    ⟨t, htick, -, -, -, heq⟩
  · simp [heq, hrest, Machine.begin]
  · simp [heq, htick, now_perform]
  · simp [heq, htick, now_perform]
  · simp [heq, htick, now_moveGlide]
  · simp [heq, htick, putBack]

/-- Milliseconds begin one after another, none twice and none left out. -/
theorem begun_run (script : Script C E I) (m : Machine C E I) (moves : List (Move C E I)) :
    begun script m moves = List.range' (m.scheduler.now + 1)
      ((m.run script moves).scheduler.now - m.scheduler.now) ∧
    m.scheduler.now ≤ (m.run script moves).scheduler.now := by
  induction moves generalizing m with
  | nil => simp [begun, run]
  | cons mv rest ih =>
    obtain ⟨hb, hle⟩ := ih (m.move script mv)
    simp only [run, List.foldl_cons] at hb hle ⊢
    cases mv with
    | call operation =>
      have hnow : (m.move script (.call operation)).scheduler.now = m.scheduler.now := by
        simp [move]
      rw [hnow] at hb hle
      exact ⟨by simpa [begun] using hb, hle⟩
    | step =>
      have hnow := now_step script m
      cases htick : m.tick with
      | none =>
        simp only [move, hnow, htick, Option.isNone_none, if_true] at hb hle ⊢
        refine ⟨?_, by omega⟩
        simp only [begun, htick, move, hb]
        rw [← List.range'_succ]
        congr 1
        omega
      | some t =>
        simp only [move, hnow, htick, Option.isNone_some, Bool.false_eq_true, if_false,
          Nat.add_zero] at hb hle ⊢
        exact ⟨by simpa [begun, htick, move] using hb, hle⟩

/-- A step leaves one piece less of the millisecond in progress. -/
theorem pending_step (script : Script C E I) {m : Machine C E I} (hbusy : m.tick ≠ none) :
    m.pending = (m.step script).pending + 1 := by
  rcases step_cases script m with ⟨hrest, -⟩ | ⟨t, n, work, rest, htick, hc, heq⟩ |
    ⟨t, n, work, rest, htick, hc, he, heq⟩ | ⟨t, g, rest, htick, hc, he, hw, heq⟩ |
    ⟨t, htick, hc, he, hw, heq⟩
  · exact absurd hrest hbusy
  · simp [heq, pending, tick_perform, htick, Tick.size, hc]
    omega
  · simp [heq, pending, tick_perform, htick, Tick.size, hc, he]
    omega
  · simp [heq, pending, htick, Tick.size, hc, he, hw]
  · simp [heq, pending, htick, Tick.size, hc, he, hw, putBack]

/-- Left alone, the loop completes the millisecond in progress and begins no other. -/
theorem complete_spec (script : Script C E I) (m : Machine C E I) :
    (m.complete script).tick = none ∧ (m.complete script).scheduler.now = m.scheduler.now := by
  suffices go : ∀ n, ∀ m : Machine C E I, m.pending = n →
      (steps script n m).tick = none ∧ (steps script n m).scheduler.now = m.scheduler.now from
    go _ m rfl
  intro n
  induction n with
  | zero =>
    intro m hn
    cases htick : m.tick with
    | none => exact ⟨htick, rfl⟩
    | some t => simp [pending, htick, Tick.size] at hn
  | succ n ih =>
    intro m hn
    have hbusy : m.tick ≠ none := by
      intro hrest
      simp [pending, hrest] at hn
    have hnow := now_step script m
    have := pending_step script hbusy
    obtain ⟨hdone, hsame⟩ := ih (m.step script) (by omega)
    refine ⟨hdone, hsame.trans ?_⟩
    rw [hnow, if_neg (by simpa using hbusy), Nat.add_zero]

/-- Work accepted in one millisecond for a time is given the later of that time and the next
millisecond, and the caller is told so. It runs then, once and at no other time: it has run when that
millisecond is completed, unless it is an event that was taken back, which never runs. Runs follow
one another by millisecond, in one of them the commands before the events, and of one kind in the
order of acceptance. Milliseconds begin one after another, and each can be completed. -/
theorem runs_once_on_time (script : Script C E I) (start : Nat) (moves : List (Move C E I))
    (hscript : script.NeverClears) (hmoves : .call .clear ∉ moves) :
    let m := (startAt C E I start).run script moves
    (∀ e ∈ m.record, Answered e) ∧
    (∀ number time command, (commandOrders m.record)[number]? = some (time, command) →
      (Ledger.runs (commandRuns m.record) number = [] ∨
        Ledger.runs (commandRuns m.record) number = [(time, number, command)]) ∧
      (m.HasCompleted time →
        Ledger.runs (commandRuns m.record) number = [(time, number, command)])) ∧
    (∀ number time event, (eventOrders m.record)[number]? = some (time, event) →
      (Ledger.runs (eventRuns m.record) number = [] ∨
        Ledger.runs (eventRuns m.record) number = [(time, number, event)]) ∧
      (number ∈ withdrawals m.record → Ledger.runs (eventRuns m.record) number = []) ∧
      (m.HasCompleted time → number ∉ withdrawals m.record →
        Ledger.runs (eventRuns m.record) number = [(time, number, event)])) ∧
    (∀ e ∈ commandRuns m.record, (commandOrders m.record)[e.2.1]? = some (e.1, e.2.2)) ∧
    (∀ e ∈ eventRuns m.record, (eventOrders m.record)[e.2.1]? = some (e.1, e.2.2)) ∧
    (turns m.record).Pairwise TurnBefore ∧
    begun script (startAt C E I start) moves =
      List.range' (start + 1) (m.scheduler.now - start) ∧
    (m.complete script).tick = none ∧ (m.complete script).scheduler.now = m.scheduler.now := by
  intro m
  have h : m.Sound := (sound_startAt start).run hscript hmoves
  have hover : ∀ {time}, m.HasCompleted time →
      time < m.scheduler.now ∨ time = m.scheduler.now ∧ m.commandsLeft = [] ∧ m.eventsLeft = [] := by
    rintro time (hpast | ⟨hnow, hrest⟩)
    · exact Or.inl hpast
    · have hnone := Option.isNone_iff_eq_none.mp hrest
      exact Or.inr ⟨hnow, by simp [commandsLeft, hnone], by simp [eventsLeft, hnone]⟩
  refine ⟨h.answered, ?_, ?_, ?_, ?_, h.inTurn, ?_, complete_spec script m⟩
  · intro number time command horder
    refine ⟨h.commands.runs_cases horder, fun hdone => ?_⟩
    exact h.commands.ran_of_completed horder (List.not_mem_nil)
      ((hover hdone).imp_right fun h => ⟨h.1, h.2.1⟩)
  · intro number time event horder
    refine ⟨h.events.runs_cases horder, h.events.not_ran_of_gone, fun hdone hkept => ?_⟩
    exact h.events.ran_of_completed horder hkept ((hover hdone).imp_right fun h => ⟨h.1, h.2.2⟩)
  · intro e he
    exact h.commands.agrees e (List.mem_append_left _ (List.mem_append_left _ he))
  · intro e he
    exact h.events.agrees e (List.mem_append_left _ (List.mem_append_left _ he))
  · exact (begun_run script _ moves).1

/-- Commands that have another accepted for the millisecond in progress, and try to take back the
second event. -/
def followUps : Script Bool Bool Unit where
  command again := if again then [.schedule 0 false, .withdraw 1] else []
  event _ := []
  glide work _ := (work, [])

def followUpMoves : List (Move Bool Bool Unit) :=
  [.call (.scheduleEvent 5 true), .call (.scheduleEvent 1 true), .call (.schedule 0 true), .step,
    .call (.withdraw 0), .step, .step, .step, .step, .step, .step]

/-- The second command is too late for the first millisecond; the second event runs, being out of
the queue already when it is to be taken back; the first one, withdrawn in time, never runs. -/
theorem follow_up_runs_once_on_time :
    followUps.NeverClears ∧ .call .clear ∉ followUpMoves ∧
      Ledger.runs (commandRuns ((startAt Bool Bool Unit 0).run followUps followUpMoves).record) 1 =
        [(2, 1, false)] ∧
      Ledger.runs (eventRuns ((startAt Bool Bool Unit 0).run followUps followUpMoves).record) 1 =
        [(1, 1, true)] ∧
      Ledger.runs (eventRuns ((startAt Bool Bool Unit 0).run followUps followUpMoves).record) 0 =
        [] := by
  have hscript : followUps.NeverClears :=
    ⟨fun work => by cases work <;> simp [followUps], by simp [followUps], by simp [followUps]⟩
  have hmoves : .call .clear ∉ followUpMoves := by simp [followUpMoves]
  obtain ⟨-, hcommands, hevents, -⟩ := runs_once_on_time followUps 0 followUpMoves hscript hmoves
  have hnow : ((startAt Bool Bool Unit 0).run followUps followUpMoves).scheduler.now = 2 := by decide
  have hrest : ((startAt Bool Bool Unit 0).run followUps followUpMoves).tick.isNone := by decide
  refine ⟨hscript, hmoves, (hcommands 1 2 false (by decide)).2 (Or.inr ⟨hnow.symm, hrest⟩),
    (hevents 1 1 true (by decide)).2.2 (Or.inl (by rw [hnow]; decide)) (by decide),
    (hevents 0 5 true (by decide)).2.1 (by decide)⟩

end Machine

end ScoreText
