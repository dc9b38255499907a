import ScoreText.Proofs.Live.Stopping

/-!
When a scheduler is idle. Between milliseconds whatever it holds is still to be done: what waits is for a
later millisecond, and the glides that it has are those that stand. So it is idle just when no millisecond
to come has anything to do.
-/

set_option autoImplicit false

namespace ScoreText

variable {C E I : Type}

namespace Agenda

variable {α : Type} {a : Agenda α} {now time : Nat} {times : List Nat}

/-- Every bucket is for a later time, which is one of some times, and holds something. -/
def Ahead (a : Agenda α) (now : Nat) (times : List Nat) : Prop :=
  ∀ b ∈ a.buckets, now < b.1 ∧ b.1 ∈ times ∧ b.2 ≠ []

theorem mem_of_addTo {item : α} {buckets : List (Nat × List α)} {b : Nat × List α}
    (h : b ∈ addTo time item buckets) : b ∈ buckets ∨ b.1 = time ∧ b.2 ≠ [] := by
  induction buckets with
  | nil =>
    rw [addTo, List.mem_singleton] at h
    exact .inr (by simp [h])
  | cons c rest ih =>
    simp only [addTo] at h
    split at h
    · rcases List.mem_cons.mp h with rfl | h
      · exact .inr ⟨rfl, List.cons_ne_nil _ _⟩
      · exact .inl h
    · split at h
      · rename_i _ htime
        rcases List.mem_cons.mp h with rfl | h
        · exact .inr ⟨htime.symm, by simp⟩
        · exact .inl (List.mem_cons_of_mem _ h)
      · rcases List.mem_cons.mp h with rfl | h
        · exact .inl List.mem_cons_self
        · exact (ih h).imp_left (List.mem_cons_of_mem _)

theorem ahead_empty : (Agenda.empty : Agenda α).Ahead now times := List.forall_mem_nil _

theorem Ahead.mono (h : a.Ahead now times) {more : List Nat} (hmore : times ⊆ more) :
    a.Ahead now more :=
  fun b hb => ⟨(h b hb).1, hmore (h b hb).2.1, (h b hb).2.2⟩

theorem Ahead.add (h : a.Ahead now times) (item : α) (hlater : now < time) (htime : time ∈ times) :
    (a.add time item).Ahead now times := by
  intro b hb
  rcases mem_of_addTo hb with hb | ⟨rfl, hfull⟩
  · exact h b hb
  · exact ⟨hlater, htime, hfull⟩

theorem Ahead.remove (h : a.Ahead now times) (gone : α → Bool) : (a.remove gone).Ahead now times := by
  intro b hb
  obtain ⟨hmem, hfull⟩ := List.mem_filter.mp hb
  obtain ⟨c, hc, rfl⟩ := List.mem_map.mp hmem
  exact ⟨(h c hc).1, (h c hc).2.1, by simpa using hfull⟩

/-- The bucket of the next time is the only one that is not for a time after that. -/
theorem Ahead.clearAt (h : a.Ahead now times) : (a.clearAt (now + 1)).Ahead (now + 1) times := by
  intro b hb
  obtain ⟨hmem, hother⟩ := List.mem_filter.mp hb
  obtain ⟨hlater, htime, hfull⟩ := h b hmem
  have hne : b.1 ≠ now + 1 := by simpa using hother
  exact ⟨by omega, htime, hfull⟩

theorem Ahead.itemsAt_ne_nil (h : a.Ahead now times) {b : Nat × List α} (hb : b ∈ a.buckets) :
    a.itemsAt b.1 ≠ [] := by
  intro hnone
  cases hlookup : a.buckets.lookup b.1 with
  | none =>
    have hother := List.lookup_eq_none_iff.mp hlookup b hb
    simp at hother
  | some items =>
    obtain ⟨front, back, hsplit, -⟩ := List.lookup_eq_some_iff.mp hlookup
    have hitems : items = [] := by simpa [itemsAt, hlookup] using hnone
    exact (h (b.1, items) (by simp [hsplit])).2.2 hitems

theorem Ahead.clearAt_of_itemsAt (h : a.Ahead now times) (hnone : a.itemsAt time = []) :
    a.clearAt time = a := by
  have hothers : a.buckets.filter (fun b => !b.1 == time) = a.buckets := by
    refine List.filter_eq_self.mpr fun b hb => ?_
    have hne : b.1 ≠ time := fun he => h.itemsAt_ne_nil hb (he ▸ hnone)
    simpa using hne
  rw [Agenda.clearAt, hothers]

end Agenda

/-- Whether a command, an event or a glide is called, and not the scheduler. -/
def Happening.isWork : Happening C E I → Bool
  | .did _ _ => false
  | _ => true

namespace Record

/-- The commands and events that ran and the calls on glides. -/
def works (record : List (Nat × Happening C E I)) : List (Nat × Happening C E I) :=
  record.filter fun e => e.2.isWork

/-- The times that work was asked for, each with the millisecond of the asking. -/
def requests (record : List (Nat × Happening C E I)) : List (Nat × Nat) :=
  record.filterMap fun
    | (now, .did (.schedule time _) _) => some (now, time)
    | (now, .did (.scheduleEvent time _) _) => some (now, time)
    | _ => none

/-- The milliseconds that work was accepted for. -/
def landings (record : List (Nat × Happening C E I)) : List Nat :=
  (requests record).map fun r => max r.2 (r.1 + 1)

theorem landings_append (before after : List (Nat × Happening C E I)) :
    landings (before ++ after) = landings before ++ landings after := by
  simp only [landings, requests, List.filterMap_append, List.map_append]

/-- Where no time was asked for beyond a limit, and the limit is still to come, no work was accepted for a
later millisecond. -/
theorem landings_le {record : List (Nat × Happening C E I)} {now limit : Nat}
    (hstamped : ∀ e ∈ record, e.1 ≤ now) (hnow : now < limit)
    (hasked : ∀ r ∈ requests record, r.2 ≤ limit) : ∀ time ∈ landings record, time ≤ limit := by
  intro time htime
  obtain ⟨r, hr, rfl⟩ := List.mem_map.mp htime
  have hmoment : r.1 ≤ now := by
    obtain ⟨⟨moment, happening⟩, he, hsome⟩ := List.mem_filterMap.mp hr
    split at hsome
    · next heq => exact Option.some.inj hsome ▸ (Prod.mk.inj heq).1 ▸ hstamped _ he
    · next heq => exact Option.some.inj hsome ▸ (Prod.mk.inj heq).1 ▸ hstamped _ he
    · cases hsome
  exact Nat.max_le.mpr ⟨hasked r hr, by omega⟩

/-- Work on record is there to stay. -/
theorem works_ne {before record : List (Nat × Happening C E I)} {e : Nat × Happening C E I}
    (he : e.2.isWork = true) (h : before ++ [e] <+: record) : works record ≠ works before := by
  obtain ⟨after, rfl⟩ := h
  intro hsame
  have hlength := congrArg List.length hsame
  simp only [works, List.filter_append, List.filter_cons, he, if_true, List.filter_nil,
    List.length_append, List.length_singleton] at hlength
  omega

end Record

namespace Machine

open Record

/-- Everything that a machine holds is still to be done. -/
structure Tidy (m : Machine C E I) : Prop where
  commands : m.scheduler.commands.agenda.Ahead m.scheduler.now (landings m.record)
  events : m.scheduler.events.agenda.Ahead m.scheduler.now (landings m.record)
  live : ∀ g ∈ m.scheduler.glides, g.number ∈ m.scheduler.live

namespace Tidy

variable {m : Machine C E I}

theorem startAt (start : Nat) : (Machine.startAt C E I start).Tidy :=
  ⟨Agenda.ahead_empty, Agenda.ahead_empty, List.forall_mem_nil _⟩

theorem note (h : m.Tidy) (e : Happening C E I) : (m.note e).Tidy := by
  have hmore : landings m.record ⊆ landings (m.note e).record := by
    rw [record_note, landings_append]
    exact List.subset_append_left _ _
  exact ⟨h.commands.mono hmore, h.events.mono hmore, h.live⟩

theorem live_removeGlide (h : m.Tidy) (k : Nat) :
    ∀ g ∈ (m.scheduler.removeGlide k).glides, g.number ∈ (m.scheduler.removeGlide k).live := by
  rw [Scheduler.removeGlide]
  split
  · intro g hg
    obtain ⟨hmem, hother⟩ := List.mem_filter.mp hg
    exact List.mem_filter.mpr ⟨h.live g hmem, hother⟩
  · exact h.live

/-- Whatever a caller or running work asks of the scheduler. -/
theorem call (h : m.Tidy) (operation : Operation C E I) : (m.call operation).Tidy := by
  have hrecord := record_call m operation
  rw [Scheduler.now_obey] at hrecord
  have hmore : landings m.record ⊆ landings (m.call operation).record := by
    rw [hrecord, landings_append]
    exact List.subset_append_left _ _
  have hcommands := h.commands.mono hmore
  have hevents := h.events.mono hmore
  cases operation with
  | schedule time command =>
    have hlanding : m.scheduler.landing time ∈ landings (m.call (.schedule time command)).record := by
      rw [hrecord, landings_append]
      exact List.mem_append_right _ List.mem_cons_self
    exact ⟨hcommands.add _ (Nat.le_max_right _ _) hlanding, hevents, h.live⟩
  | scheduleEvent time event =>
    have hlanding : m.scheduler.landing time ∈ landings (m.call (.scheduleEvent time event)).record := by
      rw [hrecord, landings_append]
      exact List.mem_append_right _ List.mem_cons_self
    exact ⟨hcommands, hevents.add _ (Nat.le_max_right _ _) hlanding, h.live⟩
  | withdraw k =>
    constructor <;> simp only [scheduler_call, Scheduler.obey]
    case commands => split <;> exact hcommands
    case events =>
      split
      · exact hevents.remove _
      · exact hevents
    case live => split <;> exact h.live
  | glide work duration =>
    refine ⟨hcommands, hevents, List.forall_mem_append.mpr ⟨fun g hg => ?_, ?_⟩⟩
    · exact List.mem_append_left _ (h.live g hg)
    · exact List.forall_mem_singleton.mpr (List.mem_append_right _ (List.mem_singleton.mpr rfl))
  | stop k =>
    constructor <;> simp only [scheduler_call, Scheduler.obey]
    case commands => split <;> simpa using hcommands
    case events => split <;> simpa using hevents
    case live =>
      split
      · exact h.live_removeGlide k
      · exact h.live
  | clear => exact ⟨Agenda.ahead_empty, Agenda.ahead_empty, List.forall_mem_nil _⟩
  | isIdle | time => exact ⟨hcommands, hevents, h.live⟩

theorem begin (h : m.Tidy) : m.begin.Tidy :=
  ⟨h.commands.clearAt, h.events.clearAt, List.forall_mem_nil _⟩

/-- Of the glides that come back, those that ended and those that were stopped meanwhile are left out. -/
theorem putBack {moved : List (Glide I)} (h : m.Tidy) (hkept : Kept m [] moved) :
    (m.putBack moved).Tidy := by
  refine ⟨h.commands, h.events, List.forall_mem_append.mpr ⟨fun g hg => ?_, fun g hg => ?_⟩⟩
  · exact List.contains_iff_mem.mp (List.mem_filter.mp hg).2
  · refine List.mem_filter.mpr ⟨h.live g hg, ?_⟩
    -- a glide that was added meanwhile bears another number than all that moved
    have hdistinct := hkept.housed.distinct
    rw [List.nil_append, List.map_append] at hdistinct
    have hother : ∀ f ∈ moved, f.number ≠ g.number := fun f hf =>
      (List.nodup_append.mp hdistinct).2.2 _ (List.mem_map_of_mem hf) _ (List.mem_map_of_mem hg)
    have habsent : g.number ∉ (moved.filter Glide.hasEnded).map Glide.number := by
      intro hmem
      obtain ⟨f, hf, hfg⟩ := List.mem_map.mp hmem
      exact hother f (List.mem_of_mem_filter hf) hfg
    simpa using habsent

end Tidy

theorem steady_tidy : Steady fun (m : Machine C E I) waiting moved => Kept m waiting moved ∧ m.Tidy where
  lasting h g hg := h.1.lasting g (List.mem_append_left _ hg)
  setTick h tick := ⟨h.1.setTick tick, h.2.commands, h.2.events, h.2.live⟩
  call h operation := ⟨h.1.call operation, h.2.call operation⟩
  command h _ _ := ⟨h.1.quiet (record_note _ _) rfl rfl rfl rfl rfl fun _ => rfl, h.2.note _⟩
  event h _ _ := ⟨h.1.quiet (record_note _ _) rfl rfl rfl rfl rfl fun _ => rfl, h.2.note _⟩
  more h work hc hnumber hended := ⟨h.1.callMore work hc hnumber hended, h.2.note _⟩
  last h work hc hnumber hended := ⟨h.1.callLast work hc hnumber hended, h.2.note _⟩
  begin h := ⟨h.1.begin, h.2.begin⟩
  putBack h := ⟨h.1.putBack, h.2.putBack h.1⟩

theorem Steady.steps {P : Machine C E I → List (Glide I) → List (Glide I) → Prop} (hP : Steady P)
    (script : Script C E I) {m : Machine C E I} (h : P m m.glidesWaiting m.glidesMoved) (n : Nat) :
    P (steps script n m) (steps script n m).glidesWaiting (steps script n m).glidesMoved := by
  induction n generalizing m with
  | zero => exact h
  | succ n ih => exact ih (hP.step script h)

theorem prefix_perform (m : Machine C E I) (operations : List (Operation C E I)) :
    m.record <+: (m.perform operations).record := by
  refine keeps_perform (P := fun n => m.record <+: n.record) (fun n h operation _ => h.trans ?_)
    List.prefix_rfl
  rw [record_call]
  exact List.prefix_append _ _

/-- Work is put on record before what it performs. -/
theorem prefix_note_perform (m : Machine C E I) (e : Happening C E I)
    (operations : List (Operation C E I)) :
    m.record ++ [(m.scheduler.now, e)] <+: ((m.note e).perform operations).record := by
  rw [← record_note]
  exact prefix_perform _ _

/-- A call on a glide is work. -/
theorem callGlide_works (script : Script C E I) (m : Machine C E I) (g : Glide I) (c : Call) :
    ∃ e : Nat × Happening C E I, e.2.isWork = true ∧
      m.record ++ [e] <+: (m.callGlide script g c).1.record :=
  ⟨(m.scheduler.now, .glide g.number g.work c), rfl, prefix_note_perform m _ _⟩

/-- As long as a millisecond has anything to do, a step does some of it. -/
theorem step_works (script : Script C E I) {m : Machine C E I} {t : Tick C E I} (htick : m.tick = some t)
    (hdue : t.commands ≠ [] ∨ t.events ≠ [] ∨ t.waiting ≠ []) :
    ∃ e : Nat × Happening C E I, e.2.isWork = true ∧ m.record ++ [e] <+: (m.step script).record := by
  rcases step_cases script m with ⟨hrest, -⟩ | ⟨t', n, work, rest, htick', -, heq⟩ |
    ⟨t', n, work, rest, htick', -, -, heq⟩ | ⟨t', g, rest, -, -, -, -, heq⟩ |
    ⟨t', htick', hc, he, hw, -⟩
  · rw [hrest] at htick
    cases htick
  · rw [heq]
    exact ⟨_, rfl, prefix_note_perform { m with tick := some { t' with commands := rest } }
      (.command n work) (script.command work)⟩
  · rw [heq]
    exact ⟨_, rfl, prefix_note_perform { m with tick := some { t' with events := rest } }
      (.event n work) (script.event work)⟩
  · have hmoved : ∃ e : Nat × Happening C E I, e.2.isWork = true ∧
        m.record ++ [e] <+: (m.moveGlide script g).1.record := by
      rcases moveGlide_cases script m g with ⟨-, heq⟩ | ⟨_, _, -, -, -, heq⟩ |
        ⟨_, _, u, -, -, -, rfl, heq⟩ <;> rw [heq]
      · exact callGlide_works script m _ _
      · exact callGlide_works script m _ _
      · obtain ⟨e, he, hfirst⟩ := callGlide_works script m g (.update _ g.duration)
        obtain ⟨f, -, hsecond⟩ := callGlide_works script (m.callGlide script g (.update _ _)).1 _ .finish
        exact ⟨e, he, hfirst.trans ((List.prefix_append _ _).trans hsecond)⟩
    rw [heq]
    exact hmoved
  · rw [htick] at htick'
    cases htick'
    simp [hc, he, hw] at hdue

/-- What holds of a machine between milliseconds. -/
structure Resting (m : Machine C E I) : Prop where
  tick : m.tick = none
  kept : Kept m [] []
  tidy : m.Tidy

/-- The next millisecond has nothing to do. -/
structure NothingDue (m : Machine C E I) : Prop where
  commands : m.scheduler.commands.dueAt (m.scheduler.now + 1) = []
  events : m.scheduler.events.dueAt (m.scheduler.now + 1) = []
  glides : m.scheduler.glides = []

/-- The machine a millisecond later, with nothing else changed. -/
def later (m : Machine C E I) : Machine C E I :=
  { m with scheduler := { m.scheduler with now := m.scheduler.now + 1 } }

namespace Resting

variable {m : Machine C E I}

theorem run (script : Script C E I) (start : Nat) (moves : List (Move C E I))
    (hrest : ((Machine.startAt C E I start).run script moves).tick = none) :
    ((Machine.startAt C E I start).run script moves).Resting := by
  have h := steady_tidy.run script ⟨Kept.startAt start, Tidy.startAt start⟩ moves
  simp only [glidesWaiting, glidesMoved, hrest] at h
  exact ⟨hrest, h.1, h.2⟩

theorem begin (h : m.Resting) : Kept m.begin m.begin.glidesWaiting m.begin.glidesMoved ∧ m.begin.Tidy :=
  ⟨h.kept.begin, h.tidy.begin⟩

theorem complete_begin (h : m.Resting) (script : Script C E I) : (m.begin.complete script).Resting := by
  have hdone := steady_tidy.steps script h.begin m.begin.pending
  have htick : (m.begin.complete script).tick = none := (complete_spec script m.begin).1
  rw [← complete, glidesWaiting, glidesMoved, htick] at hdone
  exact ⟨htick, hdone.1, hdone.2⟩

/-- A millisecond with nothing to do goes by. -/
theorem complete_begin_eq (h : m.Resting) (script : Script C E I) (hdue : m.NothingDue) :
    m.begin.complete script = m.later := by
  have htick : m.begin.tick = some ⟨[], [], [], []⟩ := by
    simp only [Machine.begin, hdue.commands, hdue.events, hdue.glides]
  have hstep : m.begin.complete script = m.begin.putBack [] := by
    simp [complete, pending, htick, Tick.size, steps, step]
  have hcommands : m.scheduler.commands.passed (m.scheduler.now + 1) = m.scheduler.commands := by
    rw [Queue.passed, h.tidy.commands.clearAt_of_itemsAt hdue.commands]
  have hevents : m.scheduler.events.passed (m.scheduler.now + 1) = m.scheduler.events := by
    rw [Queue.passed, h.tidy.events.clearAt_of_itemsAt hdue.events]
  rw [hstep]
  simp [Machine.putBack, Machine.begin, later, hcommands, hevents, h.tick, hdue.glides]

theorem later (h : m.Resting) (script : Script C E I) (hdue : m.NothingDue) : m.later.Resting :=
  h.complete_begin_eq script hdue ▸ h.complete_begin script

/-- A millisecond with anything to do leaves work on record. -/
theorem works_complete_begin (h : m.Resting) (script : Script C E I) (hdue : ¬ m.NothingDue) :
    works (m.begin.complete script).record ≠ works m.record := by
  obtain ⟨t, ht⟩ : ∃ t, t = (⟨m.scheduler.commands.dueAt (m.scheduler.now + 1),
    m.scheduler.events.dueAt (m.scheduler.now + 1), m.scheduler.glides, []⟩ : Tick C E I) := ⟨_, rfl⟩
  have htick : m.begin.tick = some t := by rw [ht, Machine.begin]
  have hsome : t.commands ≠ [] ∨ t.events ≠ [] ∨ t.waiting ≠ [] := by
    by_contra hnone
    simp only [not_or, not_not] at hnone
    exact hdue (by rw [ht] at hnone; exact ⟨hnone.1, hnone.2.1, hnone.2.2⟩)
  obtain ⟨e, he, hgrown⟩ := step_works script htick hsome
  have hpending : m.begin.pending = (m.begin.step script).pending + 1 :=
    pending_step script (by simp [htick])
  have hrest : (m.begin.step script).record <+: (m.begin.complete script).record := by
    rw [complete, hpending]
    exact ((steady_tidy.and_prefix _).steps script
      ⟨steady_tidy.step script h.begin, List.prefix_rfl⟩ _).2
  exact works_ne he (hgrown.trans hrest)

theorem nothingDue_of_isIdle (h : m.Resting) (hidle : m.scheduler.isIdle = true) : m.NothingDue := by
  simp only [Scheduler.isIdle, Agenda.isEmpty, Bool.and_eq_true, List.isEmpty_iff] at hidle
  obtain ⟨⟨hcommands, hevents⟩, hlive⟩ := hidle
  refine ⟨?_, ?_, List.eq_nil_iff_forall_not_mem.mpr fun g hg => ?_⟩
  · rw [Queue.dueAt, Agenda.itemsAt, hcommands]
    rfl
  · rw [Queue.dueAt, Agenda.itemsAt, hevents]
    rfl
  · have hstands := h.tidy.live g hg
    rw [hlive] at hstands
    cases hstands

/-- An idle scheduler stays so, whatever time goes by. -/
theorem record_pass (h : m.Resting) (script : Script C E I) (hidle : m.scheduler.isIdle = true) (n : Nat) :
    (pass script n m).record = m.record := by
  induction n generalizing m with
  | zero => rfl
  | succ n ih =>
    have hdue := h.nothingDue_of_isIdle hidle
    rw [pass, h.complete_begin_eq script hdue]
    exact ih (h.later script hdue) hidle

/-- What waits for a millisecond is run by then, or something else before it. -/
theorem exists_works (h : m.Resting) (script : Script C E I) {distance : Nat}
    (hwaits : (∃ b ∈ m.scheduler.commands.agenda.buckets, b.1 = m.scheduler.now + 1 + distance) ∨
      ∃ b ∈ m.scheduler.events.agenda.buckets, b.1 = m.scheduler.now + 1 + distance) :
    ∃ n ≤ distance, works (pass script (n + 1) m).record ≠ works m.record := by
  induction distance generalizing m with
  | zero =>
    refine ⟨0, Nat.le_refl _, h.works_complete_begin script fun hdue => ?_⟩
    rcases hwaits with ⟨b, hb, hnext⟩ | ⟨b, hb, hnext⟩
    · exact h.tidy.commands.itemsAt_ne_nil hb (hnext ▸ hdue.commands)
    · exact h.tidy.events.itemsAt_ne_nil hb (hnext ▸ hdue.events)
  | succ distance ih =>
    by_cases hdue : m.NothingDue
    · have hnow : m.later.scheduler.now + 1 + distance = m.scheduler.now + 1 + (distance + 1) := by
        simp only [Machine.later]
        omega
      obtain ⟨n, hn, hworks⟩ := ih (h.later script hdue) (by rw [hnow]; exact hwaits)
      refine ⟨n + 1, Nat.succ_le_succ hn, ?_⟩
      rw [pass, h.complete_begin_eq script hdue]
      exact hworks
    · exact ⟨0, Nat.zero_le _, h.works_complete_begin script hdue⟩

/-- What is not idle has something to do by the last millisecond that work was accepted for, or in the next
one. -/
theorem works_advanceTo (h : m.Resting) (script : Script C E I) {limit : Nat}
    (hnow : m.scheduler.now < limit) (hlimit : ∀ time ∈ landings m.record, time ≤ limit)
    (hbusy : ¬ m.scheduler.isIdle = true) :
    ∃ time, m.scheduler.now < time ∧ time ≤ limit ∧
      works (m.advanceTo script time).record ≠ works m.record := by
  have hreached : ∀ {distance}, m.scheduler.now + 1 + distance ≤ limit →
      (∃ n ≤ distance, works (pass script (n + 1) m).record ≠ works m.record) →
      ∃ time, m.scheduler.now < time ∧ time ≤ limit ∧
        works (m.advanceTo script time).record ≠ works m.record := by
    rintro distance hwithin ⟨n, hn, hworks⟩
    refine ⟨m.scheduler.now + (n + 1), by omega, by omega, ?_⟩
    rwa [advanceTo, Nat.add_sub_cancel_left]
  have hwaits : ∀ time, m.scheduler.now < time → time ∈ landings m.record →
      (∃ b ∈ m.scheduler.commands.agenda.buckets, b.1 = time) ∨
        (∃ b ∈ m.scheduler.events.agenda.buckets, b.1 = time) →
      ∃ time, m.scheduler.now < time ∧ time ≤ limit ∧
        works (m.advanceTo script time).record ≠ works m.record := by
    intro time hlater hlanding hbucket
    obtain ⟨distance, rfl⟩ := Nat.exists_eq_add_of_le (Nat.succ_le_of_lt hlater)
    exact hreached (hlimit _ hlanding) (h.exists_works script hbucket)
  by_cases hcommands : m.scheduler.commands.agenda.buckets = []
  · by_cases hevents : m.scheduler.events.agenda.buckets = []
    · -- then a glide stands, and every millisecond calls it
      have hlive : m.scheduler.live ≠ [] := fun hnone =>
        hbusy (by simp [Scheduler.isIdle, Agenda.isEmpty, hcommands, hevents, hnone])
      obtain ⟨k, hk⟩ := List.exists_mem_of_ne_nil _ hlive
      obtain ⟨g, hg, -⟩ := h.kept.exists_of_live hk
      have hdue : ¬ m.NothingDue := fun hdue => by
        rw [hdue.glides] at hg
        cases hg
      exact @hreached 0 hnow ⟨0, Nat.le_refl _, h.works_complete_begin script hdue⟩
    · obtain ⟨b, hb⟩ := List.exists_mem_of_ne_nil _ hevents
      exact hwaits b.1 (h.tidy.events b hb).1 (h.tidy.events b hb).2.1 (.inr ⟨b, hb, rfl⟩)
  · obtain ⟨b, hb⟩ := List.exists_mem_of_ne_nil _ hcommands
    exact hwaits b.1 (h.tidy.commands b hb).1 (h.tidy.commands b hb).2.1 (.inl ⟨b, hb, rfl⟩)

end Resting

/-- Between milliseconds, the glides of a scheduler have distinct numbers, which are the live ones, and
none of them has ended; what waits is for later milliseconds, and no bucket is empty. The scheduler is
idle just when no advance to a later millisecond runs a command or an event or calls a glide, where it is
enough to look as far ahead as work was ever asked for. -/
theorem idle_iff_nothing_to_come (script : Script C E I) (start : Nat) (moves : List (Move C E I)) :
    let m := (Machine.startAt C E I start).run script moves
    m.tick = none →
      (m.scheduler.glides.map Glide.number).Nodup ∧
      (∀ k, k ∈ m.scheduler.live ↔ k ∈ m.scheduler.glides.map Glide.number) ∧
      (∀ g ∈ m.scheduler.glides, g.hasEnded = false) ∧
      (∀ b ∈ m.scheduler.commands.agenda.buckets, m.scheduler.now < b.1 ∧ b.2 ≠ []) ∧
      (∀ b ∈ m.scheduler.events.agenda.buckets, m.scheduler.now < b.1 ∧ b.2 ≠ []) ∧
      ∀ limit, m.scheduler.now < limit → (∀ r ∈ requests m.record, r.2 ≤ limit) →
        (m.scheduler.isIdle = true ↔ ∀ time, m.scheduler.now < time → time ≤ limit →
          works (m.advanceTo script time).record = works m.record) := by
  intro m hrest
  have h : m.Resting := Resting.run script start moves hrest
  have hdistinct := h.kept.housed.distinct
  refine ⟨hdistinct, fun k => ⟨h.kept.housed.live k, fun hk => ?_⟩,
    fun g hg => h.kept.lasting g hg, fun b hb => ⟨(h.tidy.commands b hb).1, (h.tidy.commands b hb).2.2⟩,
    fun b hb => ⟨(h.tidy.events b hb).1, (h.tidy.events b hb).2.2⟩,
    fun limit hnow hasked => ⟨fun hidle time _ _ => ?_, fun hquiet => ?_⟩⟩
  · obtain ⟨g, hg, rfl⟩ := List.mem_map.mp hk
    exact h.tidy.live g hg
  · rw [advanceTo, h.record_pass script hidle]
  · by_contra hbusy
    obtain ⟨time, hlater, hwithin, hworks⟩ := h.works_advanceTo script hnow
      (landings_le h.kept.logged.stamped hnow hasked) hbusy
    exact hworks (hquiet time hlater hwithin)

/-- Work that performs nothing. -/
def idler : Script Unit Unit Unit where
  command _ := []
  event _ := []
  glide work _ := (work, [])

/-- A glide over no time, and an event for much later. -/
def idlerMoves : List (Move Unit Unit Unit) :=
  [.call (.glide () 0), .call (.scheduleEvent 50 ()), .step, .step, .step, .step, .step, .step]

/-- When the glide has ended, the event is all that keeps the scheduler busy. -/
theorem idle_once_withdrawn :
    let m := (Machine.startAt Unit Unit Unit 0).run idler idlerMoves
    let n := (Machine.startAt Unit Unit Unit 0).run idler (idlerMoves ++ [.call (.withdraw 0)])
    (¬ ∀ time, 2 < time → time ≤ 50 → works (m.advanceTo idler time).record = works m.record) ∧
      ∀ time, 2 < time → time ≤ 50 → works (n.advanceTo idler time).record = works n.record := by
  intro m n
  have hbusy := (idle_iff_nothing_to_come idler 0 idlerMoves rfl).2.2.2.2.2 50 (by decide) (by decide)
  have hidle := (idle_iff_nothing_to_come idler 0 (idlerMoves ++ [.call (.withdraw 0)]) rfl).2.2.2.2.2 50
    (by decide) (by decide)
  exact ⟨fun hquiet => absurd (hbusy.mpr hquiet) (by decide), hidle.mp (by decide)⟩

end Machine

end ScoreText
