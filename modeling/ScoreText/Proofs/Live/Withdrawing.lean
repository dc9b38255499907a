import ScoreText.Proofs.Live.OnTime

/-!
What taking back an event comes to. The answer is the truth about what waits: an event that waits is taken
out and never starts. But the millisecond in progress took its events when it began, and one of them that
has not started yet can be taken back no more.
-/

set_option autoImplicit false

namespace ScoreText

namespace Ledger

variable {W : Type}

/-- All that waits is dropped. -/
def clear (l : Ledger W) : Ledger W :=
  { l with gone := l.gone ++ numbers l.queue.agenda.toList, queue := l.queue.cleared }

theorem Balanced.clear {l : Ledger W} (h : l.Balanced) : l.clear.Balanced := by
  have hlist : l.clear.queue.agenda.toList = [] := rfl
  have hsub : l.clear.schedule.Sublist l.schedule := by
    simp only [schedule, hlist]
    exact (List.Sublist.refl _).append (List.nil_sublist _)
  refine ⟨Agenda.ascending_empty, h.times, h.sorted.sublist hsub,
    fun e he => h.agrees e (hsub.subset he), ?_, h.past, ?_⟩
  · have hcomplete := h.complete
    simp only [schedule, numbers_append, List.append_assoc] at hcomplete
    simp only [schedule, hlist, numbers_append, List.append_assoc]
    refine (List.Perm.append_left _ (List.Perm.append_left _ ?_)).trans hcomplete
    exact (List.perm_append_comm : (l.gone ++ numbers l.queue.agenda.toList).Perm _)
  · rw [hlist]
    exact List.forall_mem_nil _

/-- A piece that was accepted was taken back, has run, is left in the millisecond in progress, or waits for
a later one. -/
theorem Balanced.whereabouts {l : Ledger W} (h : l.Balanced) {number time : Nat} {work : W}
    (horder : l.orders[number]? = some (time, work)) :
    number ∈ l.gone ∨ number ∈ numbers l.ran ∨ time = l.now ∨
      l.now < time ∧ number ∈ numbers l.queue.agenda.toList := by
  have hlt := (List.getElem?_eq_some_iff.mp horder).1
  have hall := h.complete.mem_iff.mpr (List.mem_range.mpr hlt)
  rcases List.mem_append.mp hall with hmem | hgone
  · obtain ⟨e, he, rfl⟩ := List.mem_map.mp hmem
    have hentry := h.agrees e he
    rw [horder] at hentry
    have htime : time = e.1 := congrArg Prod.fst (Option.some.inj hentry)
    simp only [schedule, List.mem_append] at he
    rcases he with (he | he) | he
    · exact .inr (.inl (List.mem_map_of_mem he))
    · obtain ⟨p, -, rfl⟩ := List.mem_map.mp he
      exact .inr (.inr (.inl htime))
    · exact .inr (.inr (.inr ⟨htime ▸ h.future e he, List.mem_map_of_mem he⟩))
  · exact .inl hgone

/-- What runs or has run is for a millisecond that has begun. -/
theorem Balanced.le_of_ran {l : Ledger W} (h : l.Balanced) {number time : Nat} {work : W}
    (horder : l.orders[number]? = some (time, work)) (hran : number ∈ numbers l.ran) :
    time ≤ l.now := by
  obtain ⟨e, he, rfl⟩ := List.mem_map.mp hran
  have hentry := h.agrees e (List.mem_append_left _ (List.mem_append_left _ he))
  rw [horder] at hentry
  have htime : time = e.1 := congrArg Prod.fst (Option.some.inj hentry)
  exact htime ▸ h.past e he

theorem Balanced.lt_of_waiting {l : Ledger W} (h : l.Balanced) {number : Nat}
    (hwaits : number ∈ numbers l.queue.agenda.toList) :
    ∃ time work, l.orders[number]? = some (time, work) ∧ l.now < time := by
  obtain ⟨e, he, rfl⟩ := List.mem_map.mp hwaits
  exact ⟨e.1, e.2.2, h.agrees e (List.mem_append_right _ he), h.future e he⟩

theorem Balanced.not_gone_of_waiting {l : Ledger W} (h : l.Balanced) {number : Nat}
    (hwaits : number ∈ numbers l.queue.agenda.toList) : number ∉ l.gone := by
  have hdisjoint := (List.nodup_append.mp h.nodup).2.2
  refine fun hgone => hdisjoint number ?_ number hgone rfl
  rw [schedule, numbers_append]
  exact List.mem_append_right _ hwaits

/-- What waits is what is for later and was not taken back. -/
theorem Balanced.waiting_iff {l : Ledger W} (h : l.Balanced) {number time : Nat} {work : W}
    (horder : l.orders[number]? = some (time, work)) :
    number ∈ numbers l.queue.agenda.toList ↔ number ∉ l.gone ∧ l.now < time := by
  constructor
  · intro hwaits
    obtain ⟨time', work', horder', hlater⟩ := h.lt_of_waiting hwaits
    rw [horder] at horder'
    have htime : time = time' := congrArg Prod.fst (Option.some.inj horder')
    exact ⟨h.not_gone_of_waiting hwaits, htime ▸ hlater⟩
  · rintro ⟨hkept, hlater⟩
    rcases h.whereabouts horder with hgone | hran | hnow | ⟨-, hwaits⟩
    · exact absurd hgone hkept
    · exact absurd (h.le_of_ran horder hran) (Nat.not_le_of_gt hlater)
    · exact absurd hnow (Nat.ne_of_gt hlater)
    · exact hwaits

end Ledger

variable {C E I : Type}

namespace Record

/-- An entry that removes an event: it is taken back, or everything is cleared before its millisecond has
begun. -/
def Drops (k : Nat) (before : List (Nat × Happening C E I)) : Nat × Happening C E I → Prop
  | (_, .did (.withdraw j) (.truth true)) => j = k
  | (now, .did .clear _) => ∃ time event, (eventOrders before)[k]? = some (time, event) ∧ now < time
  | _ => False

def Removed (k : Nat) (record : List (Nat × Happening C E I)) : Prop :=
  ∃ before e after, record = before ++ e :: after ∧ Drops k before e

def Started (k : Nat) (record : List (Nat × Happening C E I)) : Prop :=
  Ledger.runs (eventRuns record) k ≠ []

/-- Whether an event is still to come, as far as the record goes. -/
def Awaited (k : Nat) (record : List (Nat × Happening C E I)) : Prop :=
  ¬ Started k record ∧ ¬ Removed k record

/-- Whoever takes back an event is told whether it was still to come in a later millisecond. -/
def Truthful (record : List (Nat × Happening C E I)) : Prop :=
  ∀ before now k reply after, record = before ++ (now, .did (.withdraw k) reply) :: after →
    ∀ time event, (eventOrders before)[k]? = some (time, event) →
      (reply = .truth true ↔ Awaited k before ∧ now < time) ∧ (Awaited k before → now ≤ time)

theorem eventOrders_append (before after : List (Nat × Happening C E I)) :
    eventOrders (before ++ after) = eventOrders before ++ eventOrders after :=
  List.filterMap_append

theorem eventRuns_append (before after : List (Nat × Happening C E I)) :
    eventRuns (before ++ after) = eventRuns before ++ eventRuns after :=
  List.filterMap_append

theorem runs_eventRuns_append (before after : List (Nat × Happening C E I)) (k : Nat) :
    Ledger.runs (eventRuns (before ++ after)) k =
      Ledger.runs (eventRuns before) k ++ Ledger.runs (eventRuns after) k := by
  rw [eventRuns_append]
  exact List.filter_append ..

theorem order_append {before : List (Nat × Happening C E I)} {k : Nat} {order : Nat × E}
    (h : (eventOrders before)[k]? = some order) (after : List (Nat × Happening C E I)) :
    (eventOrders (before ++ after))[k]? = some order := by
  rw [eventOrders_append, List.getElem?_append_left (List.getElem?_eq_some_iff.mp h).1, h]

theorem started_iff {k : Nat} {record : List (Nat × Happening C E I)} :
    Started k record ↔ k ∈ Ledger.numbers (eventRuns record) := by
  simp only [Started, Ledger.runs, Ledger.numbers, ne_eq, List.filter_eq_nil_iff, beq_iff_eq, not_forall,
    not_not, List.mem_map, exists_prop]

theorem Removed.append {k : Nat} {before : List (Nat × Happening C E I)} (h : Removed k before)
    (after : List (Nat × Happening C E I)) : Removed k (before ++ after) := by
  obtain ⟨front, e, back, rfl, hdrops⟩ := h
  exact ⟨front, e, back ++ after, by simp, hdrops⟩

/-- Where no later entry removes it, an event was removed before if at all. -/
theorem Removed.of_append {k : Nat} {record more : List (Nat × Happening C E I)}
    (h : Removed k (record ++ more))
    (hmore : ∀ front e back, more = front ++ e :: back → ¬ Drops k (record ++ front) e) :
    Removed k record := by
  obtain ⟨before, e, after, hsplit, hdrops⟩ := h
  rcases List.append_eq_append_iff.mp hsplit with ⟨front, rfl, hfront⟩ | ⟨rest, hrecord, hrest⟩
  · exact absurd hdrops (hmore front e after hfront)
  · cases rest with
    | nil =>
      rw [List.append_nil] at hrecord
      refine absurd hdrops ?_
      rw [← hrecord, ← List.append_nil record]
      exact hmore [] e after hrest.symm
    | cons d rest =>
      obtain ⟨rfl, -⟩ := List.cons.inj hrest
      exact ⟨before, e, rest, hrecord, hdrops⟩

theorem removed_concat_iff {k : Nat} {record : List (Nat × Happening C E I)}
    {e : Nat × Happening C E I} :
    Removed k (record ++ [e]) ↔ Removed k record ∨ Drops k record e := by
  constructor
  · intro h
    by_cases hdrops : Drops k record e
    · exact .inr hdrops
    · refine .inl (h.of_append fun front d back hsplit => ?_)
      rcases List.append_eq_cons_iff.mp hsplit.symm with ⟨rfl, hd⟩ | ⟨rest, rfl, hrest⟩
      · rw [(List.cons.inj hd).1, List.append_nil]
        exact hdrops
      · simp at hrest
  · rintro (h | h)
    · exact h.append [e]
    · exact ⟨record, e, [], rfl, h⟩

theorem truthful_nil : Truthful ([] : List (Nat × Happening C E I)) := by
  intro before now k reply after hsplit
  simp at hsplit

/-- An answer is put down when it is given, and what it says is about what is on record by then. -/
theorem Truthful.concat {record : List (Nat × Happening C E I)} (h : Truthful record) {now : Nat}
    {e : Happening C E I}
    (hnew : ∀ k reply, e = .did (.withdraw k) reply → ∀ time event,
      (eventOrders record)[k]? = some (time, event) →
      (reply = .truth true ↔ Awaited k record ∧ now < time) ∧ (Awaited k record → now ≤ time)) :
    Truthful (record ++ [(now, e)]) := by
  intro before now' k reply after hsplit
  rcases List.eq_nil_or_concat' after with rfl | ⟨rest, last, rfl⟩
  · obtain ⟨rfl, he⟩ := List.append_inj' hsplit rfl
    obtain ⟨rfl, hdid⟩ := Prod.mk.inj (List.cons.inj he).1
    exact hnew k reply hdid
  · rw [← List.cons_append, ← List.append_assoc] at hsplit
    exact h before now' k reply rest (List.append_inj' hsplit rfl).1

end Record

namespace Machine

open Record

/-- The books of the events, with the numbers of those that are gone. -/
def eventBooks (m : Machine C E I) (gone : List Nat) : Ledger E :=
  ⟨m.scheduler.now, eventOrders m.record, gone, eventRuns m.record, m.eventsLeft, m.scheduler.events⟩

/-- What holds of the events at every point of a run, clearing included. -/
structure Filed (m : Machine C E I) : Prop where
  books : ∃ gone, (m.eventBooks gone).Balanced ∧ ∀ k, k ∈ gone ↔ Removed k m.record
  stamped : ∀ e ∈ m.record, e.1 ≤ m.scheduler.now
  ordered : m.record.Pairwise fun a b => a.1 ≤ b.1
  truthful : Truthful m.record

namespace Filed

variable {m n : Machine C E I}

theorem startAt (start : Nat) : (Machine.startAt C E I start).Filed where
  books := by
    refine ⟨[], Ledger.balanced_start start, fun k => ⟨fun h => (nomatch h), ?_⟩⟩
    rintro ⟨before, e, after, hsplit, -⟩
    simp [Machine.startAt, record] at hsplit
  stamped := List.forall_mem_nil _
  ordered := .nil
  truthful := truthful_nil

/-- One more entry on record. -/
theorem enter (h : m.Filed) {e : Happening C E I}
    (hrecord : n.record = m.record ++ [(m.scheduler.now, e)])
    (hnow : n.scheduler.now = m.scheduler.now)
    (hbooks : ∃ gone, (n.eventBooks gone).Balanced ∧ ∀ k, k ∈ gone ↔ Removed k n.record)
    (htold : ∀ k reply, e = .did (.withdraw k) reply → ∀ time event,
      (eventOrders m.record)[k]? = some (time, event) →
      (reply = .truth true ↔ Awaited k m.record ∧ m.scheduler.now < time) ∧
        (Awaited k m.record → m.scheduler.now ≤ time)) : n.Filed where
  books := hbooks
  stamped := by
    rw [hrecord, hnow]
    exact List.forall_mem_append.mpr ⟨h.stamped, List.forall_mem_singleton.mpr (Nat.le_refl _)⟩
  ordered := by
    rw [hrecord]
    refine List.pairwise_append.mpr ⟨h.ordered, List.pairwise_singleton _ _, fun a ha b hb => ?_⟩
    rw [List.mem_singleton.mp hb]
    exact h.stamped a ha
  truthful := by
    rw [hrecord]
    exact h.truthful.concat htold

/-- An entry that is not about events. -/
theorem quiet (h : m.Filed) {e : Happening C E I}
    (hrecord : n.record = m.record ++ [(m.scheduler.now, e)])
    (hnow : n.scheduler.now = m.scheduler.now) (hevents : n.scheduler.events = m.scheduler.events)
    (hleft : n.eventsLeft = m.eventsLeft) (horders : eventOrders [(m.scheduler.now, e)] = [])
    (hruns : eventRuns [(m.scheduler.now, e)] = [])
    (hdrops : ∀ k, ¬ Drops k m.record (m.scheduler.now, e))
    (htold : ∀ k reply, e = .did (.withdraw k) reply → (eventOrders m.record)[k]? = none) :
    n.Filed := by
  obtain ⟨gone, hbalanced, hgone⟩ := h.books
  refine h.enter hrecord hnow ⟨gone, ?_, fun k => ?_⟩ fun k reply he time event horder => ?_
  · have hsame : n.eventBooks gone = m.eventBooks gone := by
      rw [eventBooks, hrecord, eventOrders_append, eventRuns_append, horders, hruns, List.append_nil,
        List.append_nil, hnow, hleft, hevents]
      rfl
    rwa [hsame]
  · rw [hgone, hrecord, removed_concat_iff, or_iff_left (hdrops k)]
  · rw [htold k reply he] at horder
    cases horder

/-- The answer to a withdrawal is the truth about what waits. -/
theorem told (h : m.Filed) {k time : Nat} {event : E}
    (horder : (eventOrders m.record)[k]? = some (time, event)) :
    (m.scheduler.events.isWaiting k = true ↔ Awaited k m.record ∧ m.scheduler.now < time) ∧
      (Awaited k m.record → m.scheduler.now ≤ time) := by
  obtain ⟨gone, hbalanced, hgone⟩ := h.books
  have hrun : Started k m.record ↔ k ∈ Ledger.numbers (m.eventBooks gone).ran := started_iff
  have hwaits : m.scheduler.events.isWaiting k = true ↔ k ∉ gone ∧ m.scheduler.now < time :=
    (Ledger.isWaiting_iff _ _).trans (hbalanced.waiting_iff horder)
  constructor
  · rw [hwaits, hgone]
    refine ⟨fun ⟨hkept, hlater⟩ => ⟨⟨fun hstarted => ?_, hkept⟩, hlater⟩, fun ⟨hawaited, hlater⟩ =>
      ⟨hawaited.2, hlater⟩⟩
    exact absurd (hbalanced.le_of_ran horder (hrun.mp hstarted)) (Nat.not_le_of_gt hlater)
  · rintro ⟨hidle, hkept⟩
    rcases hbalanced.whereabouts horder with hk | hk | hk | hk
    · exact absurd ((hgone k).mp hk) hkept
    · exact absurd (hrun.mpr hk) hidle
    · exact Nat.le_of_eq hk.symm
    · exact Nat.le_of_lt hk.1

/-- Clearing drops the events that are for a later millisecond and not gone by then. -/
theorem clear (h : m.Filed) : (m.call .clear).Filed := by
  obtain ⟨gone, hbalanced, hgone⟩ := h.books
  have hrecord : (m.call .clear).record = m.record ++ [(m.scheduler.now, .did .clear .nothing)] :=
    record_call m .clear
  have hsame : (m.call .clear).eventBooks
      (gone ++ Ledger.numbers m.scheduler.events.agenda.toList) = (m.eventBooks gone).clear := by
    rw [eventBooks, hrecord, eventOrders_append, eventRuns_append]
    simp only [eventOrders, eventRuns, List.filterMap_cons, List.filterMap_nil, List.append_nil]
    rfl
  refine h.enter hrecord rfl ⟨_, hsame ▸ hbalanced.clear, fun k => ?_⟩ fun k reply he => by cases he
  rw [hrecord, removed_concat_iff, List.mem_append, hgone]
  constructor
  · rintro (hk | hk)
    · exact .inl hk
    · exact .inr (hbalanced.lt_of_waiting hk)
  · rintro (hk | ⟨time, event, horder, hlater⟩)
    · exact .inl hk
    · by_cases hremoved : Removed k m.record
      · exact .inl hremoved
      · exact .inr ((hbalanced.waiting_iff horder).mpr ⟨mt (hgone k).mp hremoved, hlater⟩)

theorem accept (h : m.Filed) (time : Nat) (event : E) :
    (m.call (.scheduleEvent time event)).Filed := by
  obtain ⟨gone, hbalanced, hgone⟩ := h.books
  obtain ⟨landing, hlanding⟩ : ∃ landing, landing = max time (m.scheduler.now + 1) := ⟨_, rfl⟩
  have hlater : m.scheduler.now < landing := by omega
  have hrecord := record_call m (.scheduleEvent time event)
  have hsame : (m.call (.scheduleEvent time event)).eventBooks gone =
      (m.eventBooks gone).accept landing event := by
    rw [eventBooks, hrecord, eventOrders_append, eventRuns_append, hlanding]
    simp only [eventOrders, eventRuns, List.filterMap_cons, List.filterMap_nil, List.append_nil]
    rfl
  refine h.enter hrecord rfl ⟨gone, hsame ▸ hbalanced.accept event hlater, fun k => ?_⟩
    fun k reply he => by cases he
  rw [hgone, hrecord, removed_concat_iff, or_iff_left]
  exact id

theorem withdraw (h : m.Filed) (k : Nat) : (m.call (.withdraw k)).Filed := by
  have hrecord := record_call m (.withdraw k)
  rw [Scheduler.now_obey] at hrecord
  obtain ⟨gone, hbalanced, hgone⟩ := h.books
  have hcount : m.scheduler.events.times.length = (eventOrders m.record).length := by
    rw [show m.scheduler.events.times = (eventOrders m.record).map Prod.fst from hbalanced.times,
      List.length_map]
  by_cases hk : k < m.scheduler.events.times.length
  · have hobey : m.scheduler.obey (.withdraw k : Operation C E I) =
        ({ m.scheduler with events := m.scheduler.events.without k },
          .truth (m.scheduler.events.isWaiting k)) := if_pos hk
    rw [hobey] at hrecord
    have hsame : (m.call (.withdraw k)).eventBooks ((m.eventBooks gone).withdraw k).gone =
        (m.eventBooks gone).withdraw k := by
      rw [eventBooks, hrecord, eventOrders_append, eventRuns_append, scheduler_call, hobey]
      simp only [eventOrders, eventRuns, List.filterMap_cons, List.filterMap_nil, List.append_nil]
      rfl
    refine h.enter hrecord (by rw [scheduler_call, hobey])
      ⟨_, hsame ▸ hbalanced.withdraw k, fun j => ?_⟩ fun j reply he time event horder => ?_
    · rw [hrecord, removed_concat_iff, ← hgone]
      cases hwaits : m.scheduler.events.isWaiting k <;>
        simp [Ledger.withdraw, eventBooks, hwaits, Drops, eq_comm]
    · obtain ⟨rfl, rfl⟩ := Operation.withdraw.inj (Happening.did.inj he).1
      rw [← (Happening.did.inj he).2]
      simpa using h.told horder
  · have hobey : m.scheduler.obey (.withdraw k : Operation C E I) = (m.scheduler, .nothing) := if_neg hk
    rw [hobey] at hrecord
    refine h.quiet hrecord ?_ ?_ rfl rfl rfl (fun j => id) fun j reply he => ?_
    · rw [scheduler_call, hobey]
    · rw [scheduler_call, hobey]
    · rw [← Operation.withdraw.inj (Happening.did.inj he).1]
      exact List.getElem?_eq_none (Nat.le_of_not_lt (hcount ▸ hk))

/-- Whatever a caller or running work asks of the scheduler. -/
theorem call (h : m.Filed) (operation : Operation C E I) : (m.call operation).Filed := by
  have hrecord := record_call m operation
  have hnow : (m.call operation).scheduler.now = m.scheduler.now := by simp
  rw [Scheduler.now_obey] at hrecord
  cases operation with
  | scheduleEvent time event => exact h.accept time event
  | withdraw k => exact h.withdraw k
  | clear => exact h.clear
  | stop k =>
    have hevents : (m.scheduler.obey (.stop k : Operation C E I)).1.events = m.scheduler.events := by
      simp only [Scheduler.obey]
      split <;> simp
    exact h.quiet hrecord hnow hevents rfl rfl rfl (fun _ => id) fun _ _ he => by cases he
  | schedule | glide | isIdle | time =>
    exact h.quiet hrecord hnow rfl rfl rfl rfl (fun _ => id) fun _ _ he => by cases he

theorem perform (h : m.Filed) (operations : List (Operation C E I)) :
    (m.perform operations).Filed :=
  keeps_perform (fun _ h operation _ => h.call operation) h

theorem begin (h : m.Filed) (hrest : m.tick = none) : m.begin.Filed := by
  obtain ⟨gone, hbalanced, hgone⟩ := h.books
  have hleft : (m.eventBooks gone).left = [] := by simp [eventBooks, eventsLeft, hrest]
  exact ⟨⟨gone, hbalanced.begin hleft, hgone⟩, fun e he => Nat.le_succ_of_le (h.stamped e he), h.ordered,
    h.truthful⟩

/-- Which commands and glides are in progress is of no account for the events. -/
theorem setTick (h : m.Filed) (tick : Option (Tick C E I))
    (hevents : (tick.map Tick.events).getD [] = m.eventsLeft) :
    ({ m with tick := tick } : Machine C E I).Filed := by
  obtain ⟨gone, hbalanced, hgone⟩ := h.books
  refine ⟨⟨gone, ?_, hgone⟩, h.stamped, h.ordered, h.truthful⟩
  simp only [eventBooks, ← hevents] at hbalanced
  exact hbalanced

theorem noteCommand (h : m.Filed) (number : Nat) (work : C) :
    (m.note (.command number work)).Filed :=
  h.quiet (record_note m _) rfl rfl rfl rfl rfl (fun _ => id) fun _ _ he => by cases he

theorem callGlide (h : m.Filed) (script : Script C E I) (g : Glide I) (c : Call) :
    (m.callGlide script g c).1.Filed := by
  have hnote : (m.note (.glide g.number g.work c)).Filed :=
    h.quiet (record_note m _) rfl rfl rfl rfl rfl (fun _ => id) fun _ _ he => by cases he
  exact hnote.perform _

theorem moveGlide (h : m.Filed) (script : Script C E I) (g : Glide I) :
    (m.moveGlide script g).1.Filed :=
  keeps_moveGlide (fun _ h g c => h.callGlide script g c) h g

theorem runEvent (h : m.Filed) {t : Tick C E I} (htick : m.tick = some t) {number : Nat} {work : E}
    {rest : List (Nat × E)} (hleft : t.events = (number, work) :: rest) :
    ({ m with tick := some { t with events := rest } }.note (.event number work)).Filed := by
  obtain ⟨n, hn⟩ : ∃ n : Machine C E I,
      n = { m with tick := some { t with events := rest } }.note (.event number work) := ⟨_, rfl⟩
  obtain ⟨gone, hbalanced, hgone⟩ := h.books
  have hrecord : n.record = m.record ++ [(m.scheduler.now, .event number work)] := by
    rw [hn]
    exact record_note _ _
  have hsame : n.eventBooks gone = (m.eventBooks gone).run number work rest := by
    rw [eventBooks, hrecord, eventOrders_append, eventRuns_append, hn]
    simp only [eventOrders, eventRuns, List.filterMap_cons, List.filterMap_nil, List.append_nil]
    rfl
  have hbooks : (m.eventBooks gone).left = (number, work) :: rest := by
    simp [eventBooks, eventsLeft, htick, hleft]
  rw [← hn]
  refine h.enter hrecord (by rw [hn]; rfl) ⟨gone, hsame ▸ hbalanced.run hbooks, fun k => ?_⟩
    fun k reply he => by cases he
  rw [hgone, hrecord, removed_concat_iff, or_iff_left]
  exact id

theorem step (h : m.Filed) (script : Script C E I) : (m.step script).Filed := by
  rcases step_cases script m with ⟨hrest, heq⟩ | ⟨t, n, work, rest, htick, hc, heq⟩ |
    ⟨t, n, work, rest, htick, hc, he, heq⟩ | ⟨t, g, rest, htick, hc, he, -, heq⟩ |
    ⟨t, htick, hc, he, -, heq⟩
  · rw [heq]
    exact h.begin hrest
  · have hset := h.setTick (some { t with commands := rest }) (by simp [eventsLeft, htick])
    rw [heq]
    exact (hset.noteCommand n work).perform _
  · rw [heq]
    exact (h.runEvent htick he).perform _
  · have htick' := tick_moveGlide script m g
    rw [heq]
    exact (h.moveGlide script g).setTick _ (by simp [eventsLeft, htick', htick])
  · have hset := h.setTick none (by simp [eventsLeft, htick, he])
    rw [heq]
    exact ⟨hset.books, hset.stamped, hset.ordered, hset.truthful⟩

theorem run (h : m.Filed) (script : Script C E I) (moves : List (Move C E I)) :
    (m.run script moves).Filed :=
  keeps_run (fun _ h operation _ => h.call operation) (fun _ h => h.step script) h

/-- An entry is no earlier than one before it. -/
theorem le_of_later (h : m.Filed) {e d : Nat × Happening C E I}
    {before after front back : List (Nat × Happening C E I)} (hsplit : m.record = before ++ e :: after)
    (hmore : e :: after = front ++ d :: back) : e.1 ≤ d.1 := by
  have hordered := h.ordered
  rw [hsplit] at hordered
  have htail := (List.pairwise_append.mp hordered).2.1
  cases front with
  | nil => rw [(List.cons.inj hmore).1]
  | cons x front =>
    rw [(List.cons.inj hmore).2] at htail
    exact (List.pairwise_cons.mp htail).1 d (by simp)

/-- An event that has its turn in the millisecond of an entry, or had it before, is removed no more. -/
theorem kept (h : m.Filed) {k time now : Nat} {event : E} {e : Happening C E I}
    {before after : List (Nat × Happening C E I)} (hsplit : m.record = before ++ (now, e) :: after)
    (horder : (eventOrders before)[k]? = some (time, event)) (hle : time ≤ now)
    (hkept : ¬ Removed k before) : ¬ Removed k m.record := by
  rw [hsplit]
  refine fun hremoved => hkept (hremoved.of_append fun front d back hmore hdrops => ?_)
  have hnow : now ≤ d.1 := h.le_of_later hsplit hmore
  have horder' : (eventOrders (before ++ front))[k]? = some (time, event) := order_append horder front
  have hfull : m.record = (before ++ front) ++ d :: back := by rw [hsplit, hmore, List.append_assoc]
  obtain ⟨later, happening⟩ := d
  -- neither a withdrawal that was answered in the affirmative nor clearing drops what is due by then
  cases happening with
  | did operation reply =>
    cases operation with
    | withdraw j =>
      cases reply with
      | truth value =>
        cases value with
        | true =>
          obtain rfl : j = k := hdrops
          have hlater := (((h.truthful _ _ _ _ _ hfull _ _ horder').1).mp rfl).2
          omega
        | false => exact hdrops
      | _ => exact hdrops
    | clear =>
      obtain ⟨time', event', hother, hlater⟩ := hdrops
      rw [horder'] at hother
      have htime : time = time' := congrArg Prod.fst (Option.some.inj hother)
      simp only at hnow hlater
      omega
    | _ => exact hdrops
  | _ => exact hdrops

/-- Once it has started or has been removed, an event does not start. -/
theorem not_started (h : m.Filed) {k now : Nat} {e : Happening C E I}
    {before after : List (Nat × Happening C E I)} (hsplit : m.record = before ++ (now, e) :: after)
    {order : Nat × E} (horder : (eventOrders before)[k]? = some order)
    (hgone : Started k before ∨ Removed k m.record) : ¬ Started k after := by
  obtain ⟨gone, hbalanced, hiff⟩ := h.books
  have hfinal : (m.eventBooks gone).orders[k]? = some (order.1, order.2) := by
    rw [show (m.eventBooks gone).orders = eventOrders m.record from rfl, hsplit]
    exact order_append horder _
  have hruns : Ledger.runs (eventRuns m.record) k = Ledger.runs (eventRuns before) k ++
      (Ledger.runs (eventRuns [(now, e)]) k ++ Ledger.runs (eventRuns after) k) := by
    rw [hsplit, ← List.singleton_append, runs_eventRuns_append, runs_eventRuns_append]
  intro hafter
  rcases hbalanced.runs_cases hfinal with hnone | hone
  · rw [show (m.eventBooks gone).ran = eventRuns m.record from rfl, hruns] at hnone
    exact hafter (List.append_eq_nil_iff.mp (List.append_eq_nil_iff.mp hnone).2).2
  · rcases hgone with hbefore | hremoved
    · have hlength := congrArg List.length hone
      rw [show (m.eventBooks gone).ran = eventRuns m.record from rfl, hruns] at hlength
      simp only [List.length_append, List.length_singleton] at hlength
      have hb := List.length_pos_of_ne_nil hbefore
      have ha := List.length_pos_of_ne_nil hafter
      omega
    · have hnone := hbalanced.not_ran_of_gone ((hiff k).mpr hremoved)
      rw [hone] at hnone
      cases hnone

end Filed

/-- An event that is still to come is taken back just when its millisecond has not begun, and the answer
says so. What was not still to come, or is taken back, starts no more. But one of the millisecond in
progress, which that took when it began, starts in spite of all, and has by the time the millisecond is
completed. -/
theorem withdrawn_unless_at_hand (script : Script C E I) (start : Nat) (moves : List (Move C E I)) :
    let m := (Machine.startAt C E I start).run script moves
    ∀ k before now reply after, m.record = before ++ (now, .did (.withdraw k) reply) :: after →
      ∀ time event, (eventOrders before)[k]? = some (time, event) →
        (reply = .truth true ↔ Awaited k before ∧ now < time) ∧
        (Awaited k before → now ≤ time) ∧
        (¬ (Awaited k before ∧ time = now) → ¬ Started k after) ∧
        (Awaited k before ∧ time = now → m.HasCompleted now →
          Ledger.runs (eventRuns after) k = [(now, k, event)]) := by
  intro m k before now reply after hsplit time event horder
  have h : m.Filed := (Filed.startAt start).run script moves
  obtain ⟨hreply, hle⟩ := h.truthful _ _ _ _ _ hsplit _ _ horder
  refine ⟨hreply, hle, fun hlate => ?_, ?_⟩
  · -- it has started, or has been removed, or is removed now
    by_cases hstarted : Started k before
    · exact h.not_started hsplit horder (.inl hstarted)
    · refine h.not_started hsplit horder (.inr ?_)
      by_cases hremoved : Removed k before
      · exact hsplit ▸ hremoved.append _
      · have hawaited : Awaited k before := ⟨hstarted, hremoved⟩
        have hlater : now < time :=
          Nat.lt_of_le_of_ne (hle hawaited) fun hnow => hlate ⟨hawaited, hnow.symm⟩
        obtain rfl := hreply.mpr ⟨hawaited, hlater⟩
        exact ⟨before, _, after, hsplit, rfl⟩
  · rintro ⟨⟨hidle, hkept⟩, rfl⟩ hdone
    have hlasts : ¬ Removed k m.record := h.kept hsplit horder (Nat.le_refl _) hkept
    obtain ⟨gone, hbalanced, hgone⟩ := h.books
    have horder' : (m.eventBooks gone).orders[k]? = some (time, event) := by
      rw [show (m.eventBooks gone).orders = eventOrders m.record from rfl, hsplit]
      exact order_append horder _
    have hover : time < m.scheduler.now ∨ time = m.scheduler.now ∧ m.eventsLeft = [] :=
      hdone.imp_right fun ⟨hnow, hrest⟩ =>
        ⟨hnow, by simp [eventsLeft, Option.isNone_iff_eq_none.mp hrest]⟩
    have hruns : Ledger.runs (eventRuns m.record) k = [(time, k, event)] :=
      hbalanced.ran_of_completed horder' (mt (hgone k).mp hlasts) hover
    have hbefore : Ledger.runs (eventRuns before) k = [] := not_not.mp hidle
    rwa [hsplit, ← List.singleton_append, runs_eventRuns_append, runs_eventRuns_append, hbefore] at hruns

/-- A command that takes back the first event. -/
def withdrawer : Script Unit Unit Unit where
  command _ := [.withdraw 0]
  event _ := []
  glide work _ := (work, [])

def withdrawerMoves : List (Move Unit Unit Unit) :=
  [.call (.scheduleEvent 2 ()), .call (.schedule 2 ()), .step, .step, .step, .step, .step, .step]

/-- The event has not started when the command runs, and starts after it has been taken back. -/
theorem withdrawer_comes_too_late :
    let m := (Machine.startAt Unit Unit Unit 0).run withdrawer withdrawerMoves
    m.record = m.record.take 3 ++ (2, .did (.withdraw 0) (.truth false)) :: m.record.drop 4 ∧
      Awaited 0 (m.record.take 3) ∧ Ledger.runs (eventRuns (m.record.drop 4)) 0 = [(2, 0, ())] := by
  intro m
  have hsplit : m.record =
      m.record.take 3 ++ (2, .did (.withdraw 0) (.truth false)) :: m.record.drop 4 := rfl
  have hawaited : Awaited 0 (m.record.take 3) := by
    refine ⟨fun hstarted => hstarted rfl, ?_⟩
    have hquiet : m.record.take 3 =
        [(0, .did (.scheduleEvent 2 ()) (.millisecond 2)), (0, .did (.schedule 2 ()) (.millisecond 2)),
          (2, .command 0 ())] := rfl
    rintro ⟨front, e, back, hfront, hdrops⟩
    have he : e ∈ m.record.take 3 := hfront ▸ List.mem_append_right front List.mem_cons_self
    rw [hquiet] at he
    simp only [List.mem_cons, List.not_mem_nil, or_false] at he
    rcases he with rfl | rfl | rfl <;> exact hdrops
  obtain ⟨-, -, -, hstarts⟩ :=
    withdrawn_unless_at_hand withdrawer 0 withdrawerMoves 0 _ 2 _ _ hsplit 2 () rfl
  exact ⟨hsplit, hawaited, hstarts ⟨hawaited, rfl⟩ (.inr ⟨rfl, rfl⟩)⟩

end Machine

end ScoreText
