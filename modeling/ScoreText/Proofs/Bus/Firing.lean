import ScoreText.Proofs.Bus.Watching

/-!
Whom an event reaches. Whatever listeners do meanwhile, a call of fire reaches the subscriptions that
there were when it was made, in their order, but for those whose listener was in the middle of an answer.
Where answers are nested no deeper than some depth, all that was begun comes to an end.
-/

set_option autoImplicit false

namespace ScoreText

namespace Watch

variable {E L C : Type} {b : Behaviour E L C} {w : Watch E L C}

theorem run_add (w : Watch E L C) (m n : Nat) : w.run b (m + n) = (w.run b m).run b n := by
  induction m generalizing w with
  | zero => rw [Nat.zero_add, run]
  | succ m ih => rw [Nat.succ_add, run, run, ih]

theorem run_done (h : w.tasks = []) (n : Nat) : w.run b n = w := by
  induction n with
  | zero => rfl
  | succ n ih =>
    have hsame : w.step b = w := by simp only [step, h]
    rw [run, hsame, ih]

/-- Calls that were made stay. -/
theorem calls_step (w : Watch E L C) : w.calls <+: (w.step b).calls := by
  unfold step
  split
  · exact List.prefix_rfl
  · dsimp only
    split
    · exact List.prefix_append ..
    · exact List.prefix_rfl
    · exact List.prefix_rfl

theorem calls_run (w : Watch E L C) (n : Nat) : w.calls <+: (w.run b n).calls := by
  induction n generalizing w with
  | zero => exact List.prefix_rfl
  | succ n ih => exact (calls_step w).trans (ih _)

/-- At no point to come there are more listeners than `depth` in the middle of an answer. -/
def NestedWithin (b : Behaviour E L C) (depth : Nat) (w : Watch E L C) : Prop :=
  ∀ n, (w.run b n).busy.length ≤ depth

theorem NestedWithin.step {depth : Nat} (h : NestedWithin b depth w) :
    NestedWithin b depth (w.step b) := fun n => h (n + 1)

theorem NestedWithin.run {depth : Nat} (h : NestedWithin b depth w) (m : Nat) :
    NestedWithin b depth (w.run b m) := fun n => run_add w m n ▸ h (m + n)

/-- Some time these tasks are all that is left to do, and the listeners in the middle of an answer are
those of now. -/
def ComesTo (b : Behaviour E L C) (w : Watch E L C) (rest : List (Option Nat × Task E L C)) : Prop :=
  ∃ n, (w.run b n).tasks = rest ∧ (w.run b n).busy = w.busy

namespace ComesTo

variable {rest : List (Option Nat × Task E L C)}

theorem here (h : w.tasks = rest) : ComesTo b w rest := ⟨0, h, rfl⟩

/-- With a step in which the listeners in the middle of an answer stay the same. -/
theorem of_step (hbusy : (w.step b).busy = w.busy) (h : ComesTo b (w.step b) rest) :
    ComesTo b w rest := by
  obtain ⟨n, htasks, hsame⟩ := h
  exact ⟨n + 1, htasks, hsame.trans hbusy⟩

/-- From where other tasks are all that is left to do. -/
theorem trans {tasks : List (Option Nat × Task E L C)} (h : ComesTo b w tasks)
    (hthen : ∀ n, (w.run b n).tasks = tasks → (w.run b n).busy = w.busy → ComesTo b (w.run b n) rest) :
    ComesTo b w rest := by
  obtain ⟨n, htasks, hbusy⟩ := h
  obtain ⟨m, hrest, hsame⟩ := hthen n htasks hbusy
  exact ⟨n + m, by rw [run_add, hrest], by rw [run_add, hsame, hbusy]⟩

end ComesTo

/-- The acts of an answer with so many listeners in the middle of an answer come to an end. -/
def ActsEnd (b : Behaviour E L C) (depth size : Nat) : Prop :=
  ∀ (w : Watch E L C) (source : Option Nat) (acts : List (Act E L C))
    (rest : List (Option Nat × Task E L C)), w.Faithful → NestedWithin b depth w →
      w.busy.length = size → w.tasks = acts.map (fun a => (source, .act a)) ++ rest →
        ComesTo b w rest

/-- A delivery is passed over, or the answer to it comes to an end and its listener is free again. -/
theorem delivery_ends {depth size : Nat} (hacts : ActsEnd b depth (size + 1)) (h : w.Faithful)
    (hdepth : NestedWithin b depth w) (hsize : w.busy.length = size) {source : Option Nat} {event : E}
    {s : Subscription} {rest : List (Option Nat × Task E L C)}
    (htasks : w.tasks = (source, .deliver event s) :: rest) : ComesTo b w rest := by
  by_cases hbusy : s.listener ∈ w.busy
  · have hstep := step_passed b htasks hbusy
    exact ComesTo.of_step (by rw [hstep]) (.here (by rw [hstep]))
  · obtain ⟨c, f, -, -, -, -, hlistener, -, -⟩ := h.delivery htasks
    have hstep := step_reached b htasks hbusy (List.getElem?_eq_getElem hlistener)
    obtain ⟨n, hrelease, hsame⟩ := hacts (w.step b) source _ _ (h.step b) hdepth.step
      (by rw [hstep, List.length_cons, hsize]) (by rw [hstep])
    have hheld : ((w.step b).run b n).busy = s.listener :: w.busy := by rw [hsame, hstep]
    have hlast := step_release b hrelease
    refine ⟨n + 1 + 1, ?_, ?_⟩
    · rw [run, run_add, run, run, hlast]
    · rw [run, run_add, run, run, hlast]
      simp only [hheld, List.erase_cons_head]

/-- The deliveries of a call come to an end. -/
theorem deliveries_end {depth size : Nat} (hacts : ActsEnd b depth (size + 1)) {source : Option Nat}
    {event : E} (subscriptions : List Subscription) {rest : List (Option Nat × Task E L C)}
    (h : w.Faithful) (hdepth : NestedWithin b depth w) (hsize : w.busy.length = size)
    (htasks : w.tasks = subscriptions.map (fun s => (source, .deliver event s)) ++ rest) :
    ComesTo b w rest := by
  induction subscriptions generalizing w with
  | nil => exact .here htasks
  | cons s subscriptions ih =>
    refine (delivery_ends hacts h hdepth hsize htasks).trans fun n hleft hsame => ?_
    exact ih (h.run b n) (hdepth.run n) (by rw [hsame, hsize]) hleft

/-- The acts of an answer come to an end. -/
theorem acts_end (b : Behaviour E L C) (depth size : Nat) : ActsEnd b depth size := by
  -- an answer to what an act fires has one more listener in the middle of an answer
  induction hspare : depth + 1 - size generalizing size with
  | zero =>
    intro w source acts rest h hdepth hsize htasks
    have hnow : w.busy.length ≤ depth := hdepth 0
    omega
  | succ spare ih =>
    have hdeeper : ActsEnd b depth (size + 1) := ih (size + 1) (by omega)
    intro w source acts rest h hdepth hsize htasks
    induction acts generalizing w with
    | nil => exact .here htasks
    | cons a acts ihacts =>
      by_cases hfire : ∃ event, a = .fire event
      · obtain ⟨event, rfl⟩ := hfire
        have hstep := step_fire b htasks
        have hbusy : (w.step b).busy = w.busy := by rw [hstep]
        refine ComesTo.of_step hbusy (ComesTo.trans (deliveries_end hdeeper w.bus.subscriptions
          (h.step b) hdepth.step (by rw [hbusy, hsize]) (by rw [hstep])) fun n hleft hsame => ?_)
        exact ihacts _ ((h.step b).run b n) (hdepth.step.run n) (by rw [hsame, hbusy, hsize]) hleft
      · obtain ⟨bus, ended, hstep, -, -⟩ :=
          step_act b htasks (fun event ha => hfire ⟨event, ha⟩) h.orderly
        have hbusy : (w.step b).busy = w.busy := by rw [hstep]
        exact ComesTo.of_step hbusy
          (ihacts _ (h.step b) hdepth.step (by rw [hbusy, hsize]) (by rw [hstep]; rfl))

/-- Acts from outside come to an end if answers are nested no deeper than some depth, from wherever they
have got. -/
theorem start_ends {bus : Bus L} (h : bus.Orderly) {acts : List (Act E L C)} {depth : Nat}
    (hdepth : NestedWithin b depth (start bus acts)) (n : Nat) :
    ∃ m, (((start bus acts).run b n).run b m).tasks = [] := by
  obtain ⟨m, hdone, -⟩ :=
    acts_end b depth 0 (start bus acts) none acts [] (.start h acts) hdepth rfl (List.append_nil _).symm
  exact ⟨m, by rw [← run_add, Nat.add_comm, run_add, run_done hdone, hdone]⟩

/-- A call that nothing is left to do of has reached all that it was for. -/
theorem Faithful.all_reached (h : w.Faithful) {c : Nat} {f : Firing E} (hf : w.calls[c]? = some f)
    (hdone : ∀ t ∈ w.tasks, t.1 ≠ some c) : heardFrom c w.heard = f.audience := by
  have hnone : waitingFor c w.tasks = [] := by
    refine List.filterMap_eq_nil_iff.mpr fun t ht => ?_
    have hother := hdone t ht
    obtain ⟨source, task⟩ := t
    cases task with
    | deliver event s => exact if_neg hother
    | _ => rfl
  have hall := h.reached c f hf
  rwa [hnone, List.filter_nil, List.append_nil] at hall

/-- Whatever listeners do, a call of fire reaches, once and in order, the subscriptions that there were when
it was made and whose listener was not in the middle of an answer: so far it has reached the first of them,
and when nothing of it is left to do, all of them. If answers are nested no deeper than some depth, that
time comes. Nobody else is reached, and nothing but the event of a call. No number is given to two
subscriptions, so ending one leaves the others as they are and in their order, and the answer that one was
ended comes once for a number at most. -/
theorem reaches_audience_once (b : Behaviour E L C) {bus : Bus L} (h : bus.Orderly)
    (acts : List (Act E L C)) (n : Nat) :
    let w := (start bus acts).run b n
    w.dispatch = Dispatch.run b n ⟨bus, [], acts.map .act⟩ ∧
    w.busy = releases w.tasks ∧
    (∀ c f, w.calls[c]? = some f → heardFrom c w.heard <+: f.audience ∧
      ((∀ t ∈ w.tasks, t.1 ≠ some c) → heardFrom c w.heard = f.audience)) ∧
    (∀ depth, NestedWithin b depth (start bus acts) → ∃ m, (w.run b m).tasks = [] ∧
      ∀ c f, w.calls[c]? = some f → heardFrom c (w.run b m).heard = f.audience) ∧
    (∀ d ∈ w.heard, ∃ c f, d.1 = some c ∧ w.calls[c]? = some f ∧ d.2.1 = f.event) ∧
    (w.bus.handles.map Subscription.id).Nodup ∧
    (∀ s ∈ w.bus.handles, ∀ t ∈ w.bus.subscriptions, s.id = t.id → s = t) ∧
    (∀ id, (∀ s ∈ w.bus.subscriptions, s.id ≠ id) ∧ w.bus.unsubscribe id = (w.bus, false) ∨
      ∃ front s back, w.bus.subscriptions = front ++ s :: back ∧ s.id = id ∧
        w.bus.unsubscribe id = ({ w.bus with subscriptions := front ++ back }, true)) ∧
    w.ended.Nodup := by
  intro w
  have hw : w.Faithful := (Faithful.start h acts).run b n
  have hsame : (start bus acts).dispatch = ⟨bus, [], acts.map .act⟩ := by
    rw [dispatch, start, List.map_map]
    rfl
  refine ⟨hsame ▸ dispatch_run b n _, hw.busy, fun c f hf => ⟨⟨_, hw.reached c f hf⟩, hw.all_reached hf⟩,
    fun depth hdepth => ?_, hw.sources, hw.orderly.given, hw.orderly.named, hw.orderly.unsubscribe_cases,
    hw.endedOnce⟩
  obtain ⟨m, hdone⟩ := start_ends h hdepth n
  refine ⟨m, hdone, fun c f hf => (hw.run b m).all_reached ?_ fun t ht => ?_⟩
  · obtain ⟨later, hlater⟩ : w.calls <+: (w.run b m).calls := calls_run w m
    exact hlater ▸ call_stays hf later
  · rw [hdone] at ht
    cases ht

/-- The first listener answers the first event: it ends the second subscription, fires another event and
has one more listener attached. -/
def meddler : Behaviour Nat Nat Unit where
  respond l event := (l, if l = 0 ∧ event = 0 then [.detach 1, .fire 1, .attach 3] else [])
  change _ l := l

def meddlerActs : List (Act Nat Nat Unit) := [.attach 0, .attach 1, .attach 2, .fire 0]

/-- The second subscription still hears the event in the course of which it is ended; the other event goes
to the third only, as the first is in the middle of its answer. -/
theorem meddler_heard :
    let w := (start {} meddlerActs).run meddler 20
    heardFrom 0 w.heard = [⟨0, 0⟩, ⟨1, 1⟩, ⟨2, 2⟩] ∧ heardFrom 1 w.heard = [⟨2, 2⟩] := by
  intro w
  obtain ⟨-, -, hcalls, -⟩ := reaches_audience_once meddler Bus.orderly_empty meddlerActs 20
  have hdone : w.tasks = [] := rfl
  have hall : ∀ c, ∀ t ∈ w.tasks, t.1 ≠ some c := fun c t ht => by
    rw [hdone] at ht
    cases ht
  exact ⟨(hcalls 0 ⟨0, [⟨0, 0⟩, ⟨1, 1⟩, ⟨2, 2⟩], []⟩ rfl).2 (hall 0),
    (hcalls 1 ⟨1, [⟨0, 0⟩, ⟨2, 2⟩], [0]⟩ rfl).2 (hall 1)⟩

end Watch

end ScoreText
