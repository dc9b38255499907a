import Mathlib.Data.List.Nodup
import ScoreText.Bus.Delivery

/-!
A bus at work is watched: who fired what when, and what was delivered for which call. Acts of listeners
are arbitrary, and with them all that a listener can come to do while it answers. What is done, what is
still to do and what was fired fit one another at every point.
-/

set_option autoImplicit false

namespace ScoreText

variable {E L C : Type}

namespace Bus

/-- No number was given twice, what lasts is what was handed out under its number, and every listener
subscribed is known. -/
structure Orderly (b : Bus L) : Prop where
  fresh : b.Fresh
  distinct : (b.subscriptions.map Subscription.id).Nodup
  handed : ∀ s ∈ b.handles, s.id < b.nextId
  given : (b.handles.map Subscription.id).Nodup
  named : ∀ s ∈ b.handles, ∀ t ∈ b.subscriptions, s.id = t.id → s = t
  known : ∀ s ∈ b.subscriptions, s.listener < b.listeners.length

/-- What can become of a bus: subscriptions go, or come with new numbers. -/
structure Leads (a b : Bus L) : Prop where
  orderly : b.Orderly
  listeners : a.listeners.length ≤ b.listeners.length
  next : a.nextId ≤ b.nextId
  subscriptions : ∀ s ∈ b.subscriptions, s ∈ a.subscriptions ∨ a.nextId ≤ s.id

variable {b : Bus L}

theorem orderly_empty : ({} : Bus L).Orderly :=
  ⟨List.forall_mem_nil _, .nil, List.forall_mem_nil _, .nil, List.forall_mem_nil _, List.forall_mem_nil _⟩

/-- Fewer subscriptions, and other listeners in the place of those that there are. -/
theorem Orderly.fewer (h : b.Orderly) {subscriptions : List Subscription}
    (hfewer : subscriptions.Sublist b.subscriptions) {listeners : List L}
    (hlisteners : listeners.length = b.listeners.length) :
    Leads b { b with subscriptions := subscriptions, listeners := listeners } where
  orderly :=
    ⟨fun s hs => h.fresh s (hfewer.mem hs), h.distinct.sublist (hfewer.map _), h.handed, h.given,
      fun s hs t ht => h.named s hs t (hfewer.mem ht), fun s hs => hlisteners ▸ h.known s (hfewer.mem hs)⟩
  listeners := Nat.le_of_eq hlisteners.symm
  next := Nat.le_refl _
  subscriptions _ hs := .inl (hfewer.mem hs)

/-- A new subscription, handed out, of a listener that is known. -/
theorem Orderly.enrol (h : b.Orderly) {n : Nat} (hn : n < b.listeners.length) :
    Leads b ((b.subscribe n).1.hand (b.subscribe n).2) where
  orderly := by
    have hnew : ∀ l : List Subscription, (∀ s ∈ l, s.id < b.nextId) → (l.map Subscription.id).Nodup →
        ((l ++ [(b.subscribe n).2]).map Subscription.id).Nodup := by
      intro l hl hdistinct
      rw [List.map_append]
      refine List.nodup_append.mpr ⟨hdistinct, List.nodup_singleton _, fun i hi j hj => ?_⟩
      obtain ⟨s, hs, rfl⟩ := List.mem_map.mp hi
      rw [List.mem_singleton.mp hj]
      exact Nat.ne_of_lt (hl s hs)
    refine ⟨h.fresh.subscribe n, hnew _ h.fresh h.distinct, ?_, hnew _ h.handed h.given, ?_, ?_⟩
    · exact List.forall_mem_append.mpr ⟨fun s hs => Nat.lt_succ_of_lt (h.handed s hs),
        List.forall_mem_singleton.mpr (Nat.lt_succ_self _)⟩
    · intro s hs t ht hid
      rcases List.mem_append.mp hs with hs | hs <;> rcases List.mem_append.mp ht with ht | ht
      · exact h.named s hs t ht hid
      · rw [List.mem_singleton.mp ht] at hid
        exact absurd hid (Nat.ne_of_lt (h.handed s hs))
      · rw [List.mem_singleton.mp hs] at hid
        exact absurd hid.symm (Nat.ne_of_lt (h.fresh t ht))
      · exact (List.mem_singleton.mp hs).trans (List.mem_singleton.mp ht).symm
    · exact List.forall_mem_append.mpr ⟨h.known, List.forall_mem_singleton.mpr hn⟩
  listeners := Nat.le_refl _
  next := Nat.le_succ _
  subscriptions s hs := by
    refine (List.mem_append.mp hs).imp_right fun hs => ?_
    exact Nat.le_of_eq (congrArg Subscription.id (List.mem_singleton.mp hs)).symm

theorem Orderly.attach (h : b.Orderly) (l : L) : Leads b (b.attach l) := by
  have hmore : ({ b with listeners := b.listeners ++ [l] } : Bus L).Orderly :=
    ⟨h.fresh, h.distinct, h.handed, h.given, h.named, fun s hs => by
      rw [List.length_append]
      exact Nat.lt_of_lt_of_le (h.known s hs) (Nat.le_add_right _ _)⟩
  have hnew := hmore.enrol (n := b.listeners.length) (by simp)
  have hlonger : b.listeners.length ≤ (b.listeners ++ [l]).length := by simp
  exact ⟨hnew.orderly, Nat.le_trans hlonger hnew.listeners, hnew.next, hnew.subscriptions⟩

theorem Orderly.unsubscribe (h : b.Orderly) (id : Nat) : Leads b (b.unsubscribe id).1 :=
  h.fewer List.filter_sublist rfl

/-- Ending a subscription takes this one out and leaves the others as they are. -/
theorem Orderly.unsubscribe_cases (h : b.Orderly) (id : Nat) :
    (∀ s ∈ b.subscriptions, s.id ≠ id) ∧ b.unsubscribe id = (b, false) ∨
      ∃ front s back, b.subscriptions = front ++ s :: back ∧ s.id = id ∧
        b.unsubscribe id = ({ b with subscriptions := front ++ back }, true) := by
  have hothers : ∀ l : List Subscription, (∀ s ∈ l, s.id ≠ id) → l.filter (fun s => !s.id == id) = l :=
    fun l hl => List.filter_eq_self.mpr fun s hs => by simpa using hl s hs
  by_cases hmem : ∃ s ∈ b.subscriptions, s.id = id
  · obtain ⟨s, hs, rfl⟩ := hmem
    obtain ⟨front, back, hsplit⟩ := List.append_of_mem hs
    have hdistinct := h.distinct
    rw [hsplit, List.map_append, List.map_cons, List.nodup_middle, List.nodup_cons] at hdistinct
    have hfront : ∀ t ∈ front, t.id ≠ s.id := fun t ht hid =>
      hdistinct.1 (List.mem_append_left _ (hid ▸ List.mem_map_of_mem ht))
    have hback : ∀ t ∈ back, t.id ≠ s.id := fun t ht hid =>
      hdistinct.1 (List.mem_append_right _ (hid ▸ List.mem_map_of_mem ht))
    refine .inr ⟨front, s, back, hsplit, rfl, ?_⟩
    have hfilter : b.subscriptions.filter (fun t => !t.id == s.id) = front ++ back := by
      rw [hsplit, List.filter_append, List.filter_cons, hothers front hfront, hothers back hback]
      simp
    have hany : (b.subscriptions.any fun t => t.id == s.id) = true :=
      List.any_eq_true.mpr ⟨s, hs, beq_self_eq_true _⟩
    rw [Bus.unsubscribe, hfilter, hany]
  · have hnone : ∀ s ∈ b.subscriptions, s.id ≠ id := fun s hs hid => hmem ⟨s, hs, hid⟩
    have hany : (b.subscriptions.any fun s => s.id == id) = false :=
      List.any_eq_false.mpr fun s hs => by simpa using hnone s hs
    exact .inl ⟨hnone, by rw [Bus.unsubscribe, hothers _ hnone, hany]⟩

theorem Orderly.clear (h : b.Orderly) : Leads b b.clear := h.fewer (List.nil_sublist _) rfl

theorem Orderly.refl (h : b.Orderly) : Leads b b := h.fewer (List.Sublist.refl _) rfl

theorem Orderly.adjust (h : b.Orderly) (handle : Nat) (change : L → L) :
    Leads b (b.adjust handle change) := by
  rw [Bus.adjust]
  split
  · exact h.fewer (List.Sublist.refl _) (List.length_modify ..)
  · exact h.refl

theorem Orderly.withListener (h : b.Orderly) (n : Nat) (l : L) : Leads b (b.withListener n l) :=
  h.fewer (List.Sublist.refl _) List.length_set

end Bus

/-- A task is done whatever else there is to do, and what it leads to comes first. -/
theorem Dispatch.step_cons (b : Behaviour E L C) (bus : Bus L) (busy : List Nat) (task : Task E L C)
    (rest : List (Task E L C)) :
    (⟨bus, busy, task :: rest⟩ : Dispatch E L C).step b =
      { (⟨bus, busy, [task]⟩ : Dispatch E L C).step b with
        tasks := ((⟨bus, busy, [task]⟩ : Dispatch E L C).step b).tasks ++ rest } := by
  cases task with
  | act a =>
    cases a with
    | subscribe n =>
      simp only [step, perform]
      cases bus.listener? n <;> rfl
    | fire event => simp [step, perform]
    | _ => rfl
  | release n => rfl
  | deliver event s =>
    simp only [step, reached?]
    split <;> simp

theorem Dispatch.run_succ (b : Behaviour E L C) (n : Nat) (d : Dispatch E L C) :
    run b (n + 1) d = run b n (d.step b) := by
  rw [run]
  split
  · next hdone =>
    have hnone : d.tasks = [] := List.isEmpty_iff.mp hdone
    have hstep : d.step b = d := by simp only [step, hnone]
    rw [hstep]
    cases n with
    | zero => rfl
    | succ n => rw [run, if_pos hdone]
  · rfl

/-- A call of fire: its event, the subscriptions that there were and the listeners that were in the middle
of an answer. -/
structure Firing (E : Type) where
  event : E
  present : List Subscription
  busy : List Nat

namespace Firing

def admits (f : Firing E) (s : Subscription) : Bool := !f.busy.contains s.listener

/-- Those that the event is for. -/
def audience (f : Firing E) : List Subscription := f.present.filter f.admits

end Firing

/-- A bus at work, with what has come of it so far. -/
structure Watch (E L C : Type) where
  bus : Bus L
  busy : List Nat := []
  /-- What is still to do, each task with the number of the call of fire that it belongs to, if any. -/
  tasks : List (Option Nat × Task E L C)
  calls : List (Firing E) := []
  /-- What was delivered to whom, and for which call. -/
  heard : List (Option Nat × E × Subscription) := []
  /-- The numbers of subscriptions that were ended: whoever did it was told so. -/
  ended : List Nat := []

namespace Watch

def dispatch (w : Watch E L C) : Dispatch E L C := ⟨w.bus, w.busy, w.tasks.map Prod.snd⟩

/-- The bus with one task only. -/
def only (w : Watch E L C) (task : Task E L C) : Dispatch E L C := ⟨w.bus, w.busy, [task]⟩

/-- One task, if any is left. The deliveries of a call belong to it, and so do the acts of those that it
reaches. -/
def step (b : Behaviour E L C) (w : Watch E L C) : Watch E L C :=
  match w.tasks with
  | [] => w
  | (source, task) :: rest =>
    let d := (w.only task).step b
    let w' : Watch E L C := { w with
      bus := d.bus
      busy := d.busy
      tasks := d.tasks.map (source, ·) ++ rest
      heard := w.heard ++ (w.only task).delivery?.toList.map (source, ·) }
    match task with
    | .act (.fire event) => { w' with
        tasks := d.tasks.map (some w.calls.length, ·) ++ rest
        calls := w.calls ++ [⟨event, w.bus.subscriptions, w.busy⟩] }
    | .act (.detach handle) => { w' with
        ended := w.ended ++ if (w.bus.detach handle).2 then
          w.bus.handles[handle]?.toList.map Subscription.id else [] }
    | _ => w'

def run (b : Behaviour E L C) : Nat → Watch E L C → Watch E L C
  | 0, w => w
  | n + 1, w => run b n (w.step b)

/-- Acts from outside, one after another. -/
def start (bus : Bus L) (acts : List (Act E L C)) : Watch E L C :=
  { bus := bus, tasks := acts.map fun a => (none, .act a) }

/-- The subscriptions that a call has reached, in order. -/
def heardFrom (c : Nat) (heard : List (Option Nat × E × Subscription)) : List Subscription :=
  heard.filterMap fun h => if h.1 = some c then some h.2.2 else none

theorem dispatch_step (b : Behaviour E L C) (w : Watch E L C) :
    (w.step b).dispatch = w.dispatch.step b := by
  obtain ⟨bus, busy, tasks, calls, heard, ended⟩ := w
  cases tasks with
  | nil => rfl
  | cons t rest =>
    obtain ⟨source, task⟩ := t
    have htasks : ∀ (mark : Option Nat) (tasks : List (Task E L C)),
        (tasks.map (mark, ·)).map Prod.snd = tasks := by
      intro mark tasks
      rw [List.map_map]
      exact List.map_id _
    rw [dispatch, dispatch, List.map_cons, Dispatch.step_cons]
    simp only [step, only]
    split <;> simp only [List.map_append, htasks]

/-- Watching changes nothing. -/
theorem dispatch_run (b : Behaviour E L C) (n : Nat) (w : Watch E L C) :
    (w.run b n).dispatch = Dispatch.run b n w.dispatch := by
  induction n generalizing w with
  | zero => rfl
  | succ n ih => rw [run, ih, dispatch_step, Dispatch.run_succ]

/-- The listeners in the middle of an answer, as far as their release is still to come. -/
def releases (tasks : List (Option Nat × Task E L C)) : List Nat :=
  tasks.filterMap fun
    | (_, .release n) => some n
    | _ => none

/-- The subscriptions that a call has still to come to, in order. -/
def waitingFor (c : Nat) (tasks : List (Option Nat × Task E L C)) : List Subscription :=
  tasks.filterMap fun
    | (source, .deliver _ s) => if source = some c then some s else none
    | _ => none

/-- Every delivery to come belongs to a call of fire, and when its turn comes the same listeners are in the
middle of an answer as at the call. -/
def Grounded (calls : List (Firing E)) : List (Option Nat × Task E L C) → Prop
  | [] => True
  | (source, .deliver event _) :: rest =>
    (∃ c f, source = some c ∧ calls[c]? = some f ∧ f.event = event ∧ f.busy = releases rest) ∧
      Grounded calls rest
  | _ :: rest => Grounded calls rest

/-- Subscriptions that deliveries to come are for have a listener. -/
def Addressed (listeners : List L) (tasks : List (Option Nat × Task E L C)) : Prop :=
  ∀ source event s, (source, .deliver event s) ∈ tasks → s.listener < listeners.length

/-- What holds of a bus at work at every point. -/
structure Faithful (w : Watch E L C) : Prop where
  orderly : w.bus.Orderly
  busy : w.busy = releases w.tasks
  grounded : Grounded w.calls w.tasks
  addressed : Addressed w.bus.listeners w.tasks
  sources : ∀ h ∈ w.heard, ∃ c f, h.1 = some c ∧ w.calls[c]? = some f ∧ h.2.1 = f.event
  reached : ∀ c f, w.calls[c]? = some f →
    heardFrom c w.heard ++ (waitingFor c w.tasks).filter f.admits = f.audience
  endedOnce : w.ended.Nodup
  endedAll : ∀ id ∈ w.ended, id < w.bus.nextId ∧ ∀ s ∈ w.bus.subscriptions, s.id ≠ id

/-- A call is still what it was when others have been made. -/
theorem call_stays {calls : List (Firing E)} {c : Nat} {f : Firing E} (h : calls[c]? = some f)
    (more : List (Firing E)) : (calls ++ more)[c]? = some f := by
  rw [List.getElem?_append_left (List.getElem?_eq_some_iff.mp h).1, h]

theorem Grounded.mono {calls : List (Firing E)} {tasks : List (Option Nat × Task E L C)}
    (h : Grounded calls tasks) (more : List (Firing E)) : Grounded (calls ++ more) tasks := by
  induction tasks with
  | nil => trivial
  | cons t rest ih =>
    obtain ⟨source, task⟩ := t
    cases task with
    | deliver event s =>
      obtain ⟨⟨c, f, hsource, hcall, hf⟩, hrest⟩ := h
      exact ⟨⟨c, f, hsource, call_stays hcall more, hf⟩, ih hrest⟩
    | _ => exact ih h

/-- The acts of an answer are no deliveries. -/
theorem acts_spec (source : Option Nat) (acts : List (Act E L C)) (calls : List (Firing E))
    (rest : List (Option Nat × Task E L C)) :
    releases (acts.map (fun a => (source, .act a)) ++ rest) = releases rest ∧
      (∀ c, waitingFor c (acts.map (fun a => (source, .act a)) ++ rest) = waitingFor c rest) ∧
      (Grounded calls rest → Grounded calls (acts.map (fun a => (source, .act a)) ++ rest)) := by
  induction acts with
  | nil => exact ⟨rfl, fun _ => rfl, id⟩
  | cons a acts ih => exact ih

/-- The deliveries of a call. -/
theorem deliveries_spec {calls : List (Firing E)} {c : Nat} {f : Firing E} (hcall : calls[c]? = some f)
    (subscriptions : List Subscription) {rest : List (Option Nat × Task E L C)}
    (hbusy : f.busy = releases rest) (hrest : Grounded calls rest) :
    let tasks := subscriptions.map (fun s => (some c, (.deliver f.event s : Task E L C))) ++ rest
    releases tasks = releases rest ∧
      (∀ d, waitingFor d tasks = (if d = c then subscriptions else []) ++ waitingFor d rest) ∧
      Grounded calls tasks := by
  induction subscriptions with
  | nil => exact ⟨rfl, fun d => by simp, hrest⟩
  | cons s subscriptions ih =>
    obtain ⟨hreleases, hwaiting, hgrounded⟩ := ih
    refine ⟨hreleases, fun d => ?_, ⟨c, f, rfl, hcall, rfl, hbusy.trans hreleases.symm⟩, hgrounded⟩
    by_cases hd : d = c
    · subst hd
      simp only [List.map_cons, List.cons_append, waitingFor, List.filterMap_cons, if_true] at hwaiting ⊢
      rw [hwaiting]
      simp
    · have hne : ¬ (some c = some d) := fun h => hd (Option.some.inj h).symm
      simp only [List.map_cons, List.cons_append, waitingFor, List.filterMap_cons, hne, hd, if_false,
        List.nil_append] at hwaiting ⊢
      rw [hwaiting]
      simp [hd]

section Steps

variable {w : Watch E L C} {source : Option Nat} {rest : List (Option Nat × Task E L C)}

theorem step_fire (b : Behaviour E L C) {event : E}
    (htasks : w.tasks = (source, .act (.fire event)) :: rest) :
    w.step b = { w with
      tasks := w.bus.subscriptions.map (fun s => (some w.calls.length, .deliver event s)) ++ rest
      calls := w.calls ++ [⟨event, w.bus.subscriptions, w.busy⟩] } := by
  simp [step, htasks, only, Dispatch.step, Dispatch.perform, Dispatch.delivery?, Dispatch.deliveries]

theorem step_release (b : Behaviour E L C) {n : Nat} (htasks : w.tasks = (source, .release n) :: rest) :
    w.step b = { w with busy := w.busy.erase n, tasks := rest } := by
  simp [step, htasks, only, Dispatch.step, Dispatch.delivery?]

theorem step_passed (b : Behaviour E L C) {event : E} {s : Subscription}
    (htasks : w.tasks = (source, .deliver event s) :: rest) (hbusy : s.listener ∈ w.busy) :
    w.step b = { w with tasks := rest } := by
  simp [step, htasks, only, Dispatch.step, Dispatch.delivery?, Dispatch.reached?, hbusy]

theorem step_reached (b : Behaviour E L C) {event : E} {s : Subscription}
    (htasks : w.tasks = (source, .deliver event s) :: rest) (hidle : s.listener ∉ w.busy) {l : L}
    (hlistener : w.bus.listener? s.listener = some l) :
    w.step b = { w with
      bus := w.bus.withListener s.listener (b.respond l event).1
      busy := s.listener :: w.busy
      tasks := (b.respond l event).2.map (fun a => (source, .act a)) ++
        (source, .release s.listener) :: rest
      heard := w.heard ++ [(source, event, s)] } := by
  simp [step, htasks, only, Dispatch.step, Dispatch.delivery?, Dispatch.reached?, hidle, hlistener]

/-- An act that is no call of fire changes the bus only, and may end a subscription. -/
theorem step_act (b : Behaviour E L C) {a : Act E L C} (htasks : w.tasks = (source, .act a) :: rest)
    (hquiet : ∀ event, a ≠ .fire event) (h : w.bus.Orderly) :
    ∃ bus ended, w.step b = { w with bus := bus, tasks := rest, ended := w.ended ++ ended } ∧
      Bus.Leads w.bus bus ∧ (ended = [] ∨
        ∃ s ∈ w.bus.subscriptions, ended = [s.id] ∧ ∀ t ∈ bus.subscriptions, t.id ≠ s.id) := by
  cases a with
  | fire event => exact absurd rfl (hquiet event)
  | attach l =>
    refine ⟨w.bus.attach l, [], ?_, h.attach l, .inl rfl⟩
    simp [step, htasks, only, Dispatch.step, Dispatch.perform, Dispatch.delivery?]
  | subscribe n =>
    cases hlistener : w.bus.listener? n with
    | none =>
      refine ⟨w.bus, [], ?_, h.refl, .inl rfl⟩
      simp [step, htasks, only, Dispatch.step, Dispatch.perform, Dispatch.delivery?, hlistener]
    | some l =>
      refine ⟨(w.bus.subscribe n).1.hand (w.bus.subscribe n).2, [], ?_,
        h.enrol (List.getElem?_eq_some_iff.mp hlistener).1, .inl rfl⟩
      simp [step, htasks, only, Dispatch.step, Dispatch.perform, Dispatch.delivery?, hlistener]
  | detach handle =>
    refine ⟨(w.bus.detach handle).1, if (w.bus.detach handle).2 then
      w.bus.handles[handle]?.toList.map Subscription.id else [], ?_, ?_⟩
    · simp [step, htasks, only, Dispatch.step, Dispatch.perform, Dispatch.delivery?]
    · cases hhandle : w.bus.handles[handle]? with
      | none =>
        simp only [Bus.detach, hhandle]
        exact ⟨h.refl, .inl rfl⟩
      | some s =>
        simp only [Bus.detach, hhandle]
        refine ⟨h.unsubscribe s.id, ?_⟩
        rcases h.unsubscribe_cases s.id with ⟨-, heq⟩ | ⟨front, t, back, hsplit, hid, heq⟩
        · exact .inl (by simp [heq])
        · refine .inr ⟨t, by simp [hsplit], by simp [heq, hid], fun u hu => ?_⟩
          rw [hid]
          simpa using (List.mem_filter.mp hu).2
  | adjust handle change =>
    refine ⟨w.bus.adjust handle (b.change change), [], ?_, h.adjust _ _, .inl rfl⟩
    simp [step, htasks, only, Dispatch.step, Dispatch.perform, Dispatch.delivery?]
  | clear =>
    refine ⟨w.bus.clear, [], ?_, h.clear, .inl rfl⟩
    simp [step, htasks, only, Dispatch.step, Dispatch.perform, Dispatch.delivery?]

end Steps

theorem heardFrom_append (c : Nat) (heard more : List (Option Nat × E × Subscription)) :
    heardFrom c (heard ++ more) = heardFrom c heard ++ heardFrom c more :=
  List.filterMap_append

/-- No delivery to come belongs to a call that was not made. -/
theorem Grounded.waitingFor_eq_nil {calls : List (Firing E)} {tasks : List (Option Nat × Task E L C)}
    (h : Grounded calls tasks) {c : Nat} (hc : calls[c]? = none) : waitingFor c tasks = [] := by
  induction tasks with
  | nil => rfl
  | cons t rest ih =>
    obtain ⟨source, task⟩ := t
    cases task with
    | deliver event s =>
      obtain ⟨⟨d, f, rfl, hcall, -⟩, hrest⟩ := h
      have hne : ¬ (some d = some c) := fun he => by simp [← Option.some.inj he, hcall] at hc
      simp only [waitingFor, List.filterMap_cons, hne, if_false]
      exact ih hrest
    | _ => exact ih h

namespace Faithful

variable {w : Watch E L C} {source : Option Nat} {rest : List (Option Nat × Task E L C)}

theorem start {bus : Bus L} (h : bus.Orderly) (acts : List (Act E L C)) : (start bus acts).Faithful := by
  obtain ⟨hreleases, hwaiting, hgrounded⟩ := acts_spec none acts ([] : List (Firing E)) []
  rw [List.append_nil] at hreleases hgrounded
  refine ⟨h, hreleases.symm, hgrounded trivial, fun source event s hs => ?_, List.forall_mem_nil _,
    fun c f hf => ?_, .nil, List.forall_mem_nil _⟩
  · obtain ⟨a, -, ha⟩ := List.mem_map.mp hs
    cases ha
  · cases hf

/-- What holds when a task has its turn. -/
theorem upon (h : w.Faithful) {task : Task E L C} (htasks : w.tasks = (source, task) :: rest) :
    w.busy = releases ((source, task) :: rest) ∧ Grounded w.calls ((source, task) :: rest) ∧
      Addressed w.bus.listeners rest ∧ ∀ c f, w.calls[c]? = some f →
        heardFrom c w.heard ++ (waitingFor c ((source, task) :: rest)).filter f.admits = f.audience := by
  refine ⟨htasks ▸ h.busy, htasks ▸ h.grounded, fun source event s hs => ?_, htasks ▸ h.reached⟩
  exact h.addressed source event s (htasks ▸ List.mem_cons_of_mem _ hs)

/-- Nothing was delivered for a call that was not made. -/
theorem heardFrom_eq_nil (h : w.Faithful) {c : Nat} (hc : w.calls[c]? = none) :
    heardFrom c w.heard = [] := by
  refine List.filterMap_eq_nil_iff.mpr fun d hd => ?_
  obtain ⟨made, f, hmade, hf, -⟩ := h.sources d hd
  have hne : ¬ (made = c) := fun he => by simp [he, hc] at hf
  simp [hmade, hne]

/-- The bus after an act. -/
theorem act (h : w.Faithful) {a : Act E L C} (htasks : w.tasks = (source, .act a) :: rest) {bus : Bus L}
    (hleads : Bus.Leads w.bus bus) {ended : List Nat} (hended : ended = [] ∨
      ∃ s ∈ w.bus.subscriptions, ended = [s.id] ∧ ∀ t ∈ bus.subscriptions, t.id ≠ s.id) :
    ({ w with bus := bus, tasks := rest, ended := w.ended ++ ended } : Watch E L C).Faithful := by
  obtain ⟨hbusy, hgrounded, haddressed, hreached⟩ := h.upon htasks
  have hstill : ∀ id ∈ w.ended, id < bus.nextId ∧ ∀ s ∈ bus.subscriptions, s.id ≠ id := by
    intro id hid
    obtain ⟨hlt, hnone⟩ := h.endedAll id hid
    refine ⟨Nat.lt_of_lt_of_le hlt hleads.next, fun s hs => ?_⟩
    exact (hleads.subscriptions s hs).elim (hnone s) fun hnew => by omega
  refine ⟨hleads.orderly, hbusy, hgrounded,
    fun source event s hs => Nat.lt_of_lt_of_le (haddressed source event s hs) hleads.listeners,
    h.sources, hreached, ?_, ?_⟩
  · rcases hended with rfl | ⟨s, hs, rfl, -⟩
    · rw [List.append_nil]
      exact h.endedOnce
    · refine List.nodup_append.mpr ⟨h.endedOnce, List.nodup_singleton _, fun i hi j hj => ?_⟩
      rw [List.mem_singleton.mp hj]
      exact fun hij => (h.endedAll i hi).2 s hs hij.symm
  · rcases hended with rfl | ⟨s, hs, rfl, hnone⟩
    · rw [List.append_nil]
      exact hstill
    · exact List.forall_mem_append.mpr ⟨hstill, List.forall_mem_singleton.mpr
        ⟨Nat.lt_of_lt_of_le (h.orderly.fresh s hs) hleads.next, hnone⟩⟩

/-- A call of fire is for those that there are, but for the ones in the middle of an answer. -/
theorem fire (h : w.Faithful) {event : E} (htasks : w.tasks = (source, .act (.fire event)) :: rest) :
    ({ w with
      tasks := w.bus.subscriptions.map (fun s => (some w.calls.length, .deliver event s)) ++ rest
      calls := w.calls ++ [⟨event, w.bus.subscriptions, w.busy⟩] } : Watch E L C).Faithful := by
  obtain ⟨hbusy, hgrounded, haddressed, hreached⟩ := h.upon htasks
  obtain ⟨f, hf⟩ : ∃ f : Firing E, f = ⟨event, w.bus.subscriptions, w.busy⟩ := ⟨_, rfl⟩
  have hbefore : Grounded w.calls rest := hgrounded
  have hnone : w.calls[w.calls.length]? = none := List.getElem?_eq_none (Nat.le_refl _)
  have hcall : (w.calls ++ [f])[w.calls.length]? = some f := List.getElem?_concat_length
  have hsame : f.busy = releases rest := by
    rw [hf]
    exact hbusy
  obtain ⟨hreleases, hwaiting, hnew⟩ :=
    deliveries_spec hcall w.bus.subscriptions hsame (hbefore.mono [f])
  have hevent : f.event = event := by rw [hf]
  rw [hevent] at hreleases hwaiting hnew
  rw [← hf]
  refine ⟨h.orderly, hbusy.trans hreleases.symm, hnew, fun source event s hs => ?_, fun d hd => ?_,
    fun c g hg => ?_, h.endedOnce, h.endedAll⟩
  · rcases List.mem_append.mp hs with hs | hs
    · obtain ⟨t, ht, hts⟩ := List.mem_map.mp hs
      obtain ⟨-, rfl⟩ := Task.deliver.inj (Prod.mk.inj hts).2
      exact h.orderly.known t ht
    · exact haddressed source event s hs
  · obtain ⟨c, g, hc, hg, hd⟩ := h.sources d hd
    exact ⟨c, g, hc, call_stays hg [f], hd⟩
  · rw [hwaiting]
    by_cases hc : c = w.calls.length
    · subst hc
      rw [hcall] at hg
      obtain rfl := Option.some.inj hg
      rw [h.heardFrom_eq_nil hnone, hbefore.waitingFor_eq_nil hnone, if_pos rfl, List.append_nil,
        List.nil_append, hf]
      rfl
    · have hold : w.calls[c]? = some g := by
        have hlt := (List.getElem?_eq_some_iff.mp hg).1
        rw [List.length_append, List.length_singleton] at hlt
        rwa [List.getElem?_append_left (by omega)] at hg
      rw [if_neg hc, List.nil_append]
      exact hreached c g hold

theorem release (h : w.Faithful) {n : Nat} (htasks : w.tasks = (source, .release n) :: rest) :
    ({ w with busy := w.busy.erase n, tasks := rest } : Watch E L C).Faithful := by
  obtain ⟨hbusy, hgrounded, haddressed, hreached⟩ := h.upon htasks
  refine ⟨h.orderly, ?_, hgrounded, haddressed, h.sources, hreached, h.endedOnce, h.endedAll⟩
  have hfirst : w.busy = n :: releases rest := hbusy
  rw [hfirst, List.erase_cons_head]

/-- When a delivery has its turn, it belongs to a call, and its listener is there; the listeners in the
middle of an answer are those of the call. -/
theorem delivery (h : w.Faithful) {event : E} {s : Subscription}
    (htasks : w.tasks = (source, .deliver event s) :: rest) :
    ∃ c f, source = some c ∧ w.calls[c]? = some f ∧ f.event = event ∧ f.busy = w.busy ∧
      s.listener < w.bus.listeners.length ∧ Grounded w.calls rest ∧
      ∀ d, waitingFor d w.tasks = (if d = c then [s] else []) ++ waitingFor d rest := by
  obtain ⟨hbusy, ⟨⟨c, f, rfl, hcall, hevent, hsame⟩, hrest⟩, -, -⟩ := h.upon htasks
  have hlistener := h.addressed (some c) event s (htasks ▸ List.mem_cons_self)
  refine ⟨c, f, rfl, hcall, hevent, hsame.trans hbusy.symm, hlistener, hrest, fun d => ?_⟩
  rw [htasks]
  by_cases hd : d = c
  · simp [waitingFor, hd]
  · have hne : ¬ (c = d) := fun hc => hd hc.symm
    simp [waitingFor, hd, hne]

theorem passed (h : w.Faithful) {event : E} {s : Subscription}
    (htasks : w.tasks = (source, .deliver event s) :: rest) (hbusy : s.listener ∈ w.busy) :
    ({ w with tasks := rest } : Watch E L C).Faithful := by
  obtain ⟨hreleases, -, haddressed, -⟩ := h.upon htasks
  obtain ⟨c, f, rfl, hcall, -, hsame, -, hrest, hwaiting⟩ := h.delivery htasks
  refine ⟨h.orderly, hreleases, hrest, haddressed, h.sources, fun d g hg => ?_, h.endedOnce, h.endedAll⟩
  rw [← h.reached d g hg, hwaiting]
  by_cases hd : d = c
  · subst hd
    rw [hcall] at hg
    obtain rfl := Option.some.inj hg
    have hrefused : f.admits s = false := by simp [Firing.admits, hsame, hbusy]
    simp [hrefused]
  · rw [if_neg hd, List.nil_append]

theorem answered (h : w.Faithful) {event : E} {s : Subscription}
    (htasks : w.tasks = (source, .deliver event s) :: rest) (hidle : s.listener ∉ w.busy) (l : L)
    (acts : List (Act E L C)) :
    ({ w with
      bus := w.bus.withListener s.listener l
      busy := s.listener :: w.busy
      tasks := acts.map (fun a => (source, .act a)) ++ (source, .release s.listener) :: rest
      heard := w.heard ++ [(source, event, s)] } : Watch E L C).Faithful := by
  obtain ⟨hbusy, -, haddressed, -⟩ := h.upon htasks
  obtain ⟨c, f, rfl, hcall, hevent, hsame, -, hrest, hwaiting⟩ := h.delivery htasks
  obtain ⟨hreleases, hnone, hgrounded⟩ :=
    acts_spec (some c) acts w.calls ((some c, .release s.listener) :: rest)
  have hleads := h.orderly.withListener s.listener l
  refine ⟨hleads.orderly, ?_, hgrounded hrest, fun source event t ht => ?_,
    List.forall_mem_append.mpr ⟨h.sources, List.forall_mem_singleton.mpr ⟨c, f, rfl, hcall, hevent.symm⟩⟩,
    fun d g hg => ?_, h.endedOnce, fun id hid => ?_⟩
  · rw [hreleases]
    exact congrArg (s.listener :: ·) hbusy
  · refine Nat.lt_of_lt_of_le (haddressed source event t ?_) hleads.listeners
    rcases List.mem_append.mp ht with ht | ht
    · obtain ⟨a, -, ha⟩ := List.mem_map.mp ht
      cases ha
    · exact (List.mem_cons.mp ht).resolve_left fun he => by cases he
  · have hafter : waitingFor d (acts.map (fun a => (some c, (.act a : Task E L C))) ++
        (some c, .release s.listener) :: rest) = waitingFor d rest := hnone d
    rw [hafter, ← h.reached d g hg, hwaiting, heardFrom_append]
    by_cases hd : d = c
    · subst hd
      rw [hcall] at hg
      obtain rfl := Option.some.inj hg
      have hadmitted : f.admits s = true := by simp [Firing.admits, hsame, hidle]
      simp [heardFrom, hadmitted]
    · have hne : ¬ (c = d) := fun hc => hd hc.symm
      simp [heardFrom, hd, hne]
  · exact h.endedAll id hid

/-- One task. -/
theorem step (b : Behaviour E L C) (h : w.Faithful) : (w.step b).Faithful := by
  cases htasks : w.tasks with
  | nil =>
    have hsame : w.step b = w := by simp only [Watch.step, htasks]
    rwa [hsame]
  | cons t rest =>
    obtain ⟨source, task⟩ := t
    cases task with
    | act a =>
      by_cases hfire : ∃ event, a = .fire event
      · obtain ⟨event, rfl⟩ := hfire
        rw [step_fire b htasks]
        exact h.fire htasks
      · obtain ⟨bus, ended, heq, hleads, hended⟩ :=
          step_act b htasks (fun event ha => hfire ⟨event, ha⟩) h.orderly
        rw [heq]
        exact h.act htasks hleads hended
    | release n =>
      rw [step_release b htasks]
      exact h.release htasks
    | deliver event s =>
      by_cases hbusy : s.listener ∈ w.busy
      · rw [step_passed b htasks hbusy]
        exact h.passed htasks hbusy
      · obtain ⟨c, f, -, -, -, -, hlistener, -, -⟩ := h.delivery htasks
        rw [step_reached b htasks hbusy (List.getElem?_eq_getElem hlistener)]
        exact h.answered htasks hbusy _ _

theorem run (b : Behaviour E L C) (h : w.Faithful) (n : Nat) : (w.run b n).Faithful := by
  induction n generalizing w with
  | zero => exact h
  | succ n ih => exact ih (h.step b)

end Faithful

end Watch

end ScoreText
