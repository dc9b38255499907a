import ScoreText.Bus.Basic

/-!
Delivery of events. An event goes to the subscriptions that there are when it is fired, in their
order. A listener answers it with acts on the bus, which are carried out before the next listener
has its turn; until they are done the listener is busy and hears nothing else.
-/

set_option autoImplicit false

namespace ScoreText

/-- What a listener may do to the bus. -/
inductive Act (E L C : Type) where
  /-- Subscribes a new listener. -/
  | attach (listener : L)
  /-- Subscribes a listener that the bus knows once more. -/
  | subscribe (listener : Nat)
  /-- Ends the subscription handed out at a place. -/
  | detach (handle : Nat)
  /-- Changes the listener of the subscription handed out at a place. -/
  | adjust (handle : Nat) (change : C)
  | fire (event : E)
  | clear

/-- How listeners answer events, and what changes do to them. -/
structure Behaviour (E L C : Type) where
  respond : L → E → L × List (Act E L C)
  change : C → L → L

/-- What is still to do. -/
inductive Task (E L C : Type) where
  | act (act : Act E L C)
  | deliver (event : E) (subscription : Subscription)
  | release (listener : Nat)

/-- A bus at work. -/
structure Dispatch (E L C : Type) where
  bus : Bus L
  /-- The listeners in the middle of an answer, the innermost first. -/
  busy : List Nat
  tasks : List (Task E L C)

namespace Dispatch

variable {E L C : Type}

/-- The tasks that firing an event gives. -/
def deliveries (bus : Bus L) (event : E) : List (Task E L C) :=
  bus.subscriptions.map (.deliver event)

/-- An act of a bus whose other tasks are `rest`. -/
def perform (b : Behaviour E L C) (d : Dispatch E L C) (rest : List (Task E L C)) :
    Act E L C → Dispatch E L C
  | .attach l => { d with bus := d.bus.attach l, tasks := rest }
  | .subscribe n =>
    match d.bus.listener? n with
    | none => { d with tasks := rest }
    | some _ =>
      let (bus, s) := d.bus.subscribe n
      { d with bus := bus.hand s, tasks := rest }
  | .detach handle => { d with bus := (d.bus.detach handle).1, tasks := rest }
  | .adjust handle change =>
    { d with bus := d.bus.adjust handle (b.change change), tasks := rest }
  | .fire event => { d with tasks := deliveries d.bus event ++ rest }
  | .clear => { d with bus := d.bus.clear, tasks := rest }

/-- The listener that a delivery reaches: one that is not busy. -/
def reached? (d : Dispatch E L C) (s : Subscription) : Option L :=
  if d.busy.contains s.listener then none else d.bus.listener? s.listener

/-- One task, if any is left. -/
def step (b : Behaviour E L C) (d : Dispatch E L C) : Dispatch E L C :=
  match d.tasks with
  | [] => d
  | .act a :: rest => d.perform b rest a
  | .release n :: rest => { d with busy := d.busy.erase n, tasks := rest }
  | .deliver event s :: rest =>
    match d.reached? s with
    | none => { d with tasks := rest }
    | some l =>
      let (l, acts) := b.respond l event
      { bus := d.bus.withListener s.listener l
        busy := s.listener :: d.busy
        tasks := acts.map .act ++ .release s.listener :: rest }

/-- What the next step delivers, and to which subscription. -/
def delivery? (d : Dispatch E L C) : Option (E × Subscription) :=
  match d.tasks with
  | .deliver event s :: _ => (d.reached? s).map fun _ => (event, s)
  | _ => none

/-- Steps until nothing is left to do. Listeners that keep attaching others which fire would go on
for ever, so there are at most `fuel` steps. -/
def run (b : Behaviour E L C) : Nat → Dispatch E L C → Dispatch E L C
  | 0, d => d
  | fuel + 1, d => if d.tasks.isEmpty then d else run b fuel (d.step b)

end Dispatch

namespace Bus

variable {E L C : Type}

/-- So many steps are more than listeners that come to an end take. -/
def stepLimit : Nat := 100000000

/-- Carries out acts one after another, each with all that it leads to. -/
def performAll (b : Behaviour E L C) (bus : Bus L) (acts : List (Act E L C)) : Bus L :=
  (Dispatch.run b stepLimit ⟨bus, [], acts.map .act⟩).bus

end Bus

end ScoreText
