/-!
A bus and the listeners subscribed to it. Subscriptions are numbered as they are made and no number
is given twice, so that ending one never touches another.
-/

set_option autoImplicit false

namespace ScoreText

/-- One subscription of a listener, which is named by its place among all there have been. -/
structure Subscription where
  id : Nat
  listener : Nat
  deriving DecidableEq, Repr

structure Bus (L : Type) where
  /-- Every listener there has been. -/
  listeners : List L := []
  /-- What lasts, in the order in which it was made. -/
  subscriptions : List Subscription := []
  nextId : Nat := 0
  /-- The subscriptions handed out to callers, ended ones included. -/
  handles : List Subscription := []

namespace Bus

variable {L : Type}

def listener? (b : Bus L) (n : Nat) : Option L := b.listeners[n]?

def withListener (b : Bus L) (n : Nat) (l : L) : Bus L :=
  { b with listeners := b.listeners.set n l }

/-- A new subscription of a listener that the bus knows. -/
def subscribe (b : Bus L) (listener : Nat) : Bus L × Subscription :=
  let s : Subscription := ⟨b.nextId, listener⟩
  ({ b with subscriptions := b.subscriptions ++ [s], nextId := b.nextId + 1 }, s)

/-- Subscribes a new listener. -/
def join (b : Bus L) (l : L) : Bus L × Subscription :=
  { b with listeners := b.listeners ++ [l] }.subscribe b.listeners.length

/-- Ends the subscription of a number, and says whether there was one. -/
def unsubscribe (b : Bus L) (id : Nat) : Bus L × Bool :=
  ({ b with subscriptions := b.subscriptions.filter fun s => !s.id == id },
    b.subscriptions.any fun s => s.id == id)

/-- The bus without any subscriptions. -/
def clear (b : Bus L) : Bus L := { b with subscriptions := [] }

def size (b : Bus L) : Nat := b.subscriptions.length

/-- Hands out a subscription. -/
def hand (b : Bus L) (s : Subscription) : Bus L := { b with handles := b.handles ++ [s] }

/-- Subscribes a new listener and hands out the subscription. -/
def attach (b : Bus L) (l : L) : Bus L :=
  let (b, s) := b.join l
  b.hand s

/-- Ends the subscription handed out at a place. -/
def detach (b : Bus L) (handle : Nat) : Bus L × Bool :=
  match b.handles[handle]? with
  | some s => b.unsubscribe s.id
  | none => (b, false)

/-- The listener of the subscription handed out at a place. -/
def listenerOf? (b : Bus L) (handle : Nat) : Option L :=
  b.handles[handle]?.bind fun s => b.listener? s.listener

/-- Changes the listener of the subscription handed out at a place. -/
def adjust (b : Bus L) (handle : Nat) (change : L → L) : Bus L :=
  match b.handles[handle]? with
  | some s => { b with listeners := b.listeners.modify s.listener change }
  | none => b

/-- Ids given so far are below the next one. -/
def Fresh (b : Bus L) : Prop := ∀ s ∈ b.subscriptions, s.id < b.nextId

theorem Fresh.subscribe {b : Bus L} (h : b.Fresh) (listener : Nat) :
    (b.subscribe listener).1.Fresh := by
  intro s hs
  simp only [Bus.subscribe, List.mem_append, List.mem_singleton] at hs ⊢
  rcases hs with hs | rfl
  · exact Nat.lt_succ_of_lt (h s hs)
  · exact Nat.lt_succ_self _

end Bus

end ScoreText
