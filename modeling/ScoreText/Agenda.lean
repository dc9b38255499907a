/-!
What is filed under whole numbers that stand for times: buckets in ascending order, each holding its
items in the order they were filed. No bucket is empty.
-/

set_option autoImplicit false

namespace ScoreText

structure Agenda (α : Type) where
  buckets : List (Nat × List α) := []

namespace Agenda

variable {α : Type}

def empty : Agenda α := {}

def isEmpty (a : Agenda α) : Bool := a.buckets.isEmpty

/-- Puts an item at the end of the bucket of a time. -/
def addTo (time : Nat) (item : α) : List (Nat × List α) → List (Nat × List α)
  | [] => [(time, [item])]
  | (t, items) :: rest =>
    if time < t then (time, [item]) :: (t, items) :: rest
    else if time = t then (t, items ++ [item]) :: rest
    else (t, items) :: addTo time item rest

def add (a : Agenda α) (time : Nat) (item : α) : Agenda α := ⟨addTo time item a.buckets⟩

/-- The items filed under a time. -/
def itemsAt (a : Agenda α) (time : Nat) : List α := (a.buckets.lookup time).getD []

/-- The agenda without the bucket of a time. -/
def clearAt (a : Agenda α) (time : Nat) : Agenda α := ⟨a.buckets.filter fun b => !b.1 == time⟩

/-- The agenda without the items that `gone` holds of. -/
def remove (a : Agenda α) (gone : α → Bool) : Agenda α :=
  ⟨(a.buckets.map fun (t, items) => (t, items.filter fun x => !gone x)).filter fun b =>
    !b.2.isEmpty⟩

def any (a : Agenda α) (p : α → Bool) : Bool := a.buckets.any fun b => b.2.any p

/-- All items with their times, by time and within one time in the order they were filed. -/
def toList (a : Agenda α) : List (Nat × α) :=
  a.buckets.flatMap fun (t, items) => items.map fun x => (t, x)

/-- The last time that anything is filed under. -/
def last? (a : Agenda α) : Option Nat := a.buckets.getLast?.map Prod.fst

end Agenda

end ScoreText
