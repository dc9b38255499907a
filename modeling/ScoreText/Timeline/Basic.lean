import ScoreText.Number.Scalar
import ScoreText.Table
import ScoreText.Theory.Note

/-!
Where the next note goes. Each of sixteen tracks has sixteen layers, and each layer its own cursor.
The unit of time is the caller's: whole notes or milliseconds.
-/

set_option autoImplicit false

namespace ScoreText

/-- The tracks, and the layers of a track. -/
abbrev Slot := Fin 16

/-- The slot of a number, the last one for any number beyond. -/
def Slot.ofNat (n : Nat) : Slot := ⟨min n 15, by omega⟩

@[simp] theorem Slot.ofNat_val (s : Slot) : Slot.ofNat s.val = s := by
  apply Fin.ext
  simp only [Slot.ofNat]
  omega

structure Cursor (R : Type) where
  time : R
  /-- Where the group that sounds now began. -/
  anchor : R
  /-- As far as any note of the group reaches. -/
  groupEnd : R

/-- Where a note came to lie. A rest has neither an on nor an off; a note that continues a tie has
no on, and one that is tied over no off. -/
structure Placement (R : Type) where
  on : Option R
  off : Option R
  start : R
  finish : R

structure Timeline (R : Type) where
  cursors : Vector (Vector (Cursor R) 16) 16
  track : Slot
  layers : Vector Slot 16
  /-- The highest track used so far; all below it exist too. -/
  lastCreated : Option Slot
  bookmarks : Table R

namespace Cursor

variable {R : Type} [Scalar R]

def atTime (time : R) : Cursor R := ⟨time, time, time⟩

def advance (c : Cursor R) (length : R) : Cursor R :=
  let time := c.time + length
  { c with time := time, groupEnd := Scalar.max c.groupEnd time }

/-- Brings a cursor that is behind a time up to it. -/
def raise (c : Cursor R) (time : R) : Cursor R :=
  let raised := if c.time < time then { c with time := time, anchor := time } else c
  { raised with groupEnd := Scalar.max c.groupEnd time }

def latest (c : Cursor R) : R := Scalar.max c.time c.groupEnd

/-- Where a note starts: a first note opens a group once the last group has ended, a harmonic note
goes back to where its group began, any other follows on. -/
def approach (c : Cursor R) (note : Note R) : Cursor R :=
  let c :=
    if note.isFirst then atTime (Scalar.max c.time c.groupEnd) else c
  if note.isHarmonic then { c with time := c.anchor } else c

end Cursor

namespace Timeline

variable {R : Type} [Scalar R]

def start : Timeline R where
  cursors := Vector.replicate 16 (Vector.replicate 16 (.atTime ((0 : Nat) : R)))
  track := 0
  layers := Vector.replicate 16 0
  lastCreated := none
  bookmarks := .empty

def layer (t : Timeline R) : Slot := t.layers[t.track]

def cursorAt (t : Timeline R) (track layer : Slot) : Cursor R := t.cursors[track][layer]

def cursor (t : Timeline R) : Cursor R := t.cursorAt t.track t.layer

/-- The time of the current track and layer. -/
def time (t : Timeline R) : R := t.cursor.time

def withCursor (t : Timeline R) (c : Cursor R) : Timeline R :=
  { t with cursors := t.cursors.set t.track (t.cursors[t.track].set t.layer c) }

/-- The tracks up to a track that do not exist yet. -/
def missing (t : Timeline R) (track : Slot) : List Nat :=
  let first := (t.lastCreated.map fun s => s.val + 1).getD 0
  List.range' first (track.val + 1 - first)

/-- Goes to a track, which comes into being with all below it. The new ones are returned. -/
def setTrack (t : Timeline R) (n : Nat) : Timeline R × List Nat :=
  let track := Slot.ofNat n
  let created := t.missing track
  ({ t with
    track := track
    lastCreated := if created.isEmpty then t.lastCreated else some track }, created)

def setLayer (t : Timeline R) (n : Nat) : Timeline R :=
  { t with layers := t.layers.set t.track (Slot.ofNat n) }

def createdTracks (t : Timeline R) : List Nat :=
  match t.lastCreated with
  | some last => List.range (last.val + 1)
  | none => []

def isCreated (t : Timeline R) (n : Nat) : Bool := t.lastCreated.any fun last => n ≤ last.val

/-- Goes to a time, where no group is open. -/
def setTime (t : Timeline R) (time : R) : Timeline R := t.withCursor (.atTime time)

def advance (t : Timeline R) (length : R) : Timeline R := t.withCursor (t.cursor.advance length)

/-- Brings every cursor that is behind a time up to it. -/
def raiseAll (t : Timeline R) (time : R) : Timeline R :=
  { t with cursors := t.cursors.map fun layers => layers.map fun c => c.raise time }

/-- The latest time of any layer of a track, sounding notes included. -/
def latest (t : Timeline R) (n : Nat) : R :=
  (t.cursors[Slot.ofNat n].toList.map Cursor.latest).foldl Scalar.max ((0 : Nat) : R)

def setBookmark (t : Timeline R) (name : Text) : Timeline R :=
  { t with bookmarks := t.bookmarks.insert name t.time }

def bookmark? (t : Timeline R) (name : Text) : Option R := t.bookmarks.get? name

/-- Goes to a bookmark, if there is one of the name. -/
def jump? (t : Timeline R) (name : Text) : Option (Timeline R) := (t.bookmark? name).map t.setTime

def jump (t : Timeline R) (name : Text) : Timeline R := (t.jump? name).getD t

/-- Places a note of a length on the current track and layer. -/
def place (t : Timeline R) (note : Note R) (length : R) : Timeline R × Placement R :=
  let approached := t.cursor.approach note
  let after := approached.advance length
  let placement : Placement R :=
    { on := if note.isRest || note.endsTie then none else some approached.time
      off := if note.isRest || note.startsTie then none else some after.time
      start := approached.time
      finish := after.time }
  (t.withCursor after, placement)

/-- The length of a note, or the given one for a note without a length above zero. -/
def lengthOf (note : Note R) (fallback : R) : R :=
  if ((0 : Nat) : R) < note.length then note.length else fallback

end Timeline

end ScoreText
