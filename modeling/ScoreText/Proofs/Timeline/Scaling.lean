import ScoreText.Proofs.Timeline.Reach
import ScoreText.Proofs.Timeline.Remapping

/-!
Time in another unit: every time is multiplied by the same positive number.
-/

set_option autoImplicit false

namespace ScoreText

variable {k : Rat}

theorem monotone_scaled (hk : 0 < k) : Monotone (k * ·) := fun _ _ h =>
  mul_le_mul_of_nonneg_left h hk.le

theorem matches_scaled (k length : Rat) : Matches (k * ·) length (k * length) := fun time =>
  (mul_add k time length).symm

/-- The cursor with every time multiplied by a number. -/
def Cursor.scale (k : Rat) (c : Cursor Rat) : Cursor Rat := ⟨k * c.time, k * c.anchor, k * c.groupEnd⟩

namespace Timeline

/-- The timeline with every time multiplied by a number, those of the bookmarks included. -/
def scale (k : Rat) (t : Timeline Rat) : Timeline Rat :=
  { t with
    cursors := t.cursors.map fun layers => layers.map (Cursor.scale k)
    bookmarks := t.bookmarks.mapValues (k * ·) }

@[simp] theorem track_scale (t : Timeline Rat) : (t.scale k).track = t.track := rfl

@[simp] theorem cursorAt_scale (t : Timeline Rat) (track layer : Slot) :
    (t.scale k).cursorAt track layer = (t.cursorAt track layer).scale k :=
  cursorAt_remap t track layer

theorem time_scale (t : Timeline Rat) : (t.scale k).time = k * t.time := time_remap t

theorem scale_start : (start : Timeline Rat).scale k = start := by
  simp [start, scale, Table.mapValues, Table.empty, Cursor.scale, Cursor.atTime]

theorem scale_setTrack (t : Timeline Rat) (n : Nat) :
    ((t.scale k).setTrack n).1 = (t.setTrack n).1.scale k := remap_setTrack t n

theorem scale_setLayer (t : Timeline Rat) (n : Nat) :
    (t.scale k).setLayer n = (t.setLayer n).scale k := remap_setLayer t n

theorem scale_setTime (t : Timeline Rat) (time : Rat) :
    (t.scale k).setTime (k * time) = (t.setTime time).scale k := remap_setTime t time

theorem scale_setBookmark (t : Timeline Rat) (name : Text) :
    (t.scale k).setBookmark name = (t.setBookmark name).scale k := remap_setBookmark t name

theorem scale_jump (t : Timeline Rat) (name : Text) :
    (t.scale k).jump name = (t.jump name).scale k := remap_jump t name

theorem scale_place (hk : 0 < k) (t : Timeline Rat) (n : Note Rat) (length : Rat) :
    ((t.scale k).place n (k * length)).1 = (t.place n length).1.scale k ∧
      ((t.scale k).place n (k * length)).2.start = k * (t.place n length).2.start := by
  have hplaced := remap_place (monotone_scaled hk) (matches_scaled k length) t n
  exact ⟨congrArg Prod.fst hplaced, congrArg (fun r => r.2.start) hplaced⟩

end Timeline

end ScoreText
