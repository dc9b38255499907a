import Mathlib.Algebra.Order.Field.Rat
import Mathlib.Data.Rat.Floor
import Mathlib.Tactic.FieldSimp
import Mathlib.Tactic.Ring
import ScoreText.Sequence.Sequencer

/-!
The cursor of the current track and layer in exact fractions. Ticks and whole notes convert into one
another without loss.
-/

set_option autoImplicit false

namespace ScoreText

namespace Scalar

theorem max_rat (a b : Rat) : Scalar.max a b = Max.max a b := by
  simp only [Scalar.max, beq_self_eq_true, if_true]
  split
  · rw [max_eq_right (by linarith)]
  · rw [max_eq_left (by linarith)]

end Scalar

namespace Tick

theorem toBeats_rat (tick resolution : Nat) :
    (toBeats tick resolution : Rat) = (tick : Rat) / ((resolution : Rat) * 4) := rfl

theorem ofBeats_rat (beats : Rat) (resolution : Nat) :
    ofBeats beats resolution = (Max.max ((resolution : Rat) * beats * 4) 0).floor.toNat := by
  have : ofBeats beats resolution =
      (Scalar.max ((resolution : Rat) * beats * 4) 0).floor.toNat := rfl
  rw [this, Scalar.max_rat]

variable {resolution : Nat}

theorem ofBeats_toBeats (h : 0 < resolution) (tick : Nat) :
    ofBeats (toBeats tick resolution : Rat) resolution = tick := by
  have hpos : (0 : Rat) < resolution := by exact_mod_cast h
  have hexact : (resolution : Rat) * ((tick : Rat) / (resolution * 4)) * 4 = tick := by
    field_simp
  rw [ofBeats_rat, toBeats_rat, hexact, max_eq_left (Nat.cast_nonneg tick)]
  exact congrArg Int.toNat (Rat.floor_intCast tick)

theorem toBeats_add (a b : Nat) :
    (toBeats a resolution : Rat) + toBeats b resolution = toBeats (a + b) resolution := by
  simp only [toBeats_rat, Nat.cast_add]
  ring

theorem toBeats_le {a b : Nat} (h : a ≤ b) :
    (toBeats a resolution : Rat) ≤ toBeats b resolution := by
  simp only [toBeats_rat]
  gcongr

theorem toBeats_pos (h : 0 < resolution) {tick : Nat} (ht : 0 < tick) :
    (0 : Rat) < toBeats tick resolution := by
  have hpos : (0 : Rat) < resolution := by exact_mod_cast h
  have htick : (0 : Rat) < tick := by exact_mod_cast ht
  rw [toBeats_rat]
  positivity

theorem toBeats_zero : (toBeats 0 resolution : Rat) = 0 := by
  simp [toBeats_rat]

end Tick

namespace Timeline

variable {R : Type}

@[simp] theorem cursor_withCursor (t : Timeline R) (c : Cursor R) : (t.withCursor c).cursor = c := by
  simp [withCursor, cursor, cursorAt, layer]

@[simp] theorem track_withCursor (t : Timeline R) (c : Cursor R) :
    (t.withCursor c).track = t.track := rfl

@[simp] theorem layers_withCursor (t : Timeline R) (c : Cursor R) :
    (t.withCursor c).layers = t.layers := rfl

@[simp] theorem withCursor_withCursor (t : Timeline R) (c d : Cursor R) :
    (t.withCursor c).withCursor d = t.withCursor d := by
  simp [withCursor, layer]

@[simp] theorem withCursor_cursor (t : Timeline R) : t.withCursor t.cursor = t := by
  simp [withCursor, cursor, cursorAt]

theorem cursorAt_withCursor (t : Timeline R) (c : Cursor R) {track : Slot} (layer : Slot)
    (h : track ≠ t.track) : (t.withCursor c).cursorAt track layer = t.cursorAt track layer := by
  have hne : t.track.val ≠ track.val := fun k => h (Fin.ext k.symm)
  simp [withCursor, cursorAt, Vector.getElem_set_ne, hne]

theorem setTrack_track (t : Timeline R) {n : Nat} (h : n < 16) :
    (t.setTrack n).1.track = ⟨n, h⟩ := by
  apply Fin.ext
  simp only [setTrack, Slot.ofNat]
  omega

@[simp] theorem cursors_setTrack (t : Timeline R) (n : Nat) :
    (t.setTrack n).1.cursors = t.cursors := rfl

@[simp] theorem layers_setTrack (t : Timeline R) (n : Nat) :
    (t.setTrack n).1.layers = t.layers := rfl

@[simp] theorem cursorAt_setTrack (t : Timeline R) (n : Nat) (track layer : Slot) :
    (t.setTrack n).1.cursorAt track layer = t.cursorAt track layer := rfl

end Timeline

end ScoreText
