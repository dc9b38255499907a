import ScoreText.Proofs.Timeline.Cursor

/-!
What holds of every cursor at all times. A property of cursors lasts if it holds wherever a time
request leads and if a note that is placed keeps it; no other event touches a cursor.
-/

set_option autoImplicit false

namespace ScoreText

variable {R : Type}

/-- A property that holds of any cursor without a group, and that notes keep. -/
structure Cursor.Lasting [Scalar R] (P : Cursor R → Prop) (noteLength : R) : Prop where
  atTime : ∀ time, P (.atTime time)
  placed : ∀ c note, P c → P ((c.approach note).advance (Timeline.lengthOf note noteLength))

namespace Timeline

/-- All the cursors have a property. -/
def Everywhere (P : Cursor R → Prop) (t : Timeline R) : Prop :=
  ∀ track layer, P (t.cursorAt track layer)

theorem cursorAt_withCursor_layer (t : Timeline R) (c : Cursor R) {layer : Slot}
    (h : layer ≠ t.layer) :
    (t.withCursor c).cursorAt t.track layer = t.cursorAt t.track layer := by
  have hne : t.layer.val ≠ layer.val := fun k => h (Fin.ext k.symm)
  simp [withCursor, cursorAt, Vector.getElem_set_ne, hne]

theorem cursorAt_withCursor_self (t : Timeline R) (c : Cursor R) :
    (t.withCursor c).cursorAt t.track t.layer = c :=
  cursor_withCursor t c

theorem Everywhere.withCursor {P : Cursor R → Prop} {t : Timeline R} (h : t.Everywhere P)
    {c : Cursor R} (hc : P c) : (t.withCursor c).Everywhere P := by
  intro track layer
  by_cases ht : track = t.track
  · subst ht
    by_cases hl : layer = t.layer
    · subst hl
      rwa [cursorAt_withCursor_self]
    · rw [cursorAt_withCursor_layer t c hl]
      exact h _ _
  · rw [cursorAt_withCursor t c layer ht]
    exact h _ _

variable [Scalar R] {P : Cursor R → Prop} {noteLength : R}

theorem everywhere_start (hP : Cursor.Lasting P noteLength) : (start : Timeline R).Everywhere P := by
  intro track layer
  simpa [start, cursorAt] using hP.atTime _

theorem Everywhere.setTime {t : Timeline R} (hP : Cursor.Lasting P noteLength)
    (h : t.Everywhere P) (time : R) : (t.setTime time).Everywhere P :=
  h.withCursor (hP.atTime time)

theorem Everywhere.jump {t : Timeline R} (hP : Cursor.Lasting P noteLength) (h : t.Everywhere P)
    (name : Text) : (t.jump name).Everywhere P := by
  rw [Timeline.jump, jump?]
  cases t.bookmark? name with
  | none => exact h
  | some time => exact h.setTime hP time

end Timeline

namespace Sequencer

variable [Scalar R] {P : Cursor R → Prop} {s : Sequencer R}

theorem hearAll_append (s : Sequencer R) (before after : List (Event R)) :
    s.hearAll (before ++ after) =
      (((s.hearAll before).1.hearAll after).1,
        (s.hearAll before).2 ++ ((s.hearAll before).1.hearAll after).2) := by
  induction before generalizing s with
  | nil => rfl
  | cons event rest ih => simp [hearAll, ih, List.append_assoc]

theorem playNotes_cons (s : Sequencer R) (note : Note R) (rest : List (Note R)) :
    (s.playNotes (note :: rest)).2 = (s.playNote note).2 ++ ((s.playNote note).1.playNotes rest).2 := rfl

@[simp] theorem noteLength_playNotes (s : Sequencer R) (notes : List (Note R)) :
    (s.playNotes notes).1.noteLength = s.noteLength := by
  induction notes generalizing s with
  | nil => rfl
  | cons note rest ih => exact ih (s.playNote note).1

@[simp] theorem noteLength_hear (s : Sequencer R) (event : Event R) :
    (s.hear event).1.noteLength = s.noteLength := by
  cases event with
  | chord c => exact noteLength_playNotes s c.notes
  | _ => rfl

@[simp] theorem noteLength_hearAll (s : Sequencer R) (events : List (Event R)) :
    (s.hearAll events).1.noteLength = s.noteLength := by
  induction events generalizing s with
  | nil => rfl
  | cons event rest ih => exact (ih (s.hear event).1).trans (noteLength_hear s event)

theorem everywhere_playNotes (hP : Cursor.Lasting P s.noteLength) (h : s.timeline.Everywhere P)
    (notes : List (Note R)) : (s.playNotes notes).1.timeline.Everywhere P := by
  induction notes generalizing s with
  | nil => exact h
  | cons note rest ih =>
    have hplaced : (s.playNote note).1.timeline.Everywhere P :=
      h.withCursor (hP.placed _ note (h _ _))
    exact ih (s := (s.playNote note).1) hP hplaced

/-- An event keeps whatever lasts. -/
theorem everywhere_hear (hP : Cursor.Lasting P s.noteLength) (h : s.timeline.Everywhere P)
    (event : Event R) : (s.hear event).1.timeline.Everywhere P := by
  cases event with
  | note n => exact h.withCursor (hP.placed _ n (h _ _))
  | chord c => exact everywhere_playNotes hP h c.notes
  | timeRequest time => exact h.setTime hP time
  | bookmarkRequest name => exact h.jump hP name
  | _ => exact h

theorem everywhere_hearAll (hP : Cursor.Lasting P s.noteLength) (h : s.timeline.Everywhere P)
    (events : List (Event R)) : (s.hearAll events).1.timeline.Everywhere P := by
  induction events generalizing s with
  | nil => exact h
  | cons event rest ih =>
    have hheard := everywhere_hear hP h event
    rw [← noteLength_hear s event] at hP
    exact ih hP hheard

theorem everywhere_run {noteLength : R} (hP : Cursor.Lasting P noteLength) (resolution : Nat)
    (events : List (Event R)) :
    ((start resolution noteLength).1.hearAll events).1.timeline.Everywhere P :=
  everywhere_hearAll (s := (start resolution noteLength).1) hP (Timeline.everywhere_start hP) events

end Sequencer

end ScoreText
