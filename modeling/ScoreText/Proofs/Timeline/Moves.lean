import ScoreText.Proofs.Timeline.Reach

/-!
All that can be asked of a timeline, one thing after another. What one move does to the cursor of a track and
layer is said once; from it follow, over any moves in between, where a note starts after another one was placed.
-/

set_option autoImplicit false

namespace ScoreText

namespace Cursor

variable {R : Type} [Scalar R]

theorem groupEnd_le_approach (laws : Scalar.Ordered R) (c : Cursor R) (n : Note R) :
    c.groupEnd ≤ (c.approach n).groupEnd := by
  unfold approach
  cases n.isFirst with
  | true => cases n.isHarmonic <;> exact laws.right_le_max _ _
  | false => cases n.isHarmonic <;> exact laws.refl _

theorem anchor_approach_of_not_first (c : Cursor R) {n : Note R} (h : n.isFirst = false) :
    (c.approach n).anchor = c.anchor := by
  unfold approach
  rw [h]
  cases n.isHarmonic <;> rfl

/-- A first note waits for all of the group before it. -/
theorem groupEnd_le_time_approach (laws : Scalar.Ordered R) (c : Cursor R) {n : Note R}
    (h : n.isFirst = true) : c.groupEnd ≤ (c.approach n).time := by
  unfold approach
  rw [h]
  cases n.isHarmonic <;> exact laws.right_le_max _ _

theorem time_le_raise (c : Cursor Rat) (time : Rat) : c.time ≤ (c.raise time).time := by
  unfold raise
  split
  · exact le_of_lt ‹_›
  · exact le_refl _

end Cursor

namespace Timeline

inductive Move (R : Type) where
  | setTrack (n : Nat)
  | setLayer (n : Nat)
  | place (note : Note R) (length : R)
  | setTime (time : R)
  | advance (length : R)
  | raiseAll (time : R)
  | setBookmark (name : Text)
  | jump (name : Text)

variable {R : Type}

/-- A track and layer are the current ones. -/
def At (t : Timeline R) (track layer : Slot) : Prop := t.track = track ∧ t.layer = layer

instance (t : Timeline R) (track layer : Slot) : Decidable (t.At track layer) :=
  inferInstanceAs (Decidable (_ ∧ _))

theorem cursor_eq {t : Timeline R} {track layer : Slot} (h : t.At track layer) :
    t.cursor = t.cursorAt track layer := by
  obtain ⟨rfl, rfl⟩ := h
  rfl

theorem cursorAt_withCursor_eq (t : Timeline R) (c : Cursor R) (track layer : Slot) :
    (t.withCursor c).cursorAt track layer = if t.At track layer then c else t.cursorAt track layer := by
  by_cases ht : track = t.track
  · subst ht
    by_cases hl : layer = t.layer
    · subst hl
      rw [cursorAt_withCursor_self, if_pos ⟨rfl, rfl⟩]
    · rw [cursorAt_withCursor_layer t c hl, if_neg fun h => hl h.2.symm]
  · rw [cursorAt_withCursor t c layer ht, if_neg fun h => ht h.1.symm]

namespace Move

variable (t : Timeline R) (track layer : Slot)

/-- The move takes the cursor of a track and layer to a time, wherever it was. -/
def Relocates : Move R → Prop
  | .setTime _ => t.At track layer
  | .jump name => t.At track layer ∧ (t.bookmark? name).isSome = true
  | _ => False

/-- The move places a first note on a track and layer. -/
def Opens : Move R → Prop
  | .place note _ => t.At track layer ∧ note.isFirst = true
  | _ => False

def IsRaise : Move R → Prop
  | .raiseAll _ => True
  | _ => False

/-- The move is made on the cursor of a track and layer. -/
def Touches : Move R → Prop
  | .place _ _ | .setTime _ | .advance _ => t.At track layer
  | .jump name => t.At track layer ∧ (t.bookmark? name).isSome = true
  | .raiseAll _ => True
  | .setTrack _ | .setLayer _ | .setBookmark _ => False

instance : DecidablePred (Relocates t track layer)
  | .setTime _ => inferInstanceAs (Decidable (t.At track layer))
  | .jump _ => inferInstanceAs (Decidable (_ ∧ _))
  | .setTrack _ | .setLayer _ | .place _ _ | .advance _ | .raiseAll _ | .setBookmark _ =>
    inferInstanceAs (Decidable False)

instance : DecidablePred (Opens t track layer)
  | .place _ _ => inferInstanceAs (Decidable (_ ∧ _))
  | .setTrack _ | .setLayer _ | .setTime _ | .advance _ | .raiseAll _ | .setBookmark _ | .jump _ =>
    inferInstanceAs (Decidable False)

instance : DecidablePred (IsRaise : Move R → Prop)
  | .raiseAll _ => inferInstanceAs (Decidable True)
  | .setTrack _ | .setLayer _ | .place _ _ | .setTime _ | .advance _ | .setBookmark _ | .jump _ =>
    inferInstanceAs (Decidable False)

instance : DecidablePred (Touches t track layer)
  | .place _ _ | .setTime _ | .advance _ => inferInstanceAs (Decidable (t.At track layer))
  | .jump _ => inferInstanceAs (Decidable (_ ∧ _))
  | .raiseAll _ => inferInstanceAs (Decidable True)
  | .setTrack _ | .setLayer _ | .setBookmark _ => inferInstanceAs (Decidable False)

variable {t track layer}

theorem Touches.at_of_not_raise {m : Move R} (h : m.Touches t track layer) (hm : ¬ m.IsRaise) :
    t.At track layer := by
  cases m with
  | place | setTime | advance => exact h
  | jump => exact h.1
  | raiseAll => exact absurd trivial hm
  | setTrack | setLayer | setBookmark => exact absurd h not_false

end Move

variable [Scalar R]

def make (t : Timeline R) : Move R → Timeline R
  | .setTrack n => (t.setTrack n).1
  | .setLayer n => t.setLayer n
  | .place note length => (t.place note length).1
  | .setTime time => t.setTime time
  | .advance length => t.advance length
  | .raiseAll time => t.raiseAll time
  | .setBookmark name => t.setBookmark name
  | .jump name => t.jump name

def makeAll (t : Timeline R) (ms : List (Move R)) : Timeline R := ms.foldl make t

theorem cursorAt_raiseAll (t : Timeline R) (time : R) (track layer : Slot) :
    (t.raiseAll time).cursorAt track layer = (t.cursorAt track layer).raise time := by
  simp [raiseAll, cursorAt]

/-- Every one of the moves is as said, on the timeline that it is made on. -/
def Throughout (P : Timeline R → Move R → Prop) : Timeline R → List (Move R) → Prop
  | _, [] => True
  | t, m :: rest => P t m ∧ Throughout P (t.make m) rest

instance Throughout.decidable {P : Timeline R → Move R → Prop} [∀ t m, Decidable (P t m)] :
    (t : Timeline R) → (ms : List (Move R)) → Decidable (Throughout P t ms)
  | _, [] => inferInstanceAs (Decidable True)
  | t, m :: rest => @instDecidableAnd _ _ _ (Throughout.decidable (t.make m) rest)

/-- What every move leaves as it was is as it was after all of them. -/
theorem Throughout.keeps {P : Timeline R → Move R → Prop} {α : Type} {le : α → α → Prop}
    (hrefl : ∀ a, le a a) (htrans : ∀ {a b c}, le a b → le b c → le a c) (f : Timeline R → α)
    (hstep : ∀ t m, P t m → le (f t) (f (t.make m))) {t : Timeline R} {ms : List (Move R)}
    (h : Throughout P t ms) : le (f t) (f (t.makeAll ms)) := by
  induction ms generalizing t with
  | nil => exact hrefl _
  | cons m rest ih => exact htrans (hstep t m h.1) (ih h.2)

section Step

variable (t : Timeline R) (m : Move R) (track layer : Slot)

/-- All that a move can do to the cursor of a track and layer. -/
theorem make_cases :
    (t.make m).cursorAt track layer = t.cursorAt track layer ∨
      (m.Touches t track layer ∧
        ((∃ note length, m = .place note length ∧
            (t.make m).cursorAt track layer = ((t.cursorAt track layer).approach note).advance length) ∨
          (∃ length, m = .advance length ∧
            (t.make m).cursorAt track layer = (t.cursorAt track layer).advance length) ∨
          (∃ time, m = .raiseAll time ∧
            (t.make m).cursorAt track layer = (t.cursorAt track layer).raise time) ∨
          (m.Relocates t track layer ∧ ∃ time, (t.make m).cursorAt track layer = .atTime time))) := by
  have hcursor := fun c => cursorAt_withCursor_eq t c track layer
  by_cases hat : t.At track layer
  · simp only [hat, if_true] at hcursor
    rw [← cursor_eq hat]
    cases m with
    | setTrack | setLayer | setBookmark => exact .inl (cursor_eq hat).symm
    | place note length => exact .inr ⟨hat, .inl ⟨note, length, rfl, hcursor _⟩⟩
    | setTime time => exact .inr ⟨hat, .inr (.inr (.inr ⟨hat, time, hcursor _⟩))⟩
    | advance length => exact .inr ⟨hat, .inr (.inl ⟨length, rfl, hcursor _⟩)⟩
    | raiseAll time =>
      refine .inr ⟨trivial, .inr (.inr (.inl ⟨time, rfl, ?_⟩))⟩
      rw [cursor_eq hat, make, cursorAt_raiseAll]
    | jump name =>
      simp only [make, jump, jump?, Move.Touches, Move.Relocates, hat, true_and]
      cases t.bookmark? name with
      | none => exact .inl (cursor_eq hat).symm
      | some time => exact .inr ⟨rfl, .inr (.inr (.inr ⟨rfl, time, hcursor _⟩))⟩
  · simp only [hat, if_false] at hcursor
    cases m with
    | setTrack | setLayer | setBookmark => exact .inl rfl
    | place | setTime | advance => exact .inl (hcursor _)
    | raiseAll time => exact .inr ⟨trivial, .inr (.inr (.inl ⟨time, rfl, cursorAt_raiseAll t time track layer⟩))⟩
    | jump name =>
      refine .inl ?_
      simp only [make, jump, jump?]
      cases t.bookmark? name with
      | none => rfl
      | some time => exact hcursor _

variable {t m track layer}

theorem cursorAt_make (h : ¬ m.Touches t track layer) :
    (t.make m).cursorAt track layer = t.cursorAt track layer :=
  (make_cases t m track layer).resolve_right fun hm => h hm.1

/-- How far the notes of a cursor reach is only forgotten when the cursor is taken elsewhere. -/
theorem groupEnd_le_make (laws : Scalar.Ordered R) (h : ¬ m.Relocates t track layer) :
    (t.cursorAt track layer).groupEnd ≤ ((t.make m).cursorAt track layer).groupEnd := by
  rcases make_cases t m track layer with hc | ⟨-, ⟨note, length, -, hc⟩ | ⟨length, -, hc⟩ | ⟨time, -, hc⟩ |
    ⟨hm, -⟩⟩
  · exact hc ▸ laws.refl _
  · rw [hc]
    exact laws.trans (Cursor.groupEnd_le_approach laws _ note) (laws.left_le_max _ _)
  · exact hc ▸ laws.left_le_max _ _
  · exact hc ▸ laws.left_le_max _ _
  · exact absurd hm h

/-- A group begins where its first note does, until another one opens. -/
theorem anchor_make (h : ¬ m.Relocates t track layer ∧ ¬ m.IsRaise ∧ ¬ m.Opens t track layer) :
    ((t.make m).cursorAt track layer).anchor = (t.cursorAt track layer).anchor := by
  obtain ⟨hrelocates, hraise, hopens⟩ := h
  rcases make_cases t m track layer with hc | ⟨hat, ⟨note, length, rfl, hc⟩ | ⟨length, -, hc⟩ | ⟨time, rfl, -⟩ |
    ⟨hm, -⟩⟩
  · rw [hc]
  · have hfirst : note.isFirst = false := by
      rw [← Bool.not_eq_true]
      exact fun hf => hopens ⟨hat, hf⟩
    rw [hc]
    exact Cursor.anchor_approach_of_not_first _ hfirst
  · rw [hc]
    rfl
  · exact absurd trivial hraise
  · exact absurd hm hrelocates

end Step

section Following

variable {t : Timeline R} {track layer : Slot} {note next : Note R} {length nextLength : R}
  {middle : List (Move R)} (hat : t.At track layer)
  (hlater : ((t.place note length).1.makeAll middle).At track layer)

include hat

theorem cursorAt_place : (t.place note length).1.cursorAt track layer =
    ((t.cursorAt track layer).approach note).advance length := by
  rw [← cursor_eq hat]
  exact (cursorAt_withCursor_eq t _ track layer).trans (if_pos hat)

include hlater

/-- What opens a group starts after all that was placed there, unless the cursor was taken elsewhere. -/
theorem finish_le_start_of_first (laws : Scalar.Ordered R) (hnext : next.isFirst = true)
    (hmiddle : Throughout (fun u m => ¬ m.Relocates u track layer) (t.place note length).1 middle) :
    (t.place note length).2.finish ≤ (((t.place note length).1.makeAll middle).place next nextLength).2.start := by
  have hreach : (t.place note length).2.finish ≤ ((t.place note length).1.cursorAt track layer).groupEnd := by
    rw [cursorAt_place hat, ← cursor_eq hat]
    exact laws.right_le_max _ _
  have hkept := hmiddle.keeps laws.refl laws.trans (fun u => (u.cursorAt track layer).groupEnd)
    fun _ _ hm => groupEnd_le_make laws hm
  have hstart := Cursor.groupEnd_le_time_approach laws
    (((t.place note length).1.makeAll middle).cursorAt track layer) hnext
  rw [← cursor_eq hlater] at hstart hkept
  exact laws.trans hreach (laws.trans hkept hstart)

/-- What sounds with a group starts where the group was opened. -/
theorem start_eq_start_of_harmonic (hnote : note.isFirst = true) (hfirst : next.isFirst = false)
    (hharmonic : next.isHarmonic = true)
    (hmiddle : Throughout (fun u m => ¬ m.Relocates u track layer ∧ ¬ m.IsRaise ∧ ¬ m.Opens u track layer)
      (t.place note length).1 middle) :
    (((t.place note length).1.makeAll middle).place next nextLength).2.start = (t.place note length).2.start := by
  have hkept := hmiddle.keeps (fun _ => rfl) (fun h k => Eq.trans h k)
    (fun u => (u.cursorAt track layer).anchor) fun _ _ hm => (anchor_make hm).symm
  calc (((t.place note length).1.makeAll middle).place next nextLength).2.start
      = ((((t.place note length).1.makeAll middle).cursor).approach next).time := rfl
    _ = (((t.place note length).1.makeAll middle).cursorAt track layer).anchor := by
      rw [cursor_eq hlater, Cursor.approach_harmonic hfirst hharmonic]
    _ = ((t.cursorAt track layer).approach note).anchor := by
      rw [← hkept, cursorAt_place hat]
      rfl
    _ = ((t.cursorAt track layer).approach note).time := (Cursor.anchor_approach (.inl hnote)).symm
    _ = (t.place note length).2.start := by rw [← cursor_eq hat]; rfl

/-- What follows on starts where the note before it ended. -/
theorem start_eq_finish_of_melodic (hfirst : next.isFirst = false) (hharmonic : next.isHarmonic = false)
    (hmiddle : Throughout (fun u m => ¬ m.Touches u track layer) (t.place note length).1 middle) :
    (((t.place note length).1.makeAll middle).place next nextLength).2.start = (t.place note length).2.finish := by
  have hkept := hmiddle.keeps (fun _ => rfl) (fun h k => Eq.trans h k) (fun u => u.cursorAt track layer)
    fun _ _ hm => (cursorAt_make hm).symm
  calc (((t.place note length).1.makeAll middle).place next nextLength).2.start
      = ((((t.place note length).1.makeAll middle).cursor).approach next).time := rfl
    _ = (((t.place note length).1.makeAll middle).cursorAt track layer).time := by
      rw [cursor_eq hlater, Cursor.approach_melodic hfirst hharmonic]
    _ = (((t.cursorAt track layer).approach note).advance length).time := by rw [← hkept, cursorAt_place hat]
    _ = (t.place note length).2.finish := by rw [← cursor_eq hat]; rfl

end Following

/-- After any moves and for every track and layer: what opens a group starts after all notes placed there
since the cursor was last taken elsewhere; what sounds with a group starts where the group was opened, unless the
cursor was moved to another time since; what follows on starts where the note placed just before it ended.
Raising takes no cursor back, and all other moves leave the cursors alone that are not current. -/
theorem groups_keep_time (history : List (Move Rat)) (track layer : Slot) :
    let t := (start : Timeline Rat).makeAll history
    (∀ note length middle next nextLength,
      let placed := t.place note length
      let later := placed.1.makeAll middle
      let following := (later.place next nextLength).2
      t.At track layer → later.At track layer →
        (next.isFirst = true →
          Throughout (fun u m => ¬ m.Relocates u track layer) placed.1 middle →
          placed.2.finish ≤ following.start) ∧
        (note.isFirst = true → next.isFirst = false → next.isHarmonic = true →
          Throughout (fun u m => ¬ m.Relocates u track layer ∧ ¬ m.IsRaise ∧ ¬ m.Opens u track layer)
            placed.1 middle →
          following.start = placed.2.start) ∧
        (next.isFirst = false → next.isHarmonic = false →
          Throughout (fun u m => ¬ m.Touches u track layer) placed.1 middle →
          following.start = placed.2.finish)) ∧
      (∀ time, (t.cursorAt track layer).time ≤ ((t.raiseAll time).cursorAt track layer).time) ∧
      (∀ m : Move Rat, ¬ m.IsRaise → ¬ t.At track layer →
        (t.make m).cursorAt track layer = t.cursorAt track layer) := by
  intro t
  refine ⟨?_, fun time => ?_, fun m hraise hat => cursorAt_make fun hm => ?_⟩
  · intro note length middle next nextLength placed later following hat hlater
    exact ⟨finish_le_start_of_first hat hlater Scalar.ordered_rat, start_eq_start_of_harmonic hat hlater,
      start_eq_finish_of_melodic hat hlater⟩
  · rw [cursorAt_raiseAll]
    exact Cursor.time_le_raise _ _
  · exact hat (hm.at_of_not_raise hraise)

/-- A whole note and a shorter one that sounds with it, with another track in between. -/
theorem sharing_keeps_time :
    let opening : Note Rat := { Note.ofValue 60 with isFirst := true }
    let joined : Note Rat := { Note.ofValue 64 with isHarmonic := true }
    let elsewhere : List (Move Rat) := [.setTrack 0, .place opening 3, .setTime 5, .setTrack 2]
    let begun := ((start : Timeline Rat).makeAll [.setTrack 2, .setLayer 1]).place opening 1
    let shared := (begun.1.makeAll elsewhere).place joined (1 / 4)
    shared.2.start = begun.2.start ∧
      begun.2.finish ≤ ((begun.1.makeAll (elsewhere ++ [.place joined (1 / 4)])).place opening 1).2.start ∧
      (((begun.1.makeAll elsewhere).place joined (1 / 4)).1.place (Note.ofValue 67) 2).2.start = shared.2.finish := by
  intro opening joined elsewhere begun shared
  obtain ⟨hfirst, -, -⟩ := groups_keep_time [.setTrack 2, .setLayer 1] 2 1
  obtain ⟨hsecond, -, -⟩ :=
    groups_keep_time ([.setTrack 2, .setLayer 1, .place opening 1] ++ elsewhere) 2 1
  have hwith := (hfirst opening 1 elsewhere joined (1 / 4) (by decide +kernel) (by decide +kernel)).2.1
    rfl rfl rfl (by decide +kernel)
  have hbehind := (hfirst opening 1 (elsewhere ++ [.place joined (1 / 4)]) opening 1 (by decide +kernel)
    (by decide +kernel)).1 rfl (by decide +kernel)
  have hfollowing := (hsecond joined (1 / 4) [] (Note.ofValue 67) 2 (by decide +kernel)
    (by decide +kernel)).2.2 rfl rfl trivial
  exact ⟨hwith, hbehind, hfollowing⟩

end Timeline

end ScoreText
