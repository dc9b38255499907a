import ScoreText.Proofs.Sequence.Ending
import ScoreText.Proofs.Timeline.Moves
import ScoreText.Session

/-!
Which way time runs while a notation is recorded. Where nothing requests a time, only the length that a note takes
without one of its own can turn time back, and the settings may name any number for it.
-/

set_option autoImplicit false

namespace ScoreText

namespace Timeline

variable {R : Type} [Scalar R]

theorem Throughout.of_forall {P : Timeline R → Move R → Prop} {ms : List (Move R)}
    (h : ∀ m ∈ ms, ∀ t, P t m) (t : Timeline R) : Throughout P t ms := by
  induction ms generalizing t with
  | nil => trivial
  | cons m rest ih =>
    obtain ⟨hm, hrest⟩ := List.forall_mem_cons.mp h
    exact ⟨hm t, ih hrest (t.make m)⟩

/-- No cursor goes back in the move, but where a note that sounds with its group returns to the start of it, and no
note ends before it starts. -/
structure Move.Forward (t : Timeline Rat) (m : Move Rat) : Prop where
  time : ∀ track layer, (t.cursorAt track layer).time ≤ ((t.make m).cursorAt track layer).time ∨
    ∃ note length, m = .place note length ∧ t.At track layer ∧ note.isHarmonic = true ∧
      (t.place note length).2.start = ((t.make m).cursorAt track layer).anchor
  lasts : ∀ note length, m = .place note length → (t.place note length).2.start ≤ (t.place note length).2.finish

namespace Move

variable {t : Timeline Rat} {m : Move Rat}

theorem forward_of_untouched (h : ∀ track layer, ¬ m.Touches t track layer) : m.Forward t where
  time track layer := .inl (cursorAt_make (h track layer) ▸ le_refl _)
  lasts _ _ hm := absurd ⟨rfl, rfl⟩ (hm ▸ h t.track t.layer)

theorem time_le_approach (c : Cursor Rat) {n : Note Rat} (h : n.isHarmonic = false) :
    c.time ≤ (c.approach n).time := by
  unfold Cursor.approach
  rw [h]
  cases n.isFirst with
  | true => exact Scalar.ordered_rat.left_le_max _ _
  | false => exact le_refl _

theorem forward_place (t : Timeline Rat) (note : Note Rat) {length : Rat} (h : 0 ≤ length) :
    (place note length).Forward t where
  time track layer := by
    by_cases hat : t.At track layer
    · have hplaced : (t.make (.place note length)).cursorAt track layer =
          ((t.cursorAt track layer).approach note).advance length := cursorAt_place hat
      rw [hplaced]
      cases hharmonic : note.isHarmonic with
      | true =>
        refine .inr ⟨note, length, rfl, hat, hharmonic, ?_⟩
        rw [← cursor_eq hat]
        exact Cursor.anchor_approach (.inr hharmonic)
      | false => exact .inl (le_add_of_le_of_nonneg (time_le_approach _ hharmonic) h)
    · exact .inl (cursorAt_make (m := .place note length) hat ▸ le_refl _)
  lasts _ _ hm := by
    obtain ⟨rfl, rfl⟩ := Move.place.inj hm
    exact le_add_of_nonneg_right h

end Move

end Timeline

open Timeline

section

variable {R : Type} [Scalar R]

/-- What a sequencer asks of its timeline when it hears an event. -/
def Event.moves (noteLength : R) : Event R → List (Timeline.Move R)
  | .track n => [.setTrack n]
  | .layer n => [.setLayer n]
  | .bookmark name => [.setBookmark name]
  | .bookmarkRequest name => [.jump name]
  | .timeRequest time => [.setTime time]
  | .note n => [.place n (lengthOf n noteLength)]
  | .chord c => c.notes.map fun n => .place n (lengthOf n noteLength)
  | _ => []

theorem Sequencer.timeline_playNotes (s : Sequencer R) (ns : List (Note R)) :
    (s.playNotes ns).1.timeline =
      s.timeline.makeAll (ns.map fun n => .place n (lengthOf n s.noteLength)) := by
  induction ns generalizing s with
  | nil => rfl
  | cons n rest ih => exact ih (s.playNote n).1

theorem Sequencer.timeline_hear (s : Sequencer R) (event : Event R) :
    (s.hear event).1.timeline = s.timeline.makeAll (event.moves s.noteLength) := by
  cases event with
  | chord c => exact timeline_playNotes s c.notes
  | _ => rfl

end

/-- Events without a request make moves that go forward, if a note without a length takes no negative one. -/
theorem Event.forward_moves {noteLength : Rat} (h : 0 ≤ noteLength) {event : Event Rat}
    (hevent : event.isRequest = false) : ∀ m ∈ event.moves noteLength, ∀ t, m.Forward t := by
  have hplace : ∀ (n : Note Rat) t, (Timeline.Move.place n (lengthOf n noteLength)).Forward t := fun n t =>
    Timeline.Move.forward_place t n (lengthOf_nonneg n h)
  have huntouched : ∀ {m : Timeline.Move Rat}, (∀ t track layer, ¬ m.Touches t track layer) → ∀ t, m.Forward t :=
    fun hm t => Timeline.Move.forward_of_untouched (hm t)
  cases event with
  | note n => exact List.forall_mem_singleton.mpr (hplace n)
  | chord c => exact List.forall_mem_map.mpr fun n _ => hplace n
  | track | layer | bookmark =>
    exact List.forall_mem_singleton.mpr (huntouched fun _ _ _ => not_false)
  | timeRequest | bookmarkRequest => cases hevent
  | _ => exact fun m hm => nomatch hm

namespace Recorder

/-- Each event moves the timeline of a recorder that hears them on, move by move. -/
def RunsForward : Recorder Rat → List (Event Rat) → Prop
  | _, [] => True
  | r, event :: rest =>
    let moves := event.moves r.sequencer.noteLength
    (r.hear event).sequencer.timeline = r.sequencer.timeline.makeAll moves ∧
      Throughout (fun t m => m.Forward t) r.sequencer.timeline moves ∧ (r.hear event).RunsForward rest

theorem runsForward_of_nonneg {r : Recorder Rat} (h : 0 ≤ r.sequencer.noteLength) {events : List (Event Rat)}
    (hevents : ∀ e ∈ events, e.isRequest = false) : r.RunsForward events := by
  induction events generalizing r with
  | nil => trivial
  | cons event rest ih =>
    obtain ⟨hevent, hrest⟩ := List.forall_mem_cons.mp hevents
    refine ⟨r.sequencer.timeline_hear event, .of_forall (Event.forward_moves h hevent) _, ih ?_ hrest⟩
    exact (Sequencer.noteLength_hear r.sequencer event).symm ▸ h

/-- The first note of all shows which way a length goes. -/
theorem nonneg_of_runsForward {resolution : Nat} {noteLength : Rat} {n : Note Rat} (hn : n.length = 0)
    {rest : List (Event Rat)}
    (h : (start resolution noteLength).RunsForward (.parsingStarts :: .note n :: rest)) : 0 ≤ noteLength := by
  obtain ⟨-, -, -, ⟨hforward, -⟩, -⟩ := h
  have hlength : lengthOf n noteLength = noteLength := by simp [lengthOf, hn]
  have hlasts : _ ≤ _ + lengthOf n noteLength := hforward.lasts n _ rfl
  rw [hlength] at hlasts
  exact nonneg_of_le_add_right hlasts

end Recorder

/-- Time runs forward in every notation without requests, whatever parser of these settings reads it, just when the
length of notes without one is not negative. Whether the settings are sound does not depend on that length. -/
theorem Settings.forward_iff (s : Settings Rat) :
    ((∀ (p : Parser Rat) (text : Text) (resolution : Nat), p.dialect.settings = s.reading →
        (∀ e ∈ (p.parse text).events, e.isRequest = false) →
        (Recorder.start resolution p.dialect.settings.notes.length).RunsForward (p.parse text).events) ↔
      0 ≤ s.reading.notes.length) ∧
    ∀ length : Rat,
      { s with reading.notes.length := length : Settings Rat }.fault? = s.fault? := by
  refine ⟨⟨fun h => ?_, fun h p text resolution hp hevents => ?_⟩, fun _ => rfl⟩
  · obtain ⟨n, hn, hparsed⟩ : ∃ n : Note Rat, n.length = 0 ∧
        ((Parser.ofDialect (.ofSettings s.reading)).parse "60".toList).events =
          [.parsingStarts, .note n, .parsingEnds] := ⟨_, rfl, rfl⟩
    have hrun := h (.ofDialect (.ofSettings s.reading)) "60".toList 128 rfl
    rw [hparsed] at hrun
    refine Recorder.nonneg_of_runsForward hn (hrun ?_)
    simp [Event.isRequest]
  · exact Recorder.runsForward_of_nonneg (hp ▸ h) hevents

/-- The usual settings, but for a length that takes time back. -/
def backwardSettings : Settings Rat := { (.standard : Settings Rat) with reading.notes.length := -1 / 4 }

/-- They are sound, and a note may end before it starts. -/
theorem backwardSettings_turn_back :
    backwardSettings.fault? = none ∧
      (¬ ∀ (p : Parser Rat) (text : Text) (resolution : Nat), p.dialect.settings = backwardSettings.reading →
        (∀ e ∈ (p.parse text).events, e.isRequest = false) →
        (Recorder.start resolution p.dialect.settings.notes.length).RunsForward (p.parse text).events) ∧
      ((Parser.ofDialect (.ofSettings backwardSettings.reading)).materialize "C5Q D5".toList 128).toOption.map
          (fun s => s.track 0) =
        some [⟨0, .noteOn 0 60 64⟩, ⟨0, .noteOff 0 62 64⟩, ⟨128, .noteOff 0 60 64⟩, ⟨128, .noteOn 0 62 64⟩,
          ⟨128, .metaEvent 47 []⟩] := by
  refine ⟨by decide +kernel, fun h => ?_, by decide +kernel⟩
  have hnonneg := (Settings.forward_iff backwardSettings).1.mp h
  exact absurd hnonneg (by decide +kernel)

end ScoreText
