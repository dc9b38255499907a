import ScoreText.Proofs.Timeline.Invariants

/-!
How the notes of a chord come to lie. The bass takes the chord's place in its group and the others go
back to where the group began, so a chord sounds together just when its bass begins there as well: a
chord that follows on is torn apart.
-/

set_option autoImplicit false

namespace ScoreText

variable {R : Type}

namespace Chord

theorem perm_rotateLeft {α : Type} (l : List α) (k : Nat) : (l.rotateLeft k).Perm l := by
  simp only [List.rotateLeft]
  split
  · exact .refl l
  · exact List.perm_append_comm.trans (.of_eq (List.take_append_drop _ l))

variable [Scalar R]

/-- What holds of the root and of all notes above it, and of a note whatever its octave and its place
in a group, holds of the notes of the chord. -/
theorem forall_mem_notes {P : Note R → Prop} {c : Chord R} (hroot : P c.root)
    (habove : ∀ step, P (noteAbove c.root step)) (hraise : ∀ n, P n → P (raise n))
    (hplace : ∀ n isFirst isMelodic isHarmonic, P n →
      P { n with isFirst := isFirst, isMelodic := isMelodic, isHarmonic := isHarmonic }) :
    ∀ n ∈ c.notes, P n := by
  obtain ⟨upright, hupright⟩ : ∃ upright,
      upright = c.root :: (c.intervals.steps.drop 1).map (noteAbove c.root) := ⟨_, rfl⟩
  have hall : ∀ n ∈ upright, P n := by
    rw [hupright, List.forall_mem_cons, List.forall_mem_map]
    exact ⟨hroot, fun step _ => habove step⟩
  have hraised : ∀ n ∈ (upright.take c.inversion).map raise ++ upright.drop c.inversion, P n := by
    rw [List.forall_mem_append, List.forall_mem_map]
    exact ⟨fun n hn => hraise n (hall n (List.mem_of_mem_take hn)),
      fun n hn => hall n (List.mem_of_mem_drop hn)⟩
  rw [notes, ← hupright]
  intro n hn
  unfold assignRoles at hn
  split at hn
  · cases hn
  · rename_i bass rest hturned
    have hall : ∀ n ∈ bass :: rest, P n := fun n hn =>
      hraised n ((perm_rotateLeft _ _).subset (hturned ▸ hn))
    rcases List.mem_cons.mp hn with rfl | hn
    · exact hplace bass _ _ _ (hall bass List.mem_cons_self)
    · obtain ⟨m, hm, rfl⟩ := List.mem_map.mp hn
      exact hplace m _ _ _ (hall m (List.mem_cons_of_mem bass hm))

/-- The notes of a chord: a bass in the place of the root, and others that sound with it, all of the
root's length. -/
structure Voiced (c : Chord R) (bass : Note R) (above : List (Note R)) : Prop where
  notes : c.notes = bass :: above
  isFirst : bass.isFirst = c.root.isFirst
  isHarmonic : bass.isHarmonic = c.root.isHarmonic
  roles : ∀ n ∈ above, n.isFirst = false ∧ n.isHarmonic = true
  length : ∀ n ∈ bass :: above, n.length = c.root.length

theorem exists_voiced (c : Chord R) : ∃ bass above, c.Voiced bass above := by
  have hlength : ∀ n ∈ c.notes, n.length = c.root.length :=
    forall_mem_notes rfl (fun _ => rfl) (fun _ h => h) fun _ _ _ _ h => h
  obtain ⟨upright, hupright⟩ : ∃ upright : List (Note R),
      upright = c.root :: (c.intervals.steps.drop 1).map (noteAbove c.root) := ⟨_, rfl⟩
  obtain ⟨turned, hturned⟩ : ∃ turned : List (Note R), turned =
      ((upright.take c.inversion).map raise ++ upright.drop c.inversion).rotateLeft c.inversion :=
    ⟨_, rfl⟩
  have hcount : turned.length = upright.length := by
    rw [hturned, (perm_rotateLeft _ _).length_eq, List.length_append, List.length_map,
      ← List.length_append, List.take_append_drop]
  have hnotes : c.notes = assignRoles c.root turned := by
    rw [hturned, hupright]
    rfl
  cases turned with
  | nil =>
    rw [hupright] at hcount
    cases hcount
  | cons bass above =>
    rw [hnotes] at hlength
    refine ⟨_, _, hnotes, rfl, rfl, ?_, hlength⟩
    rw [List.forall_mem_map]
    exact fun _ _ => ⟨rfl, rfl⟩

end Chord

variable [Scalar R]

namespace Cursor

theorem anchor_approach {c : Cursor R} {n : Note R} (h : n.isFirst = true ∨ n.isHarmonic = true) :
    (c.approach n).time = (c.approach n).anchor := by
  unfold approach
  cases hh : n.isHarmonic with
  | true => rfl
  | false =>
    have hf : n.isFirst = true := h.resolve_right (by simp [hh])
    rw [hf]
    rfl

theorem approach_melodic {c : Cursor R} {n : Note R} (hf : n.isFirst = false)
    (hh : n.isHarmonic = false) : c.approach n = c := by
  simp [approach, hf, hh]

theorem approach_harmonic {c : Cursor R} {n : Note R} (hf : n.isFirst = false)
    (hh : n.isHarmonic = true) : c.approach n = { c with time := c.anchor } := by
  simp [approach, hf, hh]

end Cursor

namespace Timeline

/-- Where notes come to lie that are placed one after another. -/
def placements (noteLength : R) : Timeline R → List (Note R) → List (Placement R)
  | _, [] => []
  | t, note :: rest =>
    let placed := t.place note (lengthOf note noteLength)
    placed.2 :: placements noteLength placed.1 rest

/-- All of them last from the same start to the same end. -/
def Together (ps : List (Placement R)) (start finish : R) : Prop :=
  ∀ p ∈ ps, p.start = start ∧ p.finish = finish

theorem anchor_place (t : Timeline R) (n : Note R) (length : R) :
    (t.place n length).1.cursor.anchor = (t.cursor.approach n).anchor := by
  simp only [place, cursor_withCursor, Cursor.advance]

theorem lengthOf_congr {m n : Note R} (h : m.length = n.length) (noteLength : R) :
    lengthOf m noteLength = lengthOf n noteLength := by
  rw [lengthOf, lengthOf, h]

/-- Harmonic notes of one length all last from the anchor. -/
theorem together_harmonic (t : Timeline R) {noteLength length : R} {ns : List (Note R)}
    (hroles : ∀ n ∈ ns, n.isFirst = false ∧ n.isHarmonic = true)
    (hlength : ∀ n ∈ ns, lengthOf n noteLength = length) :
    Together (t.placements noteLength ns) t.cursor.anchor (t.cursor.anchor + length) := by
  induction ns generalizing t with
  | nil => exact fun p hp => nomatch hp
  | cons n rest ih =>
    obtain ⟨⟨hf, hh⟩, hroles⟩ := List.forall_mem_cons.mp hroles
    obtain ⟨hn, hlength⟩ := List.forall_mem_cons.mp hlength
    have hplaced : t.cursor.approach n = { t.cursor with time := t.cursor.anchor } :=
      Cursor.approach_harmonic hf hh
    refine List.forall_mem_cons.mpr ⟨?_, ?_⟩
    · simp only [place, hplaced, hn, Cursor.advance, and_self]
    · have hrest := ih (t.place n (lengthOf n noteLength)).1 hroles hlength
      rw [anchor_place, hplaced] at hrest
      exact hrest

theorem length_placements (t : Timeline R) (noteLength : R) (ns : List (Note R)) :
    (t.placements noteLength ns).length = ns.length := by
  induction ns generalizing t with
  | nil => rfl
  | cons n rest ih => simp [placements, ih]

/-- The bass of a chord lies where it takes its place, the others where the group begins then. -/
theorem placements_voiced (t : Timeline R) (noteLength : R) {c : Chord R} {bass : Note R}
    {above : List (Note R)} (hv : c.Voiced bass above) :
    ∃ first others, t.placements noteLength c.notes = first :: others ∧
      (first.start = (t.cursor.approach bass).time ∧
        first.finish = (t.cursor.approach bass).time + lengthOf c.root noteLength) ∧
      others.length = above.length ∧
      Together others (t.cursor.approach bass).anchor
        ((t.cursor.approach bass).anchor + lengthOf c.root noteLength) := by
  obtain ⟨hbass, habove⟩ := List.forall_mem_cons.mp fun n hn =>
    lengthOf_congr (hv.length n hn) noteLength
  have hrest := together_harmonic (t.place bass (lengthOf bass noteLength)).1 hv.roles habove
  rw [anchor_place] at hrest
  rw [hv.notes]
  refine ⟨_, _, rfl, ?_, length_placements _ _ _, hrest⟩
  simp only [place, hbass, Cursor.advance, and_self]

/-- Notes of which all but the first lie together do so with the first if it starts with them, or if
it is alone. -/
theorem together_cons_iff {first : Placement R} {others : List (Placement R)} {start anchor length : R}
    (hfirst : first.start = start ∧ first.finish = start + length)
    (hothers : Together others anchor (anchor + length)) :
    (∃ start finish, Together (first :: others) start finish) ↔ others = [] ∨ start = anchor := by
  constructor
  · rintro ⟨begin, finish, h⟩
    cases others with
    | nil => exact .inl rfl
    | cons p rest =>
      refine .inr ?_
      rw [← hfirst.1, (h first List.mem_cons_self).1, ← (hothers p List.mem_cons_self).1,
        (h p (List.mem_cons_of_mem _ List.mem_cons_self)).1]
  · intro h
    refine ⟨start, start + length, List.forall_mem_cons.mpr ⟨hfirst, fun p hp => ?_⟩⟩
    rcases h with rfl | rfl
    · cases hp
    · exact hothers p hp

/-- A chord lies together just when its bass lies where its group began, or is all of it. -/
theorem together_chord_iff (t : Timeline R) (noteLength : R) (c : Chord R) :
    (∃ start finish, Together (t.placements noteLength c.notes) start finish) ↔
      c.root.isFirst = true ∨ c.root.isHarmonic = true ∨ c.notes.length = 1 ∨
        t.cursor.time = t.cursor.anchor := by
  obtain ⟨bass, above, hv⟩ := c.exists_voiced
  obtain ⟨first, others, hps, hfirst, hcount, hothers⟩ := t.placements_voiced noteLength hv
  have hsingle : others = [] ↔ c.notes.length = 1 := by
    rw [hv.notes, List.length_cons, Nat.add_eq_right, ← hcount, List.length_eq_zero_iff]
  rw [hps, together_cons_iff hfirst hothers, hsingle]
  by_cases hrole : c.root.isFirst = true ∨ c.root.isHarmonic = true
  · have hopens : (t.cursor.approach bass).time = (t.cursor.approach bass).anchor :=
      Cursor.anchor_approach (by rwa [hv.isFirst, hv.isHarmonic])
    tauto
  · have hfree : c.root.isFirst = false ∧ c.root.isHarmonic = false := by simpa using hrole
    have hstays : t.cursor.approach bass = t.cursor :=
      Cursor.approach_melodic (hv.isFirst.trans hfree.1) (hv.isHarmonic.trans hfree.2)
    rw [hstays]
    tauto

end Timeline

namespace Sequencer

open Timeline

/-- What is written for a note that lasts from one time to another. -/
def sounds (s : Sequencer R) (n : Note R) (start finish : R) : List SinkCall :=
  (if n.isRest || n.endsTie then []
    else [s.emitAt start (.noteOn s.channel n.value n.attack)]) ++
  (if n.isRest || n.startsTie then []
    else [s.emitAt finish (.noteOff s.channel n.value n.decay)])

theorem playNote_eq (s : Sequencer R) (n : Note R) :
    (s.playNote n).2 =
      s.sounds n (s.timeline.place n (lengthOf n s.noteLength)).2.start
        (s.timeline.place n (lengthOf n s.noteLength)).2.finish := by
  simp only [playNote, place, sounds]
  split <;> split <;> rfl

theorem sounds_playNote (s : Sequencer R) (n m : Note R) (start finish : R) :
    (s.playNote n).1.sounds m start finish = s.sounds m start finish := rfl

theorem playNotes_together {s : Sequencer R} {ns : List (Note R)} {start finish : R}
    (h : Together (s.timeline.placements s.noteLength ns) start finish) :
    (s.playNotes ns).2 = ns.flatMap fun n => s.sounds n start finish := by
  induction ns generalizing s with
  | nil => rfl
  | cons n rest ih =>
    obtain ⟨⟨hstart, hfinish⟩, hrest⟩ := List.forall_mem_cons.mp h
    have hmore := ih (s := (s.playNote n).1) hrest
    simp only [sounds_playNote] at hmore
    have hfirst : (s.playNote n).2 = s.sounds n start finish := by
      rw [playNote_eq, hstart, hfinish]
    rw [List.flatMap_cons, ← hmore, ← hfirst]
    rfl

/-- After any events, a chord lies together just when it opens a group, sounds with one, is a single
note, or comes where its group began. Its notes are then all written at the same two ticks. -/
theorem chord_together_iff (resolution : Nat) (noteLength : R) (history : List (Event R))
    (c : Chord R) :
    let s := ((start resolution noteLength).1.hearAll history).1
    ((∃ start finish, Together (s.timeline.placements s.noteLength c.notes) start finish) ↔
        c.root.isFirst = true ∨ c.root.isHarmonic = true ∨ c.notes.length = 1 ∨
          s.timeline.cursor.time = s.timeline.cursor.anchor) ∧
      ∀ start finish, Together (s.timeline.placements s.noteLength c.notes) start finish →
        (s.hear (.chord c)).2 = c.notes.flatMap fun n => s.sounds n start finish :=
  ⟨Timeline.together_chord_iff _ _ c, fun _ _ h => playNotes_together h⟩

/-- A C major triad of quarter notes that follows on. -/
def joinedTriad : Chord Rat :=
  ⟨{ (Note.ofValue 48).withLength (1 / 4) with isMelodic := true },
    ⟨["1".toList, "3".toList, "5".toList]⟩, 0, none⟩

/-- After a quarter note, its bass comes behind the other two notes. -/
theorem joinedTriad_torn_apart :
    let s := ((start 128 (1 / 4 : Rat)).1.hearAll
      [.note { (Note.ofValue 72).withLength (1 / 4) with isFirst := true }]).1
    (¬ ∃ start finish, Together (s.timeline.placements s.noteLength joinedTriad.notes) start finish) ∧
      (s.hear (.chord joinedTriad)).2 =
        [.addEvent 0 128 (.noteOn 0 48 64), .addEvent 0 256 (.noteOff 0 48 64),
          .addEvent 0 0 (.noteOn 0 52 64), .addEvent 0 128 (.noteOff 0 52 64),
          .addEvent 0 0 (.noteOn 0 55 64), .addEvent 0 128 (.noteOff 0 55 64)] := by
  intro s
  have hiff := (chord_together_iff 128 (1 / 4 : Rat)
    [.note { (Note.ofValue 72).withLength (1 / 4) with isFirst := true }] joinedTriad).1
  refine ⟨fun h => ?_, by decide +kernel⟩
  rcases hiff.mp h with h | h | h | h
  · cases h
  · cases h
  · exact absurd h (by decide +kernel)
  · exact absurd h (by decide +kernel)

end Sequencer

theorem Timeline.lengthOf_pos (n : Note Rat) {noteLength : Rat} (h : 0 < noteLength) :
    0 < lengthOf n noteLength := by
  unfold lengthOf
  split
  · assumption
  · exact h

theorem Timeline.lengthOf_nonneg (n : Note Rat) {noteLength : Rat} (h : 0 ≤ noteLength) :
    0 ≤ lengthOf n noteLength := by
  unfold lengthOf
  split
  · exact le_of_lt ‹_›
  · exact h

namespace Cursor

/-- No group begins after the cursor. -/
def Forward (c : Cursor Rat) : Prop := c.anchor ≤ c.time

theorem Forward.approach {c : Cursor Rat} (h : c.Forward) (n : Note Rat) :
    (c.approach n).Forward := by
  unfold Cursor.approach
  split <;> split <;> first | exact le_refl _ | exact h

theorem forward_lasting {noteLength : Rat} (h : 0 < noteLength) :
    Lasting Forward noteLength where
  atTime time := le_refl time
  placed c n hc := by
    have happroached : (c.approach n).anchor ≤ (c.approach n).time := hc.approach n
    have hlength := Timeline.lengthOf_pos n h
    simp only [Forward, advance]
    linarith

end Cursor

namespace Sequencer

open Timeline

/-- Once a note has been placed, the cursor is past the beginning of its group. -/
theorem past_playNotes {s : Sequencer Rat} (hs : 0 < s.noteLength)
    (h : s.timeline.Everywhere Cursor.Forward) {ns : List (Note Rat)} (hns : ns ≠ []) :
    (s.playNotes ns).1.timeline.cursor.anchor < (s.playNotes ns).1.timeline.cursor.time := by
  induction ns generalizing s with
  | nil => exact absurd rfl hns
  | cons n rest ih =>
    cases rest with
    | nil =>
      have happroached : (s.timeline.cursor.approach n).anchor ≤ (s.timeline.cursor.approach n).time :=
        Cursor.Forward.approach (h _ _) n
      have hlength := lengthOf_pos n hs
      simp only [playNotes, playNote, place, cursor_withCursor, Cursor.advance]
      linarith
    | cons m more =>
      have hplaced := everywhere_hear (Cursor.forward_lasting hs) h (.note n)
      exact ih (s := (s.playNote n).1) hs hplaced (List.cons_ne_nil m more)

/-- A chord of several notes that follows a note or a chord in its group is torn apart. -/
theorem chord_torn_apart (resolution : Nat) {noteLength : Rat} (h : 0 < noteLength)
    (history : List (Event Rat)) {event : Event Rat}
    (hevent : (∃ n, event = .note n) ∨ ∃ d, event = .chord d) {c : Chord Rat}
    (hfirst : c.root.isFirst = false) (hharmonic : c.root.isHarmonic = false)
    (hseveral : 1 < c.notes.length) :
    let s := ((start resolution noteLength).1.hearAll (history ++ [event])).1
    ¬ ∃ start finish, Together (s.timeline.placements s.noteLength c.notes) start finish := by
  intro s
  obtain ⟨before, hbefore⟩ :
      ∃ before, ((start resolution noteLength).1.hearAll history).1 = before := ⟨_, rfl⟩
  have hs : s = (before.hear event).1 := by
    simp only [s, hearAll_append, hbefore, hearAll]
  have hforward : before.timeline.Everywhere Cursor.Forward := by
    rw [← hbefore]
    exact everywhere_run (Cursor.forward_lasting h) resolution history
  have hlength : 0 < before.noteLength := by
    rw [← hbefore, noteLength_hearAll]
    exact h
  have hpast : s.timeline.cursor.anchor < s.timeline.cursor.time := by
    rw [hs]
    rcases hevent with ⟨n, rfl⟩ | ⟨d, rfl⟩
    · have hone : (before.hear (.note n)).1 = (before.playNotes [n]).1 := rfl
      rw [hone]
      exact past_playNotes hlength hforward (List.cons_ne_nil n [])
    · obtain ⟨bass, above, hd⟩ := d.exists_voiced
      have hsome : d.notes ≠ [] := by
        rw [hd.notes]
        exact List.cons_ne_nil bass above
      have hall : (before.hear (.chord d)).1 = (before.playNotes d.notes).1 := rfl
      rw [hall]
      exact past_playNotes hlength hforward hsome
  rw [together_chord_iff]
  rintro (hrole | hrole | hsingle | hsame)
  · rw [hfirst] at hrole
    cases hrole
  · rw [hharmonic] at hrole
    cases hrole
  · omega
  · exact absurd hsame.symm (ne_of_lt hpast)

end Sequencer

end ScoreText
