import ScoreText.Proofs.Sequence.Forward
import ScoreText.Proofs.Timeline.Chords

/-!
Notes in turn. Where arithmetic does not round, notes that follow one another take the cursor on by what they last
together, and can stand for a note or a chord that lasts as long.
-/

set_option autoImplicit false

namespace ScoreText

/-- Arithmetic that does not round: every number stands for a fraction. -/
structure Scalar.Exact {R : Type} [Scalar R] (value : R → Rat) : Prop where
  injective : ∀ {a b : R}, value a = value b → a = b
  natCast : ∀ n : Nat, value (n : R) = n
  add : ∀ a b : R, value (a + b) = value a + value b
  div : ∀ a b : R, value (a / b) = value a / value b
  lt_iff : ∀ a b : R, a < b ↔ value a < value b
  le_iff : ∀ a b : R, a ≤ b ↔ value a ≤ value b
  beq_iff : ∀ a b : R, (a == b) = true ↔ a = b
  isWhole_natCast : ∀ n : Nat, Scalar.isWhole (n : R) = true
  toNat_natCast : ∀ n : Nat, Scalar.toNat (n : R) = n
  round : ∀ a : R, Scalar.round a = (value a + 1 / 2).floor.toNat

theorem Scalar.exact_rat : Scalar.Exact (id : Rat → Rat) where
  injective h := h
  natCast _ := rfl
  add _ _ := rfl
  div _ _ := rfl
  lt_iff _ _ := Iff.rfl
  le_iff _ _ := Iff.rfl
  beq_iff _ _ := beq_iff_eq
  isWhole_natCast n := beq_self_eq_true (α := Nat) _
  toNat_natCast n := by
    have hfloor : ((n : Int) : Rat).floor = n := Rat.floor_intCast n
    exact congrArg Int.toNat hfloor
  round _ := rfl

variable {R : Type} [Scalar R] {value : R → Rat}

theorem Scalar.max_self (a : R) : Scalar.max a a = a := by
  unfold Scalar.max
  split
  · rfl
  · split <;> rfl

theorem Scalar.Exact.max_add (laws : Scalar.Exact value) (a : R) {b : R} (h : 0 < value b) :
    Scalar.max a (a + b) = a + b := by
  have hlt : a < a + b := (laws.lt_iff _ _).mpr (by rw [laws.add]; linarith)
  rw [Scalar.max, if_pos hlt]

namespace Cursor

/-- A cursor after a note has been placed. -/
def follow (noteLength : R) (c : Cursor R) (n : Note R) : Cursor R :=
  (c.approach n).advance (Timeline.lengthOf n noteLength)

theorem time_approach {c : Cursor R} {n : Note R} (h : n.isFirst = true) : (c.approach n).time = c.latest := by
  unfold approach
  rw [h]
  cases n.isHarmonic <;> rfl

/-- Notes that last as long each as the first of them, which opens a group, and that do not go back in it. -/
structure InTurn (noteLength length : R) (ns : List (Note R)) : Prop where
  opens : ∀ n ∈ ns.head?, n.isFirst = true
  onward : ∀ n ∈ ns, n.isHarmonic = false
  lasts : ∀ n ∈ ns, Timeline.lengthOf n noteLength = length

/-- A note that does not go back takes a cursor on that is at the end of its group, or opens a new group there. -/
theorem follow_onward (laws : Scalar.Exact value) {c : Cursor R} {n : Note R} {noteLength : R}
    (hpos : 0 < value (Timeline.lengthOf n noteLength)) (honward : n.isHarmonic = false)
    (hready : n.isFirst = true ∨ c.groupEnd = c.time) :
    (c.follow noteLength n).groupEnd = (c.follow noteLength n).time ∧
      (c.follow noteLength n).time = c.latest + Timeline.lengthOf n noteLength := by
  unfold follow
  generalize Timeline.lengthOf n noteLength = length at hpos
  have hstart : (c.approach n).groupEnd = c.latest ∧ (c.approach n).time = c.latest := by
    cases hfirst : n.isFirst with
    | true =>
      simp only [approach, hfirst, honward, if_true, Bool.false_eq_true, if_false]
      exact ⟨rfl, rfl⟩
    | false =>
      have hend : c.groupEnd = c.time := hready.resolve_left (by rw [hfirst]; exact Bool.false_ne_true)
      rw [approach_melodic hfirst honward, latest, hend, Scalar.max_self]
      exact ⟨rfl, rfl⟩
  simp only [advance, hstart, laws.max_add _ hpos, and_self]

theorem latest_of_end {c : Cursor R} (h : c.groupEnd = c.time) : c.latest = c.time := by
  rw [latest, h, Scalar.max_self]

/-- Notes in turn take the cursor on by the sum of what they last. -/
theorem latest_inTurn (laws : Scalar.Exact value) {noteLength length : R} (hpos : 0 < value length)
    {ns : List (Note R)} (h : InTurn noteLength length ns) (c : Cursor R) :
    value (ns.foldl (follow noteLength) c).latest = value c.latest + ns.length * value length := by
  obtain ⟨hopens, honward, hlasts⟩ := h
  -- behind the first note the cursor is at the end of its group, so that it does not matter which notes open one
  have hrun : ∀ (ns : List (Note R)) (c : Cursor R), (∀ n ∈ ns, n.isHarmonic = false) →
      (∀ n ∈ ns, Timeline.lengthOf n noteLength = length) →
      ((∀ n ∈ ns.head?, n.isFirst = true) ∨ c.groupEnd = c.time) →
      value (ns.foldl (follow noteLength) c).latest = value c.latest + ns.length * value length := by
    intro ns
    induction ns with
    | nil => simp
    | cons n rest ih =>
      intro c honward hlasts hready
      obtain ⟨hn, honward⟩ := List.forall_mem_cons.mp honward
      obtain ⟨hlength, hlasts⟩ := List.forall_mem_cons.mp hlasts
      obtain ⟨hend, htime⟩ := follow_onward laws (hlength.symm ▸ hpos) hn (hready.imp_left fun h => h n rfl)
      rw [List.foldl_cons, ih _ honward hlasts (.inr hend), latest_of_end hend, htime, hlength, laws.add,
        List.length_cons]
      push_cast
      ring
  exact hrun ns c honward hlasts (.inl hopens)

/-- Notes that go back to the start of a group and reach to its end leave the cursor there. -/
theorem follow_harmonic {noteLength length : R} {ns : List (Note R)}
    (hroles : ∀ n ∈ ns, n.isFirst = false ∧ n.isHarmonic = true)
    (hlasts : ∀ n ∈ ns, Timeline.lengthOf n noteLength = length) {c : Cursor R} (htime : c.time = c.anchor + length)
    (hend : c.groupEnd = c.time) : ns.foldl (follow noteLength) c = c := by
  induction ns with
  | nil => rfl
  | cons n rest ih =>
    obtain ⟨⟨hfirst, hharmonic⟩, hroles⟩ := List.forall_mem_cons.mp hroles
    obtain ⟨hlength, hlasts⟩ := List.forall_mem_cons.mp hlasts
    have hsame : c.follow noteLength n = c := by
      obtain ⟨time, anchor, groupEnd⟩ := c
      simp only at htime hend
      subst hend htime
      rw [follow, approach_harmonic hfirst hharmonic, hlength, advance, Scalar.max_self]
    rw [List.foldl_cons, hsame, ih hroles hlasts]

/-- A chord that opens a group takes the cursor on by its length. -/
theorem latest_chord (laws : Scalar.Exact value) {noteLength : R} {chord : Chord R}
    (hopens : chord.root.isFirst = true) (honward : chord.root.isHarmonic = false)
    (hpos : 0 < value (Timeline.lengthOf chord.root noteLength)) (c : Cursor R) :
    value (chord.notes.foldl (follow noteLength) c).latest =
      value c.latest + value (Timeline.lengthOf chord.root noteLength) := by
  obtain ⟨bass, above, hv⟩ := chord.exists_voiced
  have hlength : ∀ n ∈ bass :: above, Timeline.lengthOf n noteLength = Timeline.lengthOf chord.root noteLength :=
    fun n hn => Timeline.lengthOf_congr (hv.length n hn) noteLength
  obtain ⟨hbass, habove⟩ := List.forall_mem_cons.mp hlength
  have hfirst : bass.isFirst = true := hv.isFirst.trans hopens
  obtain ⟨hend, htime⟩ :=
    follow_onward (c := c) laws (hbass.symm ▸ hpos) (hv.isHarmonic.trans honward) (.inl hfirst)
  have hanchor : (c.follow noteLength bass).time = (c.follow noteLength bass).anchor +
      Timeline.lengthOf chord.root noteLength := by
    rw [htime, hbass]
    congr 1
    exact (time_approach hfirst).symm.trans (anchor_approach (.inl hfirst))
  rw [hv.notes, List.foldl_cons, follow_harmonic hv.roles habove hanchor hend, latest_of_end hend, htime, laws.add,
    hbass]

end Cursor

namespace Sequencer

theorem cursor_playNotes (s : Sequencer R) (ns : List (Note R)) :
    (s.playNotes ns).1.timeline.cursor = ns.foldl (Cursor.follow s.noteLength) s.timeline.cursor := by
  induction ns generalizing s with
  | nil => rfl
  | cons n rest ih =>
    have hplaced : (s.playNote n).1.timeline.cursor = s.timeline.cursor.follow s.noteLength n :=
      Timeline.cursor_withCursor _ _
    rw [List.foldl_cons, ← hplaced]
    exact ih (s.playNote n).1

theorem hearAll_notes (s : Sequencer R) (ns : List (Note R)) : s.hearAll (ns.map .note) = s.playNotes ns := by
  induction ns generalizing s with
  | nil => rfl
  | cons n rest ih =>
    simp only [List.map_cons, hearAll, playNotes, hear, ih]

end Sequencer

/-- Notes stand for an event: what opens a group after them starts where it would start after the event. -/
def StandFor (noteLength : R) (event : Event R) (ns : List (Note R)) : Prop :=
  ∀ (s : Sequencer R) (next : Note R) (length : R), s.noteLength = noteLength → next.isFirst = true →
    ((s.hearAll (ns.map .note)).1.timeline.place next length).2.start =
      ((s.hear event).1.timeline.place next length).2.start

namespace StandFor

variable {noteLength : R} {ns : List (Note R)}

/-- They do so just where they take the cursor on by as much. -/
theorem iff_latest (laws : Scalar.Exact value) {event : Event R} {notes : List (Note R)}
    (hevent : ∀ s : Sequencer R, s.hear event = s.playNotes notes) {x y : Rat}
    (hns : ∀ c : Cursor R, value (ns.foldl (Cursor.follow noteLength) c).latest = value c.latest + x)
    (hnotes : ∀ c : Cursor R, value (notes.foldl (Cursor.follow noteLength) c).latest = value c.latest + y) :
    StandFor noteLength event ns ↔ x = y := by
  have hstart : ∀ (t : Timeline R) {next : Note R} (length : R), next.isFirst = true →
      (t.place next length).2.start = t.cursor.latest := fun _ _ _ => Cursor.time_approach
  constructor
  · -- a sequencer at its start hears both, and a note that opens a group shows how far each has come
    intro h
    have hsame := h (Sequencer.start 1 noteLength).1 { (Note.ofValue 0 : Note R) with isFirst := true }
      noteLength rfl rfl
    rw [hstart _ _ rfl, hstart _ _ rfl, hevent, Sequencer.hearAll_notes, Sequencer.cursor_playNotes,
      Sequencer.cursor_playNotes] at hsame
    exact add_left_cancel ((hns _).symm.trans ((congrArg value hsame).trans (hnotes _)))
  · rintro rfl s next length rfl hnext
    rw [hstart _ _ hnext, hstart _ _ hnext, hevent, Sequencer.hearAll_notes, Sequencer.cursor_playNotes,
      Sequencer.cursor_playNotes]
    exact laws.injective ((hns _).trans (hnotes _).symm)

variable (laws : Scalar.Exact value) {length : R} (hpos : 0 < value length)
  (h : Cursor.InTurn noteLength length ns)

include laws hpos h

/-- Notes in turn stand for a note just where it lasts as long as all of them. -/
theorem note_iff {n : Note R} (hopens : n.isFirst = true) (honward : n.isHarmonic = false)
    (hn : 0 < value (Timeline.lengthOf n noteLength)) :
    StandFor noteLength (.note n) ns ↔ ns.length * value length = value (Timeline.lengthOf n noteLength) := by
  have halone : Cursor.InTurn noteLength (Timeline.lengthOf n noteLength) [n] :=
    ⟨fun m hm => Option.some.inj hm ▸ hopens, List.forall_mem_singleton.mpr honward,
      List.forall_mem_singleton.mpr rfl⟩
  have hevent : ∀ s : Sequencer R, s.hear (.note n) = s.playNotes [n] := fun s => by
    simp only [Sequencer.hear, Sequencer.playNotes, List.append_nil]
  refine iff_latest laws hevent (Cursor.latest_inTurn laws hpos h) fun c => ?_
  rw [Cursor.latest_inTurn laws hn halone, List.length_singleton, Nat.cast_one, one_mul]

/-- They stand for a chord in the same way. -/
theorem chord_iff {c : Chord R} (hopens : c.root.isFirst = true) (honward : c.root.isHarmonic = false)
    (hc : 0 < value (Timeline.lengthOf c.root noteLength)) :
    StandFor noteLength (.chord c) ns ↔ ns.length * value length = value (Timeline.lengthOf c.root noteLength) :=
  iff_latest laws (fun _ => rfl) (Cursor.latest_inTurn laws hpos h) (Cursor.latest_chord laws hopens honward hc)

end StandFor

end ScoreText
