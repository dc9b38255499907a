import ScoreText.Proofs.Sequence.Ending
import ScoreText.Proofs.Sequence.InStep

/-!
Notes that are tied together sound as one. The first of them strikes and the last of them ends; what a track has of
other pitches, and where it was put in, makes no difference to their pairing.
-/

set_option autoImplicit false

namespace ScoreText

open Stable Sequence

/-- The pitch of a note-on or a note-off. -/
def SequenceEvent.pitch? : SequenceEvent → Option Nat
  | .noteOn _ note _ => some note
  | .noteOff _ note _ => some note
  | _ => none

namespace Sequence

/-- The note-ons and the note-offs of a pitch. -/
def ofPitch (p : Nat) (l : List TimedEvent) : List TimedEvent := l.filter fun e => e.event.pitch? == some p

@[simp] theorem ofPitch_append (p : Nat) (before after : List TimedEvent) :
    ofPitch p (before ++ after) = ofPitch p before ++ ofPitch p after := List.filter_append ..

theorem ofPitch_of_isNote {p : Nat} {l : List TimedEvent} (h : ∀ e ∈ l, Replay.isNote e.event = false) :
    ofPitch p l = [] := by
  refine List.filter_eq_nil_iff.mpr fun e he => ?_
  have hother := h e he
  obtain ⟨tick, event⟩ := e
  cases event <;> simp_all [Replay.isNote, SequenceEvent.pitch?]

/-- The notes of a pitch come of its own note-ons and note-offs. -/
theorem pairFrom_ofPitch (p : Nat) (opened : List OpenNote) (l : List TimedEvent) :
    (pairFrom opened l).filter (fun n => n.note == p) = pairFrom (openOf p opened) (ofPitch p l) := by
  induction l generalizing opened with
  | nil => rfl
  | cons e rest ih =>
    obtain ⟨tick, event⟩ := e
    cases event with
    | noteOn channel note velocity =>
      by_cases hp : note = p <;> simp [pairFrom, ih, ofPitch, openOf, SequenceEvent.pitch?, hp]
    | noteOff channel note velocity =>
      -- A note-off of another pitch takes nothing from the queue of this one.
      cases htake : takeOpen? note opened with
      | none =>
        by_cases hp : note = p
        · subst hp
          simp [pairFrom, ih, ofPitch, SequenceEvent.pitch?, htake, takeOpen?_eq_none.mp htake, takeOpen?]
        · simp [pairFrom, ih, ofPitch, SequenceEvent.pitch?, htake, hp]
      | some found =>
        obtain ⟨o, others⟩ := found
        obtain ⟨hnote, hsame, hother, -⟩ := takeOpen?_eq_some htake
        by_cases hp : note = p
        · subst hp
          simp [pairFrom, ih, ofPitch, SequenceEvent.pitch?, htake, hsame, takeOpen?, hnote]
        · simp [pairFrom, ih, ofPitch, SequenceEvent.pitch?, htake, hp, hother p fun h => hp h.symm]
    | _ => simp [pairFrom, ih, ofPitch, SequenceEvent.pitch?]

/-- A pitch is struck once and let go once on a track, for one note. -/
structure SoundsOnce (s : Sequence) (track : Nat) (n : SequencedNote) : Prop where
  strokes : ofPitch n.note (s.track track) = Replay.strokes track n
  notes : (s.notes track).filter (fun m => m.note == n.note) = [n]

/-- Whatever else was added, and in whatever order, two strokes of a pitch make a note. -/
theorem soundsOnce_of_added {s : Sequence} {track : Nat} {es : List TimedEvent} {n : SequencedNote}
    (htrack : s.track track = ofAdded es) (h : ofPitch n.note es = Replay.strokes track n)
    (hle : n.start ≤ n.finish) : s.SoundsOnce track n := by
  have hsorted : SortedBy TimedEvent.tick (ofPitch n.note es) := by
    rw [h]
    simpa [SortedBy, Replay.strokes] using hle
  have hstrokes : ofPitch n.note (s.track track) = Replay.strokes track n := by
    rw [htrack, ofAdded_eq_mergeSort, ← h]
    exact filter_mergeSort hsorted
  refine ⟨hstrokes, ?_⟩
  have hall : Sorted (s.track track) := htrack ▸ sorted_ofAdded es
  rw [notes_eq_notesOf, notesOf_of_pitch hall, pairFrom_ofPitch, hstrokes]
  simp [Replay.strokes, openOf, pairFrom, takeOpen?]

end Sequence

/-- Over a length above zero no tick comes before the one it begins on. So it is with fractions; and with doubles,
since rounding keeps the order of what is rounded. -/
def Tick.Advances (R : Type) [Scalar R] : Prop :=
  ∀ (time length : R) (resolution : Nat), ((0 : Nat) : R) < length →
    Tick.ofBeats time resolution ≤ Tick.ofBeats (time + length) resolution

theorem Tick.advances_rat : Tick.Advances Rat := fun _ _ resolution h =>
  Scalar.ordered_rat.ofBeats_mono resolution (le_add_of_nonneg_right (Nat.cast_zero (R := Rat) ▸ h).le)

variable {R : Type} [Scalar R]

namespace Sequencer

/-- Notes that are placed one after another, with where they come to lie. -/
def placings (s : Sequencer R) (ns : List (Note R)) : List (Note R × Placement R) :=
  ns.zip (s.timeline.placements s.noteLength ns)

/-- The strokes of a placed note: no note-on where it ends a tie, and no note-off where it starts one. -/
def strokesOf (resolution track : Nat) (x : Note R × Placement R) : List TimedEvent :=
  (if x.1.isRest || x.1.endsTie then []
    else [⟨Tick.ofBeats x.2.start resolution, .noteOn track x.1.value x.1.attack⟩]) ++
  (if x.1.isRest || x.1.startsTie then []
    else [⟨Tick.ofBeats x.2.finish resolution, .noteOff track x.1.value x.1.decay⟩])

def isOfPitch (p : Nat) (x : Note R × Placement R) : Bool := !x.1.isRest && x.1.value == p

/-- The notes of a pitch that events place on a track, in the order in which they are heard. -/
def strand (track p : Nat) : Sequencer R → List (Event R) → List (Note R × Placement R)
  | _, [] => []
  | s, event :: rest =>
    (if s.channel = track then (s.placings event.placed).filter (isOfPitch p) else []) ++
      strand track p (s.hear event).1 rest

theorem playNotes_placings (s : Sequencer R) (ns : List (Note R)) :
    (s.playNotes ns).2 =
      ((s.placings ns).flatMap (strokesOf s.resolution s.channel)).map (addition s.channel) := by
  induction ns generalizing s with
  | nil => rfl
  | cons n rest ih =>
    have hplacings : s.placings (n :: rest) =
        (n, (s.timeline.place n (Timeline.lengthOf n s.noteLength)).2) :: (s.playNote n).1.placings rest := rfl
    have hstrokes : ∀ p : Placement R, s.sounds n p.start p.finish =
        (strokesOf s.resolution s.channel (n, p)).map (addition s.channel) := by
      intro p
      cases hr : n.isRest <;> cases hs : n.startsTie <;> cases he : n.endsTie <;>
        simp [sounds, strokesOf, hr, hs, he, emitAt_eq_addition, tick]
    rw [playNotes_cons, hplacings, List.flatMap_cons, List.map_append, ih, playNote_eq, hstrokes]
    rfl

theorem ofPitch_strokesOf (p resolution track : Nat) (x : Note R × Placement R) :
    ofPitch p (strokesOf resolution track x) = if isOfPitch p x then strokesOf resolution track x else [] := by
  obtain ⟨n, placement⟩ := x
  cases hr : n.isRest <;> cases hs : n.startsTie <;> cases he : n.endsTie <;> by_cases hp : n.value = p <;>
    simp [ofPitch, strokesOf, isOfPitch, SequenceEvent.pitch?, hr, hs, he, hp]

theorem ofPitch_flatMap (p resolution track : Nat) (xs : List (Note R × Placement R)) :
    ofPitch p (xs.flatMap (strokesOf resolution track)) =
      (xs.filter (isOfPitch p)).flatMap (strokesOf resolution track) := by
  induction xs with
  | nil => rfl
  | cons x rest ih =>
    rw [List.flatMap_cons, ofPitch_append, ih, ofPitch_strokesOf, List.filter_cons]
    split <;> simp

/-- What an event adds of a pitch are the strokes of the notes of that pitch that it places. -/
theorem ofPitch_hear (s : Sequencer R) (event : Event R) (track p : Nat) :
    ofPitch p (added track (s.hear event).2) =
      (if s.channel = track then (s.placings event.placed).filter (isOfPitch p) else []).flatMap
        (strokesOf s.resolution track) := by
  rcases s.hear_strokes event with hnotes | ⟨hplaced, hother⟩
  · rw [hnotes, playNotes_placings, added_addition]
    split
    case isTrue h => rw [ofPitch_flatMap, h]
    case isFalse => rfl
  · rw [ofPitch_of_isNote (hother track), hplaced]
    split <;> rfl

theorem ofPitch_hearAll (s : Sequencer R) (events : List (Event R)) (track p : Nat) :
    ofPitch p (added track (s.hearAll events).2) =
      (s.strand track p events).flatMap (strokesOf s.resolution track) := by
  induction events generalizing s with
  | nil => rfl
  | cons event rest ih =>
    have hcalls : (s.hearAll (event :: rest)).2 = (s.hear event).2 ++ ((s.hear event).1.hearAll rest).2 := rfl
    rw [hcalls, added_append, ofPitch_append, ofPitch_hear, ih, resolution_hear, strand, List.flatMap_append]

theorem finish_placings {s : Sequencer R} {ns : List (Note R)} {x : Note R × Placement R} (h : x ∈ s.placings ns) :
    x.2.finish = x.2.start + Timeline.lengthOf x.1 s.noteLength := by
  induction ns generalizing s with
  | nil => exact nomatch h
  | cons n rest ih =>
    rcases List.mem_cons.mp h with rfl | h
    · rfl
    · exact ih (s := (s.playNote n).1) h

theorem mem_strand {s : Sequencer R} {events : List (Event R)} {track p : Nat} {x : Note R × Placement R}
    (h : x ∈ s.strand track p events) :
    isOfPitch p x ∧ x.2.finish = x.2.start + Timeline.lengthOf x.1 s.noteLength := by
  induction events generalizing s with
  | nil => exact nomatch h
  | cons event rest ih =>
    rcases List.mem_append.mp h with h | h
    · split at h
      · obtain ⟨hplaced, hpitch⟩ := List.mem_filter.mp h
        exact ⟨hpitch, finish_placings hplaced⟩
      · exact nomatch h
    · have hmore := ih h
      rwa [noteLength_hear] at hmore

end Sequencer

/-- A note is tied to the next one, which starts where it ends, and so on to one that is tied to none. -/
def TiedOn : Note R × Placement R → List (Note R × Placement R) → Prop
  | x, [] => x.1.startsTie = false
  | x, y :: rest => x.1.startsTie = true ∧ y.1.endsTie = true ∧ y.2.start = x.2.finish ∧ TiedOn y rest

/-- Notes that last and are tied together, from one that is tied to none before it. -/
def Tied (noteLength : R) : List (Note R × Placement R) → Prop
  | [] => False
  | x :: rest =>
    x.1.endsTie = false ∧ TiedOn x rest ∧ ∀ y ∈ x :: rest, ((0 : Nat) : R) < Timeline.lengthOf y.1 noteLength

instance decidableTiedOn [DecidableEq R] :
    ∀ (x : Note R × Placement R) (rest : List (Note R × Placement R)), Decidable (TiedOn x rest)
  | x, [] => inferInstanceAs (Decidable (x.1.startsTie = false))
  | x, y :: rest =>
    have := decidableTiedOn y rest
    inferInstanceAs (Decidable (x.1.startsTie = true ∧ y.1.endsTie = true ∧ y.2.start = x.2.finish ∧ TiedOn y rest))

instance decidableTied [DecidableEq R] (noteLength : R) :
    ∀ xs : List (Note R × Placement R), Decidable (Tied noteLength xs)
  | [] => inferInstanceAs (Decidable False)
  | x :: rest => inferInstanceAs (Decidable (x.1.endsTie = false ∧ TiedOn x rest ∧
      ∀ y ∈ x :: rest, ((0 : Nat) : R) < Timeline.lengthOf y.1 noteLength))

open Sequencer

/-- Of notes tied together only the last one lets go, and only the first one strikes. -/
theorem strokesOf_tiedOn {p : Nat} (resolution track : Nat) {x : Note R × Placement R}
    {rest : List (Note R × Placement R)} (h : TiedOn x rest) (hpitch : ∀ y ∈ x :: rest, isOfPitch p y) :
    ∃ last, (x :: rest).getLast? = some last ∧
      (x :: rest).flatMap (strokesOf resolution track) =
        (if x.1.endsTie then [] else [⟨Tick.ofBeats x.2.start resolution, .noteOn track p x.1.attack⟩]) ++
          [⟨Tick.ofBeats last.2.finish resolution, .noteOff track p last.1.decay⟩] := by
  induction rest generalizing x with
  | nil =>
    have hx := hpitch x List.mem_cons_self
    simp only [isOfPitch, Bool.and_eq_true, Bool.not_eq_true', beq_iff_eq] at hx
    refine ⟨x, rfl, ?_⟩
    simp [strokesOf, hx.1, hx.2, show x.1.startsTie = false from h]
  | cons y rest ih =>
    obtain ⟨hx, hrest⟩ := List.forall_mem_cons.mp hpitch
    obtain ⟨hstarts, hends, -, hon⟩ := h
    obtain ⟨last, hlast, hstrokes⟩ := ih hon hrest
    simp only [isOfPitch, Bool.and_eq_true, Bool.not_eq_true', beq_iff_eq] at hx
    refine ⟨last, by rw [List.getLast?_cons_cons, hlast], ?_⟩
    rw [List.flatMap_cons, hstrokes]
    simp [strokesOf, hx.1, hx.2, hstarts, hends]

theorem tick_le_of_tiedOn {resolution : Nat} {x last : Note R × Placement R} {rest : List (Note R × Placement R)}
    (h : TiedOn x rest) (hlast : (x :: rest).getLast? = some last)
    (forward : ∀ y ∈ x :: rest, Tick.ofBeats y.2.start resolution ≤ Tick.ofBeats y.2.finish resolution) :
    Tick.ofBeats x.2.start resolution ≤ Tick.ofBeats last.2.finish resolution := by
  induction rest generalizing x with
  | nil =>
    obtain rfl : x = last := by simpa using hlast
    exact forward x List.mem_cons_self
  | cons y rest ih =>
    obtain ⟨-, -, hjoin, hon⟩ := h
    obtain ⟨hx, hrest⟩ := List.forall_mem_cons.mp forward
    rw [List.getLast?_cons_cons] at hlast
    calc Tick.ofBeats x.2.start resolution ≤ Tick.ofBeats x.2.finish resolution := hx
      _ = Tick.ofBeats y.2.start resolution := by rw [hjoin]
      _ ≤ Tick.ofBeats last.2.finish resolution := ih hon hlast hrest

namespace Recorder

theorem track_start (resolution : Nat) (noteLength : R) (n : Nat) :
    (start resolution noteLength).sequence.track n = [] :=
  List.eq_nil_iff_forall_not_mem.mpr (not_mem_track_start resolution noteLength n)

/-- Whatever is heard around and between them: where the notes of a pitch that are placed on a track are tied
together, each starting where the one before it ends, the track has one note-on of the pitch, that of the first of
them, and one note-off, that of the last, and one note of the pitch is found on it. This needs neither that they are
first notes of their groups nor that they are on one layer. -/
theorem tied_notes_sound_once (forward : Tick.Advances R) (resolution : Nat) (noteLength : R)
    (events : List (Event R)) (n p : Nat)
    (h : Tied noteLength ((start resolution noteLength).sequencer.strand n p events)) :
    let s := (start resolution noteLength).sequencer
    let r := heard resolution noteLength events
    ∃ first last, (s.strand n p events).head? = some first ∧ (s.strand n p events).getLast? = some last ∧
      let whole : SequencedNote :=
        ⟨p, first.1.attack, last.1.decay, s.tick first.2.start, s.tick last.2.finish⟩
      r.sequence.SoundsOnce n whole ∧ r.finish.sequence.SoundsOnce n whole := by
  intro s r
  have hadded := s.ofPitch_hearAll events n p
  have hmem : ∀ y ∈ s.strand n p events, isOfPitch p y ∧ y.2.finish = y.2.start + Timeline.lengthOf y.1 noteLength :=
    fun y hy => mem_strand hy
  rcases hstrand : s.strand n p events with _ | ⟨first, rest⟩
  · rw [hstrand] at h
    exact h.elim
  rw [hstrand] at h hadded hmem
  obtain ⟨hfirst, hon, hlong⟩ := h
  obtain ⟨last, hlast, hstrokes⟩ := strokesOf_tiedOn s.resolution n hon fun y hy => (hmem y hy).1
  have hle : s.tick first.2.start ≤ s.tick last.2.finish := by
    refine tick_le_of_tiedOn hon hlast fun y hy => ?_
    rw [(hmem y hy).2]
    exact forward _ _ _ (hlong y hy)
  rw [hstrokes, hfirst] at hadded
  refine ⟨first, last, rfl, hlast, ?_⟩
  intro whole
  -- Ending the tracks is one more list of calls, of which none strikes a note.
  have hmore : ∀ more : List SinkCall, (∀ e ∈ added n more, Replay.isNote e.event = false) →
      (r.sequence.obeyAll more).SoundsOnce n whole := by
    intro more hother
    have htrack : (r.sequence.obeyAll more).track n = ofAdded (added n ((s.hearAll events).2 ++ more)) := by
      rw [show r.sequence = _ from congrArg Recorder.sequence (foldl_hear _ events), ← obeyAll_append, track_obeyAll,
        track_start]
      rfl
    refine soundsOnce_of_added htrack ?_ hle
    rw [added_append, ofPitch_append, ofPitch_of_isNote hother, List.append_nil]
    exact hadded
  refine ⟨hmore [] (fun _ he => nomatch he), hmore r.sequencer.finish.2 fun e he => ?_⟩
  obtain ⟨kind, data, hmeta⟩ := added_finish r.sequencer n e he
  rw [hmeta]
  rfl

/-- A note held for three quarters on one track, with others on another layer, back in time and on another track. -/
def suspended : List (Event Rat) :=
  let held : Note Rat := { (Note.ofValue 60).withLength (1 / 4) with isFirst := true }
  [.track 1, .note { held with startsTie := true, attack := 90 }, .layer 1, .chord Sequencer.joinedTriad, .layer 0,
    .note { held with startsTie := true, endsTie := true }, .marker [], .track 0, .note held, .track 1,
    .bookmark [], .timeRequest 0, .note { held with value := 61 }, .bookmarkRequest [],
    .note { held with endsTie := true, decay := 20 }]

theorem suspended_sounds_once :
    let s := (start 128 (1 / 4 : Rat)).sequencer
    let r := heard 128 (1 / 4) suspended
    Tick.Advances Rat ∧ Tied (1 / 4) (s.strand 1 60 suspended) ∧ (s.strand 1 60 suspended).length = 3 ∧
      r.sequence.SoundsOnce 1 ⟨60, 90, 20, 0, 384⟩ ∧ r.finish.sequence.SoundsOnce 1 ⟨60, 90, 20, 0, 384⟩ := by
  intro s r
  have htied : Tied (1 / 4) (s.strand 1 60 suspended) := by decide +kernel
  obtain ⟨first, last, hfirst, hlast, hsounds⟩ :=
    tied_notes_sound_once Tick.advances_rat 128 (1 / 4) suspended 1 60 htied
  have hstrikes : (s.strand 1 60 suspended).head?.map (fun x => (x.1.attack, s.tick x.2.start)) = some (90, 0) := by
    decide +kernel
  have hends : (s.strand 1 60 suspended).getLast?.map (fun x => (x.1.decay, s.tick x.2.finish)) = some (20, 384) := by
    decide +kernel
  rw [hfirst] at hstrikes
  rw [hlast] at hends
  obtain ⟨hattack, hstart⟩ := Prod.mk.inj (Option.some.inj hstrikes)
  obtain ⟨hdecay, hfinish⟩ := Prod.mk.inj (Option.some.inj hends)
  rw [hattack, hstart, hdecay, hfinish] at hsounds
  exact ⟨Tick.advances_rat, htied, by decide +kernel, hsounds⟩

end Recorder

end ScoreText
