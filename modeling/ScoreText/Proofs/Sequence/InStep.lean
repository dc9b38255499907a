import Mathlib.Algebra.Order.Round
import ScoreText.Chronicle
import ScoreText.Proofs.Live.Agenda
import ScoreText.Proofs.Sequence.Ending
import ScoreText.Proofs.Timeline.Scaling

/-!
A recorder and a chronicle that hear the same events at a steady tempo stay in step: the cursors of
the chronicle are those of the recorder in milliseconds, and what both keep of an event is kept at
the same time.
-/

set_option autoImplicit false

namespace ScoreText

open Sequence

theorem Agenda.mem_toList_add {α : Type} (a : Agenda α) (time : Nat) (item : α) (y : Nat × α) :
    y ∈ (a.add time item).toList ↔ y = (time, item) ∨ y ∈ a.toList := by
  rw [toList_eq_spread, toList_eq_spread, add]
  induction a.buckets with
  | nil => simp [addTo, spread]
  | cons bucket rest ih =>
    obtain ⟨t, items⟩ := bucket
    simp only [addTo]
    split
    · simp
    · split
      · rename_i h
        subst h
        simp only [spread_cons, List.map_append, List.mem_append, List.map_cons, List.map_nil,
          List.mem_singleton]
        tauto
      · rw [spread_cons, spread_cons, List.mem_append, List.mem_append, ih]
        tauto

namespace Tempo

theorem millisOfBeats_rat {b : Nat} (hb : 1 ≤ b) (beats : Rat) :
    millisOfBeats beats b = 240000 / b * beats := by
  have hmillis : millisOfBeats beats b = beats * 4 * 60000 / ((max b 1 : Nat) : Rat) := rfl
  rw [hmillis, Nat.max_eq_left hb]
  ring

theorem millisecond_rat (millis : Rat) : millisecond millis = (round (max millis 0)).toNat := by
  have hmillis : millisecond millis = (Scalar.max millis 0 + 1 / 2).floor.toNat := rfl
  rw [hmillis, Scalar.max_rat, round_eq]
  rfl

end Tempo

theorem Tick.ofBeats_floor (beats : Rat) (resolution : Nat) :
    ofBeats beats resolution = ⌊4 * (resolution : Rat) * max beats 0⌋₊ := by
  have hscale : max ((resolution : Rat) * beats * 4) 0 = 4 * (resolution : Rat) * max beats 0 := by
    rw [mul_max_of_nonneg beats 0 (by positivity), mul_zero]
    congr 1
    ring
  rw [Tick.ofBeats_rat, hscale]
  exact Int.floor_toNat (4 * (resolution : Rat) * max beats 0)

/-- The notes that an event places. -/
def Event.placed {R : Type} [Scalar R] : Event R → List (Note R)
  | .note n => [n]
  | .chord c => c.notes
  | _ => []

namespace Sequencer

variable {R : Type} [Scalar R]

/-- The position at which an event takes place: that of the first of its notes, or of the cursor.
Moves and the limits of parsing have none. -/
def position? (s : Sequencer R) : Event R → Option R
  | .parsingStarts | .parsingEnds | .track _ | .layer _ | .bookmark _ | .bookmarkRequest _
  | .timeRequest _ => none
  | .note n => (s.timeline.placements s.noteLength [n]).head?.map Placement.start
  | .chord c => (s.timeline.placements s.noteLength c.notes).head?.map Placement.start
  | _ => some s.timeline.time

/-- What a sequence gets of an event, and at which position. -/
inductive Keeps (s : Sequencer R) (event : Event R) : R → SequenceEvent → Prop where
  | plain {w : SequenceEvent} (h : written? s.channel event = some w) :
    s.Keeps event s.timeline.time w
  | on {n : Note R} {p : Placement R} {x : R}
    (h : (n, p) ∈ event.placed.zip (s.timeline.placements s.noteLength event.placed))
    (hon : p.on = some x) : s.Keeps event x (.noteOn s.channel n.value n.attack)
  | off {n : Note R} {p : Placement R} {x : R}
    (h : (n, p) ∈ event.placed.zip (s.timeline.placements s.noteLength event.placed))
    (hoff : p.off = some x) : s.Keeps event x (.noteOff s.channel n.value n.decay)

theorem mem_playNotes (s : Sequencer R) {ns : List (Note R)} {n : Note R} {p : Placement R}
    (h : (n, p) ∈ ns.zip (s.timeline.placements s.noteLength ns)) {x : R} :
    (p.on = some x → s.emitAt x (.noteOn s.channel n.value n.attack) ∈ (s.playNotes ns).2) ∧
      (p.off = some x → s.emitAt x (.noteOff s.channel n.value n.decay) ∈ (s.playNotes ns).2) := by
  induction ns generalizing s with
  | nil => cases h
  | cons m rest ih =>
    rw [playNotes_cons, List.mem_append, List.mem_append]
    rcases List.mem_cons.mp h with h | h
    · obtain ⟨rfl, rfl⟩ := Prod.mk.inj h
      refine ⟨fun hon => .inl ?_, fun hoff => .inl ?_⟩
      · simp only [playNote, hon, List.mem_append]
        exact .inl List.mem_cons_self
      · simp only [playNote, hoff, List.mem_append]
        exact .inr List.mem_cons_self
    · obtain ⟨hon, hoff⟩ := ih (s.playNote m).1 h
      exact ⟨fun h => .inr (hon h), fun h => .inr (hoff h)⟩

/-- An event plays the notes that it places, or else writes no stroke. -/
theorem hear_strokes (s : Sequencer R) (event : Event R) :
    (s.hear event).2 = (s.playNotes event.placed).2 ∨
      event.placed = [] ∧ ∀ track, ∀ e ∈ added track (s.hear event).2, Replay.isNote e.event = false := by
  cases hw : written? s.channel event with
  | some w =>
    have hplaced : event.placed = [] := by cases event <;> first | rfl | cases hw
    have hother : Replay.isNote w = false := Replay.written_isNote hw
    refine .inr ⟨hplaced, fun track e he => ?_⟩
    have hcalls : added track (s.hear event).2 =
        if s.channel = track then [⟨s.tick s.timeline.time, w⟩] else [] := by
      rw [hear_written hw, emitAt_eq_addition]
      exact added_addition track _ [_]
    rw [hcalls] at he
    split at he
    · rw [List.mem_singleton.mp he]
      exact hother
    · exact nomatch he
  | none =>
    cases event with
    | note n => exact .inl (List.append_nil _).symm
    | chord c => exact .inl rfl
    | track n => exact .inr ⟨rfl, fun track e he => by simp [hear, added_createTrack] at he⟩
    | instrument | tempo | keySignature | timeSignature | pitchWheel | channelPressure
    | polyPressure | systemExclusive | controller | lyric | marker => cases hw
    | _ => exact .inr ⟨rfl, fun _ _ he => absurd he List.not_mem_nil⟩

theorem Keeps.emitted {s : Sequencer R} {event : Event R} {x : R} {w : SequenceEvent}
    (h : s.Keeps event x w) : s.emitAt x w ∈ (s.hear event).2 := by
  cases h with
  | plain hw =>
    rw [hear_written hw]
    exact List.mem_singleton_self _
  | on h hon =>
    rcases s.hear_strokes event with hall | ⟨hnone, -⟩
    · rw [hall]
      exact (mem_playNotes s h).1 hon
    · rw [hnone] at h
      cases h
  | off h hoff =>
    rcases s.hear_strokes event with hall | ⟨hnone, -⟩
    · rw [hall]
      exact (mem_playNotes s h).2 hoff
    · rw [hnone] at h
      cases h

end Sequencer

namespace Chronicle

/-- A chronicle that has heard events from its start. -/
def heard (noteLength : Rat) (events : List (Event Rat)) : Chronicle Rat :=
  events.foldl hear (start noteLength)

theorem placeAll_scale {k : Rat} (hk : 0 < k) (t : Timeline Rat) {noteLength length : Rat}
    {ns : List (Note Rat)} (h : ∀ n ∈ ns, Timeline.lengthOf n noteLength = length) :
    placeAll (t.scale k) (k * length) ns =
      ((t.withCursor (t.cursor.pass noteLength ns)).scale k,
        (t.placements noteLength ns).head?.map fun p => k * p.start) := by
  induction ns generalizing t with
  | nil => simp [placeAll, Cursor.pass, Timeline.placements]
  | cons n rest ih =>
    obtain ⟨hn, hrest⟩ := List.forall_mem_cons.mp h
    obtain ⟨hplaced, hstart⟩ := Timeline.scale_place hk t n length
    have hpassed : ((t.place n length).1.withCursor
        ((t.place n length).1.cursor.pass noteLength rest)) =
          t.withCursor (t.cursor.pass noteLength (n :: rest)) := by
      simp only [Timeline.place, Timeline.cursor_withCursor, Timeline.withCursor_withCursor,
        Cursor.pass, List.foldl_cons, hn]
    have hstep : placeAll (t.scale k) (k * length) (n :: rest) =
        ((placeAll ((t.scale k).place n (k * length)).1 (k * length) rest).1,
          some ((t.scale k).place n (k * length)).2.start) := rfl
    rw [hstep, hplaced, hstart, ih _ hrest, hpassed, Timeline.placements, hn]
    rfl

end Chronicle

/-- After the start of parsing, if it is announced, comes the tempo. -/
def OpensWith (b : Nat) (events : List (Event Rat)) : Prop :=
  ∃ lead rest, events = lead ++ .tempo b :: rest ∧ ∀ e ∈ lead, e = .parsingStarts

theorem OpensWith.tail {b : Nat} {event : Event Rat} {later : List (Event Rat)}
    (h : OpensWith b (event :: later)) :
    event = .tempo b ∨ event = .parsingStarts ∧ OpensWith b later := by
  obtain ⟨lead, rest, hevents, hlead⟩ := h
  cases lead with
  | nil => exact .inl (List.cons.inj hevents).1
  | cons e lead =>
    obtain ⟨he, hstarts⟩ := List.forall_mem_cons.mp hlead
    obtain ⟨rfl, hlater⟩ := List.cons.inj hevents
    exact .inr ⟨he, lead, rest, hlater, hstarts⟩

/-- The tempo is the same throughout: the usual one, or one that is set before anything else. -/
structure SteadyTempo (b : Nat) (events : List (Event Rat)) : Prop where
  positive : 1 ≤ b
  only : ∀ bpm, .tempo bpm ∈ events → bpm = b
  first : b = defaultTempo ∨ OpensWith b events

theorem SteadyTempo.next {b : Nat} {events before later : List (Event Rat)} {event : Event Rat}
    (h : SteadyTempo b events) (hevents : events = before ++ event :: later) :
    ∀ bpm, event = .tempo bpm → bpm = b := by
  rintro bpm rfl
  refine h.only bpm ?_
  rw [hevents]
  exact List.mem_append_right _ List.mem_cons_self

/-- A chronicle whose times are those of a sequencer in milliseconds, with what is still to come. -/
structure InStep (b : Nat) (s : Sequencer Rat) (c : Chronicle Rat) (later : List (Event Rat)) :
    Prop where
  timeline : c.timeline = s.timeline.scale (240000 / b)
  noteLength : c.noteLength = s.noteLength
  tempo : c.tempo = b ∨ OpensWith b later

namespace InStep

variable {b : Nat} {s : Sequencer Rat} {c : Chronicle Rat}

/-- The entry for an event that happens at some position. -/
def entry (b : Nat) (s : Sequencer Rat) (event : Event Rat) (x : Rat) : Nat × ChronicleEntry Rat :=
  (Tempo.millisecond (240000 / b * x), ⟨s.timeline.track.val, s.timeline.layer.val, event⟩)

/-- What is filed of an event. -/
def Filed (b : Nat) (s : Sequencer Rat) (c after : Chronicle Rat) (event : Event Rat) : Prop :=
  after.entries = match s.position? event with
    | none => c.entries
    | some x => c.entries.add (entry b s event x).1 (entry b s event x).2

theorem millis_pos (hb : 1 ≤ b) : (0 : Rat) < 240000 / b := by
  have : (0 : Rat) < b := by exact_mod_cast hb
  positivity

theorem record (h : c.timeline = s.timeline.scale (240000 / b)) {event : Event Rat}
    (hx : s.position? event = some s.timeline.time) : Filed b s c (c.record event) event := by
  rw [Filed, hx, Chronicle.record, Chronicle.recordAt, h, Timeline.time_scale]
  rfl

theorem hear_note (hb : 1 ≤ b) (htimeline : c.timeline = s.timeline.scale (240000 / b))
    (hlength : c.noteLength = s.noteLength) (htempo : c.tempo = b) (n : Note Rat) :
    (c.hear (.note n)).timeline = (s.hear (.note n)).1.timeline.scale (240000 / b) ∧
      Filed b s c (c.hear (.note n)) (.note n) := by
  have hmillis : c.millisOf n = 240000 / b * Timeline.lengthOf n s.noteLength := by
    rw [Chronicle.millisOf, hlength, htempo, Tempo.millisOfBeats_rat hb]
  obtain ⟨hplaced, hstart⟩ := Timeline.scale_place (millis_pos hb) s.timeline n
    (Timeline.lengthOf n s.noteLength)
  rw [← htimeline, ← hmillis] at hplaced hstart
  refine ⟨hplaced, ?_⟩
  simp only [Filed, Sequencer.position?, Timeline.placements, List.head?_cons, Option.map_some,
    Chronicle.hear, Chronicle.recordAt, hplaced, hstart]
  rfl

theorem hear_chord (hb : 1 ≤ b) (htimeline : c.timeline = s.timeline.scale (240000 / b))
    (hlength : c.noteLength = s.noteLength) (htempo : c.tempo = b) (chord : Chord Rat) :
    (c.hear (.chord chord)).timeline = (s.hear (.chord chord)).1.timeline.scale (240000 / b) ∧
      Filed b s c (c.hear (.chord chord)) (.chord chord) := by
  obtain ⟨bass, above, hv⟩ := chord.exists_voiced
  have hlengths : ∀ n ∈ chord.notes,
      Timeline.lengthOf n s.noteLength = Timeline.lengthOf chord.root s.noteLength := by
    rw [hv.notes]
    exact fun n hn => Timeline.lengthOf_congr (hv.length n hn) s.noteLength
  have hmillis : c.millisOf chord.root = 240000 / b * Timeline.lengthOf chord.root s.noteLength := by
    rw [Chronicle.millisOf, hlength, htempo, Tempo.millisOfBeats_rat hb]
  have hplaced := Chronicle.placeAll_scale (millis_pos hb) s.timeline hlengths
  rw [← htimeline, ← hmillis] at hplaced
  have hheard : (s.hear (.chord chord)).1.timeline =
      s.timeline.withCursor (s.timeline.cursor.pass s.noteLength chord.notes) := by
    rw [Sequencer.hear_chord_fst]
    rfl
  obtain ⟨first, hfirst⟩ : ∃ first, (s.timeline.placements s.noteLength chord.notes).head? =
      some first := by
    rw [hv.notes]
    exact ⟨_, rfl⟩
  rw [hfirst, Option.map_some] at hplaced
  constructor
  · simp only [Chronicle.hear, hplaced, hheard]
    rfl
  · simp only [Filed, Sequencer.position?, hfirst, Option.map_some, Chronicle.hear, hplaced]
    rfl

theorem tempo_hear (hb : 1 ≤ b) {event : Event Rat} {later : List (Event Rat)}
    (htempo : c.tempo = b ∨ OpensWith b (event :: later))
    (honly : ∀ bpm, event = .tempo bpm → bpm = b) :
    (c.hear event).tempo = b ∨ OpensWith b later := by
  have hset : (c.hear (.tempo b)).tempo = b := Nat.max_eq_left hb
  rcases htempo with htempo | hopens
  · refine .inl ?_
    cases event with
    | tempo bpm =>
      rw [honly bpm rfl]
      exact hset
    | _ => exact htempo
  · rcases hopens.tail with rfl | ⟨-, hopens⟩
    · exact .inl hset
    · exact .inr hopens

/-- What does not depend on the tempo happens at the same position in both. -/
theorem hear_tempo_free (htimeline : c.timeline = s.timeline.scale (240000 / b)) (bpm : Nat) :
    (c.hear (.tempo bpm)).timeline = s.timeline.scale (240000 / b) ∧
      Filed b s c (c.hear (.tempo bpm)) (.tempo bpm) :=
  ⟨htimeline, record (c := { c with tempo := max bpm 1 }) htimeline rfl⟩

theorem hear_timeline (hb : 1 ≤ b) (htimeline : c.timeline = s.timeline.scale (240000 / b))
    (hlength : c.noteLength = s.noteLength) (htempo : c.tempo = b) (event : Event Rat) :
    (c.hear event).timeline = (s.hear event).1.timeline.scale (240000 / b) ∧
      Filed b s c (c.hear event) event := by
  cases event with
  | note n => exact hear_note hb htimeline hlength htempo n
  | chord chord => exact hear_chord hb htimeline hlength htempo chord
  | tempo bpm => exact hear_tempo_free htimeline bpm
  | timeRequest time =>
    refine ⟨?_, rfl⟩
    simp only [Chronicle.hear, Sequencer.hear, htempo, Tempo.millisOfBeats_rat hb, htimeline]
    exact Timeline.scale_setTime s.timeline time
  | bookmarkRequest name =>
    refine ⟨?_, rfl⟩
    simp only [Chronicle.hear, Sequencer.hear, htimeline]
    exact Timeline.scale_jump s.timeline name
  | bookmark name =>
    refine ⟨?_, rfl⟩
    simp only [Chronicle.hear, Sequencer.hear, htimeline]
    exact Timeline.scale_setBookmark s.timeline name
  | track n =>
    refine ⟨?_, rfl⟩
    simp only [Chronicle.hear, Sequencer.hear, htimeline]
    exact Timeline.scale_setTrack s.timeline n
  | layer n =>
    refine ⟨?_, rfl⟩
    simp only [Chronicle.hear, Sequencer.hear, htimeline]
    exact Timeline.scale_setLayer s.timeline n
  | parsingStarts | parsingEnds => exact ⟨htimeline, rfl⟩
  | _ => exact ⟨htimeline, record htimeline rfl⟩

/-- An event keeps the two in step, and is filed where the sequencer has it. -/
theorem hear (hb : 1 ≤ b) {event : Event Rat} {later : List (Event Rat)}
    (h : InStep b s c (event :: later)) (honly : ∀ bpm, event = .tempo bpm → bpm = b) :
    InStep b (s.hear event).1 (c.hear event) later ∧ Filed b s c (c.hear event) event := by
  have hlength : (c.hear event).noteLength = (s.hear event).1.noteLength := by
    rw [Sequencer.noteLength_hear, ← h.noteLength]
    cases event <;> rfl
  have htempo := tempo_hear hb h.tempo honly
  have hboth : (c.hear event).timeline = (s.hear event).1.timeline.scale (240000 / b) ∧
      Filed b s c (c.hear event) event := by
    rcases h.tempo with hset | hopens
    · exact hear_timeline hb h.timeline h.noteLength hset event
    · rcases hopens.tail with rfl | ⟨rfl, -⟩
      · exact hear_tempo_free h.timeline b
      · exact ⟨h.timeline, rfl⟩
  exact ⟨⟨hboth.1, hlength, htempo⟩, hboth.2⟩

theorem start (b resolution : Nat) (noteLength : Rat) {later : List (Event Rat)}
    (htempo : b = defaultTempo ∨ OpensWith b later) :
    InStep b (Recorder.start resolution noteLength).sequencer (Chronicle.start noteLength) later where
  timeline := by
    have hscaled := Timeline.scale_setTrack (k := 240000 / b) Timeline.start 0
    rw [Timeline.scale_start] at hscaled
    exact hscaled
  noteLength := rfl
  tempo := htempo.imp_left Eq.symm

/-- Along events at a steady tempo the two are in step. -/
theorem heard {events : List (Event Rat)} (h : SteadyTempo b events) (resolution : Nat)
    (noteLength : Rat) {before after : List (Event Rat)} (hevents : events = before ++ after) :
    InStep b (Recorder.heard resolution noteLength before).sequencer
      (Chronicle.heard noteLength before) after := by
  induction before using List.reverseRecOn generalizing after with
  | nil =>
    have hfirst := h.first
    rw [hevents] at hfirst
    exact start b resolution noteLength hfirst
  | append_singleton before event ih =>
    rw [List.append_assoc] at hevents
    have hstep := (InStep.hear h.positive (ih hevents) (h.next hevents)).1
    rw [Recorder.heard_append_singleton, Chronicle.heard, List.foldl_append]
    exact hstep

end InStep

namespace Chronicle

theorem mem_entries_hear (c : Chronicle Rat) (event : Event Rat) {y : Nat × ChronicleEntry Rat}
    (h : y ∈ c.entries.toList) : y ∈ (c.hear event).entries.toList := by
  have hfiled : ∀ (d : Chronicle Rat) (millis : Rat), d.entries = c.entries →
      y ∈ (d.recordAt millis event).entries.toList := by
    intro d millis hd
    rw [recordAt, Agenda.mem_toList_add, hd]
    exact .inr h
  cases event with
  | track | layer | bookmark | bookmarkRequest | timeRequest | parsingStarts | parsingEnds => exact h
  | _ => exact hfiled _ _ rfl

theorem mem_entries_foldl (c : Chronicle Rat) (events : List (Event Rat))
    {y : Nat × ChronicleEntry Rat} (h : y ∈ c.entries.toList) :
    y ∈ (events.foldl hear c).entries.toList := by
  induction events generalizing c with
  | nil => exact h
  | cons event rest ih => exact ih (c.hear event) (mem_entries_hear c event h)

end Chronicle

namespace Recorder

theorem mem_track_foldl (r : Recorder Rat) (events : List (Event Rat)) {n : Nat} {e : TimedEvent}
    (h : e ∈ r.sequence.track n) : e ∈ (events.foldl hear r).sequence.track n := by
  rw [foldl_hear]
  exact mem_track_obeyAll.mpr (.inl h)

theorem resolution_heard (resolution : Nat) (noteLength : Rat) (events : List (Event Rat)) :
    (heard resolution noteLength events).sequencer.resolution = max resolution 1 := by
  induction events using List.reverseRecOn with
  | nil => exact Nat.max_eq_left (Nat.le_max_right resolution 1)
  | append_singleton events event ih =>
    rw [heard_append_singleton]
    exact (Sequencer.resolution_hear _ event).trans ih

/-- What the sequencer keeps of an event stays on the track. -/
theorem mem_track_of_keeps {resolution : Nat} {noteLength : Rat} (before : List (Event Rat))
    {event : Event Rat} (later : List (Event Rat)) {x : Rat} {w : SequenceEvent}
    (h : (heard resolution noteLength before).sequencer.Keeps event x w) :
    ⟨Tick.ofBeats x (max resolution 1), w⟩ ∈
      (heard resolution noteLength (before ++ event :: later)).sequence.track
        (heard resolution noteLength before).sequencer.channel := by
  have hadded : (⟨Tick.ofBeats x (max resolution 1), w⟩ : TimedEvent) ∈
      added (heard resolution noteLength before).sequencer.channel
        ((heard resolution noteLength before).sequencer.hear event).2 := by
    refine List.mem_filterMap.mpr ⟨_, h.emitted, ?_⟩
    simp only [Sequencer.emitAt, if_true, Sequencer.tick, resolution_heard]
  have hsplit : heard resolution noteLength (before ++ event :: later) =
      later.foldl hear ((heard resolution noteLength before).hear event) := by
    simp [heard]
  rw [hsplit]
  exact mem_track_foldl _ later (mem_track_obeyAll.mpr (.inr hadded))

/-- At a steady tempo of `b`, after any of the events, a recorder and a chronicle are on the same
track and layers, and the cursors and bookmarks of the chronicle are those of the recorder in
milliseconds. What the chronicle files of the next event, and what the sequence gets of it, stays at
the millisecond and at the tick of its position. -/
theorem in_step_with_chronicle {b : Nat} {events : List (Event Rat)} (h : SteadyTempo b events)
    (resolution : Nat) (noteLength : Rat) {before after : List (Event Rat)}
    (hevents : events = before ++ after) :
    let s := (heard resolution noteLength before).sequencer
    let c := Chronicle.heard noteLength before
    (c.timeline.track = s.timeline.track ∧ c.timeline.layers = s.timeline.layers ∧
        (∀ track layer, c.timeline.cursorAt track layer =
          (s.timeline.cursorAt track layer).scale (240000 / b)) ∧
        ∀ name, c.timeline.bookmark? name = (s.timeline.bookmark? name).map
          fun time => 240000 / (b : Rat) * time) ∧
      ∀ event later, after = event :: later →
        (∀ x, s.position? event = some x →
          ((round (max (240000 * x / b) 0)).toNat,
              (⟨s.timeline.track.val, s.timeline.layer.val, event⟩ : ChronicleEntry Rat)) ∈
            (Chronicle.heard noteLength events).entries.toList) ∧
          ∀ x w, s.Keeps event x w →
            ⟨⌊4 * ((max resolution 1 : Nat) : Rat) * max x 0⌋₊, w⟩ ∈
              (heard resolution noteLength events).sequence.track s.channel := by
  intro s c
  have hstep : InStep b s c after := InStep.heard h resolution noteLength hevents
  refine ⟨⟨?_, ?_, fun track layer => ?_, fun name => ?_⟩, ?_⟩
  · rw [hstep.timeline, Timeline.track_scale]
  · rw [hstep.timeline]
    rfl
  · rw [hstep.timeline, Timeline.cursorAt_scale]
  · rw [hstep.timeline]
    exact Table.get?_mapValues _ s.timeline.bookmarks name
  · rintro event later rfl
    refine ⟨fun x hx => ?_, fun x w hkeeps => ?_⟩
    · have hfiled := (InStep.hear h.positive hstep (h.next hevents)).2
      rw [InStep.Filed, hx] at hfiled
      have hmillis : Tempo.millisecond (240000 / b * x) = (round (max (240000 * x / b) 0)).toNat := by
        rw [Tempo.millisecond_rat, div_mul_eq_mul_div]
      have hsplit : Chronicle.heard noteLength events = later.foldl Chronicle.hear (c.hear event) := by
        rw [hevents]
        simp [Chronicle.heard, c]
      rw [hsplit]
      refine Chronicle.mem_entries_foldl _ later ?_
      rw [hfiled, Agenda.mem_toList_add, ← hmillis]
      exact .inl rfl
    · rw [← Tick.ofBeats_floor, hevents]
      exact mem_track_of_keeps before later hkeeps

/-- A chord at a requested time, on another track and layer than the first. -/
def chordAtHalf : List (Event Rat) :=
  [.tempo 90, .track 1, .layer 2, .timeRequest (1 / 2), .chord Sequencer.joinedTriad]

theorem chordAtHalf_in_step :
    SteadyTempo 90 chordAtHalf ∧
      (1333, (⟨1, 2, .chord Sequencer.joinedTriad⟩ : ChronicleEntry Rat)) ∈
        (Chronicle.heard (1 / 4) chordAtHalf).entries.toList ∧
      ⟨256, .noteOn 1 48 64⟩ ∈ (heard 128 (1 / 4) chordAtHalf).sequence.track 1 := by
  have hsteady : SteadyTempo 90 chordAtHalf := by
    refine ⟨by decide, fun bpm h => ?_, .inr ⟨[], chordAtHalf.tail, rfl, fun e he => nomatch he⟩⟩
    simpa [chordAtHalf] using h
  have hevents : chordAtHalf = chordAtHalf.take 4 ++ [.chord Sequencer.joinedTriad] := rfl
  obtain ⟨-, hkept⟩ := in_step_with_chronicle hsteady 128 (1 / 4) hevents
  obtain ⟨hfiled, hwritten⟩ := hkept _ [] rfl
  obtain ⟨s, hs⟩ : ∃ s, (heard 128 (1 / 4) (chordAtHalf.take 4)).sequencer = s := ⟨_, rfl⟩
  obtain ⟨n, p, hbass, hon, hnote⟩ : ∃ n p,
      (n, p) ∈ (Event.chord Sequencer.joinedTriad).placed.zip
        (s.timeline.placements s.noteLength (Event.chord Sequencer.joinedTriad).placed) ∧
      p.on = some (1 / 2) ∧ (s.channel, n.value, n.attack) = (1, 48, 64) := by
    subst hs
    exact ⟨_, _, List.mem_cons_self, by decide +kernel, by decide +kernel⟩
  obtain ⟨hchannel, hvalue, hattack⟩ : s.channel = 1 ∧ n.value = 48 ∧ n.attack = 64 := by
    simpa using hnote
  have hmillis : (round (max (240000 * (1 / 2 : Rat) / (90 : Nat)) 0)).toNat = 1333 := by
    decide +kernel
  have htick : ⌊4 * ((max 128 1 : Nat) : Rat) * max (1 / 2) 0⌋₊ = 256 := by decide +kernel
  have hposition := hfiled (1 / 2) (by decide +kernel)
  rw [hs] at hwritten
  have hwritten := hwritten (1 / 2) _ (.on hbass hon)
  rw [htick, hchannel, hvalue, hattack] at hwritten
  rw [hmillis] at hposition
  exact ⟨hsteady, hposition, hwritten⟩

end Recorder

end ScoreText
