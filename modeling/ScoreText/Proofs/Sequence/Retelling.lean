import ScoreText.Proofs.Sequence.Grouping
import ScoreText.Proofs.Timeline.Invariants

/-!
What a sequencer writes when it hears the groups of a track: each event at the tick of its group,
each note from its start to its end.
-/

set_option autoImplicit false

namespace ScoreText

open Stable Sequence

namespace Sequencer

variable {R : Type}

def withCursor (s : Sequencer R) (c : Cursor R) : Sequencer R :=
  { s with timeline := s.timeline.withCursor c }

@[simp] theorem timeline_withCursor (s : Sequencer R) (c : Cursor R) :
    (s.withCursor c).timeline = s.timeline.withCursor c := rfl

@[simp] theorem resolution_withCursor (s : Sequencer R) (c : Cursor R) :
    (s.withCursor c).resolution = s.resolution := rfl

@[simp] theorem channel_withCursor (s : Sequencer R) (c : Cursor R) :
    (s.withCursor c).channel = s.channel := rfl

@[simp] theorem withCursor_withCursor (s : Sequencer R) (c d : Cursor R) :
    (s.withCursor c).withCursor d = s.withCursor d := by
  simp [withCursor]

@[simp] theorem withCursor_cursor (s : Sequencer R) : s.withCursor s.timeline.cursor = s := by
  simp [withCursor]

variable [Scalar R]

/-- What is written for an event that is written at once and moves nothing. -/
def written? (channel : Nat) : Event R → Option SequenceEvent
  | .instrument n => some (.program channel n)
  | .tempo bpm => some (.metaEvent MetaKind.tempo.number (threeBytes (Tempo.quarterMicros bpm)))
  | .keySignature fifths mode =>
    some (.metaEvent MetaKind.keySignature.number [(fifths % 256).toNat.toUInt8, mode.flag.toUInt8])
  | .timeSignature beats power =>
    some (.metaEvent MetaKind.timeSignature.number [beats.toUInt8, power.toUInt8, 24, 8])
  | .pitchWheel low high => some (.bend channel low high)
  | .channelPressure p => some (.channelPressure channel p)
  | .polyPressure key p => some (.polyPressure channel key p)
  | .systemExclusive bytes => some (.systemExclusive bytes)
  | .controller number value => some (.control channel number value)
  | .lyric text => some (.metaEvent MetaKind.lyric.number (Text.utf8 text))
  | .marker text => some (.metaEvent MetaKind.marker.number (Text.utf8 text))
  | _ => none

theorem hear_written {s : Sequencer R} {event : Event R} {e : SequenceEvent}
    (h : written? s.channel event = some e) :
    s.hear event = (s, [s.emitAt s.timeline.time e]) := by
  cases event with
  | instrument | tempo | keySignature | timeSignature | pitchWheel | channelPressure
  | polyPressure | systemExclusive | controller | lyric | marker =>
    simp only [written?, Option.some.injEq] at h
    subst h
    rfl
  | _ => simp [written?] at h

theorem hearAll_written (s : Sequencer R) {events : List (Event R)}
    (h : ∀ event ∈ events, (written? s.channel event).isSome) :
    s.hearAll events =
      (s, (events.filterMap (written? s.channel)).map (s.emitAt s.timeline.time)) := by
  induction events with
  | nil => rfl
  | cons event rest ih =>
    obtain ⟨e, he⟩ := Option.isSome_iff_exists.mp (h event List.mem_cons_self)
    simp only [hearAll, hear_written he, ih fun event hm => h event (List.mem_cons_of_mem _ hm),
      List.filterMap_cons_some he]
    rfl

/-- The call that adds an event to the current track. -/
def addition (channel : Nat) (e : TimedEvent) : SinkCall := .addEvent channel e.tick e.event

theorem emitAt_eq_addition (s : Sequencer R) (beats : R) (event : SequenceEvent) :
    s.emitAt beats event = addition s.channel ⟨s.tick beats, event⟩ := rfl

end Sequencer

namespace Replay

open Sequencer

/-- A note as it is played again, first or among others. -/
def sounding (resolution : Nat) (isFirst : Bool) (n : SequencedNote) : Note Rat :=
  { ((Note.ofValue n.note).withLength (Tick.toBeats n.length resolution)).withVelocities
      n.attack n.decay with isFirst := isFirst, isHarmonic := !isFirst }

theorem noteEvents_cons (resolution : Nat) (n : SequencedNote) (rest : List SequencedNote) :
    (noteEvents resolution (n :: rest) : List (Event Rat)) =
      .note (sounding resolution true n) :: rest.map fun n => .note (sounding resolution false n) := by
  have hrest : ∀ (rest : List SequencedNote) (k : Nat),
      (rest.zipIdx (k + 1)).map (fun x => Event.note
        { ((Note.ofValue x.1.note).withLength (Tick.toBeats x.1.length resolution)).withVelocities
          x.1.attack x.1.decay with isFirst := x.2 == 0, isHarmonic := x.2 != 0 }) =
        rest.map fun n => .note (sounding resolution false n) := by
    intro rest
    induction rest with
    | nil => intro k; rfl
    | cons n rest ih =>
      intro k
      rw [List.zipIdx_cons, List.map_cons, List.map_cons, ih]
      rfl
  rw [noteEvents, List.zipIdx_cons, List.map_cons]
  exact congrArg _ (hrest rest 0)

/-- A note that ends after it begins, in numbers that a note can have. -/
structure Playable (n : SequencedNote) : Prop where
  lasts : n.start < n.finish
  note : n.note ≤ maxData
  attack : n.attack ≤ maxData
  decay : n.decay ≤ maxData

def strokes (channel : Nat) (n : SequencedNote) : List TimedEvent :=
  [⟨n.start, .noteOn channel n.note n.attack⟩, ⟨n.finish, .noteOff channel n.note n.decay⟩]

theorem hear_sounding {s : Sequencer Rat} {c : Cursor Rat} {n : SequencedNote} {isFirst : Bool}
    (hr : 0 < s.resolution) (hn : Playable n)
    (hstart : (c.approach (sounding s.resolution isFirst n)).time =
      Tick.toBeats n.start s.resolution) :
    (s.withCursor c).hear (.note (sounding s.resolution isFirst n)) =
      (s.withCursor ((c.approach (sounding s.resolution isFirst n)).advance
        (Tick.toBeats n.length s.resolution)), (strokes s.channel n).map (addition s.channel)) := by
  have hlast := hn.lasts
  have hlength : Timeline.lengthOf (sounding s.resolution isFirst n) s.noteLength =
      Tick.toBeats n.length s.resolution :=
    if_pos (Tick.toBeats_pos hr (by simp only [SequencedNote.length]; omega))
  have hfinish : (Tick.toBeats n.start s.resolution : Rat) + Tick.toBeats n.length s.resolution =
      Tick.toBeats n.finish s.resolution := by
    rw [Tick.toBeats_add, SequencedNote.length, Nat.add_sub_cancel' (Nat.le_of_lt hlast)]
  have hon : (s.withCursor c).tick (Tick.toBeats n.start s.resolution) = n.start :=
    Tick.ofBeats_toBeats hr _
  have hoff : (s.withCursor c).tick (Tick.toBeats n.finish s.resolution) = n.finish :=
    Tick.ofBeats_toBeats hr _
  have hplace : (s.timeline.withCursor c).place (sounding s.resolution isFirst n)
      (Tick.toBeats n.length s.resolution) =
      (s.timeline.withCursor ((c.approach (sounding s.resolution isFirst n)).advance
        (Tick.toBeats n.length s.resolution)),
        ⟨some (Tick.toBeats n.start s.resolution), some (Tick.toBeats n.finish s.resolution),
          Tick.toBeats n.start s.resolution, Tick.toBeats n.finish s.resolution⟩) := by
    simp only [Timeline.place, Timeline.cursor_withCursor, Timeline.withCursor_withCursor,
      Cursor.advance, hstart, hfinish]
    rfl
  simp only [hear, playNote, timeline_withCursor]
  rw [show (s.withCursor c).noteLength = s.noteLength from rfl, hlength, hplace]
  simp only [Option.map_some, Option.toList_some, emitAt_eq_addition, List.singleton_append]
  have hvalue : (sounding s.resolution isFirst n).value = n.note := Nat.min_eq_left hn.note
  have hattack : (sounding s.resolution isFirst n).attack = n.attack := Nat.min_eq_left hn.attack
  have hdecay : (sounding s.resolution isFirst n).decay = n.decay := Nat.min_eq_left hn.decay
  simp only [hvalue, hattack, hdecay, hon, hoff]
  rfl

/-- A cursor at a tick, with nothing sounding beyond it. -/
structure Settled (resolution tick : Nat) (c : Cursor Rat) : Prop where
  time : c.time = Tick.toBeats tick resolution
  groupEnd : c.groupEnd ≤ Tick.toBeats tick resolution

theorem Settled.approach {resolution tick : Nat} {c : Cursor Rat} (h : Settled resolution tick c)
    (n : SequencedNote) :
    c.approach (sounding resolution true n) = .atTime (Tick.toBeats tick resolution) := by
  simp only [Cursor.approach, sounding, Bool.not_true, if_true, Bool.false_eq_true, if_false,
    Scalar.max_rat, h.time, max_eq_left h.groupEnd]

theorem Settled.advance {resolution tick more : Nat} {c : Cursor Rat}
    (htime : c.time = Tick.toBeats tick resolution)
    (hend : c.groupEnd ≤ Tick.toBeats (tick + more) resolution) :
    Settled resolution (tick + more) (c.advance (Tick.toBeats more resolution)) := by
  refine ⟨?_, ?_⟩
  · simp only [Cursor.advance, htime, Tick.toBeats_add]
  · simp only [Cursor.advance, htime, Tick.toBeats_add, Scalar.max_rat]
    exact max_le hend (le_refl _)

theorem settled_atTime (resolution tick : Nat) :
    Settled resolution tick (.atTime (Tick.toBeats tick resolution)) := ⟨rfl, le_refl _⟩

/-- A rest or a request takes the cursor to any tick, and writes nothing. -/
theorem hear_approach {s : Sequencer Rat} {c : Cursor Rat} {cursor : Nat} (hr : 0 < s.resolution)
    (h : Settled s.resolution cursor c) (tick : Nat) :
    ∃ d, Settled s.resolution tick d ∧
      (s.withCursor c).hearAll (approach s.resolution cursor tick) = (s.withCursor d, []) := by
  simp only [approach]
  split
  · rename_i hlt
    refine ⟨(Cursor.atTime (Tick.toBeats cursor s.resolution)).advance
      (Tick.toBeats (tick - cursor) s.resolution), ?_, ?_⟩
    · have hend : (Cursor.atTime (Tick.toBeats cursor s.resolution)).groupEnd ≤
          (Tick.toBeats (cursor + (tick - cursor)) s.resolution : Rat) := Tick.toBeats_le (by omega)
      have hnext := Settled.advance rfl hend
      rwa [Nat.add_sub_cancel' (Nat.le_of_lt hlt)] at hnext
    · have hlength : Timeline.lengthOf
          { Note.rest (Tick.toBeats (tick - cursor) s.resolution) with isFirst := true }
          s.noteLength = (Tick.toBeats (tick - cursor) s.resolution : Rat) :=
        if_pos (Tick.toBeats_pos hr (by omega))
      have hreach : c.approach
          { Note.rest (Tick.toBeats (tick - cursor) s.resolution) with isFirst := true } =
            .atTime (Tick.toBeats cursor s.resolution) := by
        simp only [Cursor.approach, if_true, Scalar.max_rat, h.time, max_eq_left h.groupEnd]
        rfl
      simp only [hearAll, hear, playNote, timeline_withCursor, Timeline.place,
        Timeline.cursor_withCursor, Timeline.withCursor_withCursor]
      rw [show (s.withCursor c).noteLength = s.noteLength from rfl, hlength, hreach]
      rfl
  · split
    · rename_i hlt
      refine ⟨_, settled_atTime s.resolution tick, ?_⟩
      simp [hearAll, hear, Timeline.setTime, withCursor]
    · have : cursor = tick := by omega
      subst this
      exact ⟨c, h, rfl⟩

/-- The notes of a group behind its first. -/
theorem hear_harmonic {s : Sequencer Rat} {tick : Nat} (hr : 0 < s.resolution)
    {ns : List SequencedNote} (hn : ∀ n ∈ ns, Playable n ∧ n.start = tick)
    {cursor : Nat} (hsorted : SortedBy SequencedNote.finish ns)
    (hlast : ∀ n ∈ ns, cursor ≤ n.finish) {c : Cursor Rat} (h : Settled s.resolution cursor c)
    (hanchor : c.anchor = Tick.toBeats tick s.resolution) :
    ∃ d, Settled s.resolution ((ns.getLast?.map SequencedNote.finish).getD cursor) d ∧
      (s.withCursor c).hearAll (ns.map fun n => .note (sounding s.resolution false n)) =
        (s.withCursor d, (ns.flatMap (strokes s.channel)).map (addition s.channel)) := by
  induction ns generalizing cursor c with
  | nil => exact ⟨c, h, rfl⟩
  | cons n rest ih =>
    obtain ⟨hplay, hstart⟩ := hn n List.mem_cons_self
    obtain ⟨hfirst, hrest⟩ := List.pairwise_cons.mp hsorted
    have hlasts := hplay.lasts
    have happroach : c.approach (sounding s.resolution false n) = { c with time := c.anchor } := rfl
    have hlength : n.start + n.length = n.finish := by
      simp only [SequencedNote.length]
      omega
    have hnext : Settled s.resolution n.finish
        (({ c with time := c.anchor } : Cursor Rat).advance
          (Tick.toBeats n.length s.resolution)) := by
      rw [← hlength]
      refine Settled.advance (by rw [hstart]; exact hanchor) (le_trans h.groupEnd ?_)
      exact Tick.toBeats_le (by rw [hlength]; exact hlast n List.mem_cons_self)
    obtain ⟨d, hd, hheard⟩ := ih (fun m hm => hn m (List.mem_cons_of_mem n hm)) hrest hfirst hnext
      hanchor
    refine ⟨d, ?_, ?_⟩
    · rw [List.getLast?_cons]
      cases hl : rest.getLast? with
      | none => simpa [hl] using hd
      | some m => simpa [hl] using hd
    · rw [List.map_cons, hearAll, hear_sounding hr hplay (by rw [happroach, hstart]; exact hanchor),
        happroach]
      simp only [hheard, List.flatMap_cons, List.map_append]

/-- The tick on which what a group starts has ended. -/
def Group.finish (g : Group) : Nat := (g.notes.getLast?.map SequencedNote.finish).getD g.tick

/-- What is written for a group. -/
def Group.retold (channel : Nat) (g : Group) : List TimedEvent :=
  ((g.events.flatMap eventsOf : List (Event Rat)).filterMap (written? channel)).map
    (fun event => ⟨g.tick, event⟩) ++ g.notes.flatMap (strokes channel)

structure Group.Playable (g : Group) : Prop where
  notes : ∀ n ∈ g.notes, Replay.Playable n ∧ n.start = g.tick
  sorted : SortedBy SequencedNote.length g.notes

theorem Group.Playable.sortedBy_finish {g : Group} (h : g.Playable) :
    SortedBy SequencedNote.finish g.notes := by
  refine h.sorted.imp_of_mem fun ha hb hab => ?_
  obtain ⟨⟨ha', -, -, -⟩, hastart⟩ := h.notes _ ha
  obtain ⟨⟨hb', -, -, -⟩, hbstart⟩ := h.notes _ hb
  simp only [SequencedNote.length] at hab
  omega

theorem written_metaEvents (channel kind : Nat) (data : List UInt8) :
    ∀ event ∈ (metaEvents kind data : List (Event Rat)),
      ∃ kind data, written? channel event = some (.metaEvent kind data) := by
  intro event h
  unfold metaEvents at h
  repeat' split at h
  all_goals
    first
    | rw [List.mem_singleton] at h
      subst h
      exact ⟨_, _, rfl⟩
    | cases h

/-- Everything that a replay fires between approaching a tick and its notes is written at once. -/
theorem written_eventsOf (channel : Nat) (e : SequenceEvent) :
    ∀ event ∈ (eventsOf e : List (Event Rat)), (written? channel event).isSome := by
  intro event h
  cases e with
  | metaEvent kind data =>
    obtain ⟨k, d, hw⟩ := written_metaEvents channel kind data event h
    rw [hw]
    rfl
  | noteOn | noteOff => cases h
  | program | control | bend | channelPressure | polyPressure | systemExclusive =>
    rw [eventsOf, List.mem_singleton] at h
    subst h
    rfl

theorem hear_notes {s : Sequencer Rat} (hr : 0 < s.resolution) {g : Group} (hg : g.Playable)
    {c : Cursor Rat} (h : Settled s.resolution g.tick c) :
    ∃ d, Settled s.resolution g.finish d ∧
      (s.withCursor c).hearAll (noteEvents s.resolution g.notes) =
        (s.withCursor d, (g.notes.flatMap (strokes s.channel)).map (addition s.channel)) := by
  have hall := hg.notes
  have hsorted := hg.sortedBy_finish
  simp only [Group.finish]
  cases hns : g.notes with
  | nil => exact ⟨c, h, rfl⟩
  | cons n rest =>
    rw [hns] at hall hsorted
    obtain ⟨hplay, hstart⟩ := hall n List.mem_cons_self
    obtain ⟨hfirst, hrest⟩ := List.pairwise_cons.mp hsorted
    have hlasts := hplay.lasts
    have hlength : g.tick + n.length = n.finish := by
      simp only [SequencedNote.length]
      omega
    have happroach := h.approach n
    have hnext : Settled s.resolution n.finish
        ((Cursor.atTime (Tick.toBeats g.tick s.resolution)).advance
          (Tick.toBeats n.length s.resolution)) := by
      rw [← hlength]
      exact Settled.advance rfl (Tick.toBeats_le (Nat.le_add_right _ _))
    obtain ⟨d, hd, hheard⟩ := hear_harmonic hr
      (fun m hm => hall m (List.mem_cons_of_mem n hm)) hrest hfirst hnext rfl
    refine ⟨d, ?_, ?_⟩
    · rw [List.getLast?_cons]
      cases hl : rest.getLast? with
      | none => simpa [hl] using hd
      | some m => simpa [hl] using hd
    · rw [noteEvents_cons, hearAll, hear_sounding hr hplay (by rw [happroach, hstart]; rfl),
        happroach]
      simp only [hheard, List.flatMap_cons, List.map_append]

theorem hear_group {s : Sequencer Rat} (hr : 0 < s.resolution) {g : Group} (hg : g.Playable)
    {cursor : Nat} {c : Cursor Rat} (h : Settled s.resolution cursor c) :
    ∃ d, Settled s.resolution g.finish d ∧
      (s.withCursor c).hearAll (approach s.resolution cursor g.tick ++ g.events.flatMap eventsOf ++
        noteEvents s.resolution g.notes) =
        (s.withCursor d, (g.retold s.channel).map (addition s.channel)) := by
  obtain ⟨c', hc', happroach⟩ := hear_approach hr h g.tick
  obtain ⟨d, hd, hnotes⟩ := hear_notes hr hg hc'
  have hwritten : ∀ event ∈ (g.events.flatMap eventsOf : List (Event Rat)),
      (written? (s.withCursor c').channel event).isSome := by
    intro event hm
    obtain ⟨e, -, he⟩ := List.mem_flatMap.mp hm
    exact written_eventsOf _ e event he
  have htick : ∀ event, (s.withCursor c').emitAt (s.withCursor c').timeline.time event =
      addition s.channel ⟨g.tick, event⟩ := by
    intro event
    rw [emitAt_eq_addition, channel_withCursor, tick, resolution_withCursor, timeline_withCursor,
      Timeline.time, Timeline.cursor_withCursor, hc'.time, Tick.ofBeats_toBeats hr]
  refine ⟨d, hd, ?_⟩
  rw [hearAll_append, hearAll_append, happroach, hearAll_written _ hwritten, hnotes]
  simp only [Group.retold, List.map_append, List.map_map, List.nil_append, channel_withCursor]
  congr 2
  exact List.map_congr_left fun event _ => htick event

/-- The groups of a track are written one after another, whatever their order in time. -/
theorem hear_groups {s : Sequencer Rat} (hr : 0 < s.resolution) {gs : List Group}
    (hgs : ∀ g ∈ gs, g.Playable) {cursor : Nat} {c : Cursor Rat}
    (h : Settled s.resolution cursor c) :
    ∃ d, (s.withCursor c).hearAll (groupEvents s.resolution cursor gs) =
      (s.withCursor d, (gs.flatMap (Group.retold s.channel)).map (addition s.channel)) := by
  induction gs generalizing cursor c with
  | nil => exact ⟨c, rfl⟩
  | cons g rest ih =>
    have hg := hgs g List.mem_cons_self
    obtain ⟨d, hd, hheard⟩ := hear_group hr hg h
    obtain ⟨d', hrest⟩ := ih (fun a ha => hgs a (List.mem_cons_of_mem g ha)) hd
    have hsorted : (g.notes.mergeSort fun a b => a.length ≤ b.length) = g.notes :=
      mergeSort_of_sortedBy hg.sorted
    refine ⟨d', ?_⟩
    simp only [groupEvents, hsorted]
    rw [hearAll_append, hheard]
    simp only [Group.finish] at hrest
    simp only [hrest, List.flatMap_cons, List.map_append]

end Replay

end ScoreText
