import ScoreText.Proofs.Sequence.RoundTrip
import ScoreText.Proofs.Timeline.Reach

/-!
How a recording ends. Every track that exists gets one end, at the latest time that the cursors of
the track have come to; what was written at later times, before a request took the track back, stays
behind that end.
-/

set_option autoImplicit false

namespace ScoreText

open Stable Sequence

namespace Sequence

theorem insertEvent_of_forall_le {e : TimedEvent} {l : List TimedEvent}
    (h : ∀ f ∈ l, f.tick ≤ e.tick) : insertEvent e l = l ++ [e] := by
  induction l with
  | nil => rfl
  | cons g rest ih =>
    obtain ⟨hg, hrest⟩ := List.forall_mem_cons.mp h
    rw [insertEvent, if_pos hg, ih hrest, List.cons_append]

theorem filter_insertEvent_of_none {p : TimedEvent → Bool} {e : TimedEvent} {l : List TimedEvent}
    (he : p e = true) (h : ∀ f ∈ l, p f = false) : (insertEvent e l).filter p = [e] := by
  induction l with
  | nil => simp [insertEvent, he]
  | cons g rest ih =>
    obtain ⟨hg, hrest⟩ := List.forall_mem_cons.mp h
    simp only [insertEvent]
    split
    · rw [List.filter_cons, if_neg (by simp [hg]), ih hrest]
    · have hnone : (g :: rest).filter p = [] := by
        rw [List.filter_eq_nil_iff]
        intro f hf
        simp [h f hf]
      rw [List.filter_cons, if_pos he, hnone]

theorem Sorted.le_getLast {l : List TimedEvent} (h : Sorted l) {e : TimedEvent}
    (he : l.getLast? = some e) : ∀ f ∈ l, f.tick ≤ e.tick := by
  obtain ⟨front, rfl⟩ := List.getLast?_eq_some_iff.mp he
  obtain ⟨-, -, hcross⟩ := List.pairwise_append.mp h
  intro f hf
  rcases List.mem_append.mp hf with hf | hf
  · exact hcross f hf e (List.mem_singleton_self e)
  · rw [List.mem_singleton.mp hf]

/-- An event is put last just when nothing on the track comes after it. -/
theorem getLast?_insertEvent_iff {e : TimedEvent} {l : List TimedEvent} (h : Sorted l) :
    (insertEvent e l).getLast? = some e ↔ ∀ f ∈ l, f.tick ≤ e.tick := by
  constructor
  · intro hlast f hf
    exact (h.insertEvent e).le_getLast hlast f (mem_insertEvent.mpr (.inr hf))
  · intro hle
    rw [insertEvent_of_forall_le hle, List.getLast?_concat]

end Sequence

/-- The track that a call is about. -/
def SinkCall.track : SinkCall → Nat
  | .createTrack n => n
  | .addEvent track _ _ => track

namespace Sequence

theorem length_obey (s : Sequence) (call : SinkCall) :
    (s.obey call).tracks.length = max s.tracks.length (call.track + 1) := by
  cases call <;>
    simp only [obey, createTrack, addEvent, SinkCall.track, List.length_append,
      List.length_replicate, List.length_modify] <;> omega

theorem length_obeyAll_of_lt {s : Sequence} {calls : List SinkCall}
    (h : ∀ call ∈ calls, call.track < s.tracks.length) :
    (s.obeyAll calls).tracks.length = s.tracks.length := by
  simp only [obeyAll]
  induction calls generalizing s with
  | nil => rfl
  | cons call rest ih =>
    obtain ⟨hcall, hrest⟩ := List.forall_mem_cons.mp h
    have hlength : (s.obey call).tracks.length = s.tracks.length := by
      rw [length_obey]
      omega
    rw [List.foldl_cons, ih (by rwa [hlength]), hlength]

/-- Creating the tracks that are missing leaves none out. -/
theorem length_obeyAll_range' (s : Sequence) (count : Nat) :
    (s.obeyAll ((List.range' s.tracks.length count).map .createTrack)).tracks.length =
      s.tracks.length + count := by
  induction count generalizing s with
  | zero => rfl
  | succ count ih =>
    have hlength : (s.obey (.createTrack s.tracks.length)).tracks.length = s.tracks.length + 1 := by
      rw [length_obey, SinkCall.track]
      omega
    have hrest := ih (s.obey (.createTrack s.tracks.length))
    rw [hlength] at hrest
    rw [List.range'_succ, List.map_cons]
    simp only [obeyAll, List.foldl_cons] at hrest ⊢
    rw [hrest]
    omega

end Sequence

namespace Timeline

variable {R : Type}

/-- How many tracks there are by now. -/
def trackCount (t : Timeline R) : Nat := (t.lastCreated.map fun s => s.val + 1).getD 0

theorem createdTracks_eq (t : Timeline R) : t.createdTracks = List.range t.trackCount := by
  unfold createdTracks trackCount
  cases t.lastCreated <;> rfl

theorem trackCount_setTrack (t : Timeline R) (n : Nat) :
    (t.setTrack n).1.trackCount = t.trackCount + (t.setTrack n).2.length ∧
      (t.setTrack n).2 = List.range' t.trackCount (t.setTrack n).2.length ∧
      (t.setTrack n).1.track.val < (t.setTrack n).1.trackCount := by
  obtain ⟨first, hfirst⟩ : ∃ first, t.trackCount = first := ⟨_, rfl⟩
  obtain ⟨slot, hslot⟩ : ∃ slot, Slot.ofNat n = slot := ⟨_, rfl⟩
  have hcreated : (t.setTrack n).2 = List.range' first (slot.val + 1 - first) := by
    rw [← hfirst, ← hslot]
    rfl
  have hcount : (t.setTrack n).1.trackCount =
      if slot.val + 1 - first = 0 then first else slot.val + 1 := by
    have hempty : (t.setTrack n).2.isEmpty = decide (slot.val + 1 - first = 0) := by
      rw [hcreated, Bool.eq_iff_iff]
      simp
    simp only [setTrack, hslot] at hempty
    simp only [trackCount, setTrack, hslot, hempty]
    by_cases h : slot.val + 1 - first = 0
    · simp only [h, decide_true, if_true]
      exact hfirst
    · simp only [h, decide_false, Bool.false_eq_true, if_false]
      rfl
  have htrack : (t.setTrack n).1.track = slot := hslot
  rw [hcount, hcreated, List.length_range', htrack, hfirst]
  refine ⟨?_, rfl, ?_⟩ <;> split <;> omega

end Timeline

namespace Sequencer

variable {R : Type}

theorem isEndOfTrack_written {channel : Nat} {event : Event R} {e : SequenceEvent}
    (h : written? channel event = some e) : e.isEndOfTrack = false := by
  cases event with
  | instrument | tempo | keySignature | timeSignature | pitchWheel | channelPressure
  | polyPressure | systemExclusive | controller | lyric | marker =>
    simp only [written?, Option.some.injEq] at h
    subst h
    rfl
  | _ => simp [written?] at h

variable [Scalar R]

theorem playNotes_fst (s : Sequencer R) (ns : List (Note R)) :
    (s.playNotes ns).1 = s.withCursor (s.timeline.cursor.pass s.noteLength ns) := by
  induction ns generalizing s with
  | nil => exact s.withCursor_cursor.symm
  | cons n rest ih =>
    have hrest := ih (s.playNote n).1
    have hstep : (s.playNote n).1 = s.withCursor ((s.timeline.cursor.approach n).advance
        (Timeline.lengthOf n s.noteLength)) := rfl
    rw [hstep, withCursor_withCursor, timeline_withCursor, Timeline.cursor_withCursor] at hrest
    exact hrest

theorem hear_chord_fst (s : Sequencer R) (c : Chord R) :
    (s.hear (.chord c)).1 = s.withCursor (s.timeline.cursor.pass s.noteLength c.notes) :=
  playNotes_fst s c.notes

/-- The times at which an event is written. -/
def times (s : Sequencer R) : Event R → List R
  | .note n => (s.timeline.placements s.noteLength [n]).flatMap fun p => [p.start, p.finish]
  | .chord c => (s.timeline.placements s.noteLength c.notes).flatMap fun p => [p.start, p.finish]
  | event => if (written? s.channel event).isSome then [s.timeline.time] else []

theorem times_written {s : Sequencer R} {event : Event R} {e : SequenceEvent}
    (h : written? s.channel event = some e) : s.times event = [s.timeline.time] := by
  cases event with
  | note | chord => simp [written?] at h
  | _ => simp [times, h]

/-- A call that adds to the current track, at one of these times, something that is no end. -/
def Writes (s : Sequencer R) (times : List R) (call : SinkCall) : Prop :=
  ∃ time ∈ times, ∃ e, call = s.emitAt time e ∧ e.isEndOfTrack = false

theorem writes_sounds (s : Sequencer R) (n : Note R) (start finish : R) :
    ∀ call ∈ s.sounds n start finish, s.Writes [start, finish] call := by
  intro call hc
  simp only [sounds, List.mem_append] at hc
  rcases hc with hc | hc <;> split at hc
  · cases hc
  · rw [List.mem_singleton.mp hc]
    exact ⟨start, List.mem_cons_self, _, rfl, rfl⟩
  · cases hc
  · rw [List.mem_singleton.mp hc]
    exact ⟨finish, List.mem_cons_of_mem _ List.mem_cons_self, _, rfl, rfl⟩

theorem writes_playNotes (s : Sequencer R) (ns : List (Note R)) :
    ∀ call ∈ (s.playNotes ns).2, s.Writes
      ((s.timeline.placements s.noteLength ns).flatMap fun p => [p.start, p.finish]) call := by
  induction ns generalizing s with
  | nil => exact fun call hc => nomatch hc
  | cons n rest ih =>
    intro call hc
    have hc : call ∈ (s.playNote n).2 ++ ((s.playNote n).1.playNotes rest).2 := hc
    rcases List.mem_append.mp hc with hc | hc
    · rw [playNote_eq] at hc
      obtain ⟨time, htime, hwrites⟩ := writes_sounds s n _ _ call hc
      exact ⟨time, List.mem_append_left _ htime, hwrites⟩
    · obtain ⟨time, htime, hwrites⟩ := ih (s.playNote n).1 call hc
      exact ⟨time, List.mem_append_right _ htime, hwrites⟩

/-- All that an event asks of the sink: to create tracks, or to add to the current track what is no
end. -/
theorem writes_hear (s : Sequencer R) (event : Event R) :
    ∀ call ∈ (s.hear event).2,
      (∃ n m, event = .track n ∧ call = .createTrack m) ∨ s.Writes (s.times event) call := by
  intro call hc
  cases hw : written? s.channel event with
  | some e =>
    rw [hear_written hw, List.mem_singleton] at hc
    rw [times_written hw]
    exact .inr ⟨_, List.mem_singleton_self _, e, hc, isEndOfTrack_written hw⟩
  | none =>
    cases event with
    | track n =>
      obtain ⟨m, -, rfl⟩ := List.mem_map.mp hc
      exact .inl ⟨n, m, rfl, rfl⟩
    | note n =>
      refine .inr (writes_playNotes s [n] call ?_)
      exact List.mem_append_left _ hc
    | chord c => exact .inr (writes_playNotes s c.notes call hc)
    | instrument | tempo | keySignature | timeSignature | pitchWheel | channelPressure
    | polyPressure | systemExclusive | controller | lyric | marker => cases hw
    | _ => cases hc

@[simp] theorem resolution_hear (s : Sequencer R) (event : Event R) :
    (s.hear event).1.resolution = s.resolution := by
  cases event with
  | chord c =>
    rw [hear_chord_fst]
    rfl
  | _ => rfl

/-- Nothing else changes the track, nor brings tracks into being. -/
theorem track_hear (s : Sequencer R) {event : Event R} (h : ∀ n, event ≠ .track n) :
    (s.hear event).1.timeline.track = s.timeline.track ∧
      (s.hear event).1.timeline.lastCreated = s.timeline.lastCreated := by
  cases event with
  | track n => exact absurd rfl (h n)
  | bookmarkRequest name =>
    simp only [hear, Timeline.jump, Timeline.jump?]
    cases s.timeline.bookmark? name <;> exact ⟨rfl, rfl⟩
  | chord c =>
    rw [hear_chord_fst]
    exact ⟨rfl, rfl⟩
  | _ => exact ⟨rfl, rfl⟩

theorem finished_hear (s : Sequencer R) (event : Event R) :
    (s.hear event).1.finished = s.finished := by
  cases event with
  | chord c =>
    rw [hear_chord_fst]
    rfl
  | _ => rfl

end Sequencer

/-- A request for a time or for a bookmark. -/
def Event.isRequest {R : Type} : Event R → Bool
  | .timeRequest _ | .bookmarkRequest _ => true
  | _ => false

namespace Sequencer

variable {R : Type} [Scalar R] {s : Sequencer R}

/-- Whatever is written lies within the reach of the cursor. -/
theorem times_le (laws : Scalar.Ordered R) (h : s.timeline.cursor.Enclosed) (event : Event R) :
    ∀ time ∈ s.times event, time ≤ (s.hear event).1.timeline.cursor.groupEnd := by
  have hplaced : ∀ ns : List (Note R),
      ∀ time ∈ (s.timeline.placements s.noteLength ns).flatMap fun p => [p.start, p.finish],
        time ≤ (s.playNotes ns).1.timeline.cursor.groupEnd := by
    intro ns time htime
    obtain ⟨p, hp, hm⟩ := List.mem_flatMap.mp htime
    obtain ⟨hstart, hfinish⟩ := Timeline.placements_le laws s.noteLength h ns p hp
    rw [playNotes_fst, timeline_withCursor, Timeline.cursor_withCursor]
    rcases List.mem_cons.mp hm with rfl | hm
    · exact hstart
    · rw [List.mem_singleton.mp hm]
      exact hfinish
  intro time htime
  cases hw : written? s.channel event with
  | some e =>
    rw [times_written hw, List.mem_singleton] at htime
    rw [hear_written hw, htime]
    exact h.time
  | none =>
    cases event with
    | note n => exact hplaced [n] time htime
    | chord c => exact hplaced c.notes time htime
    | _ => simp [times, hw] at htime

/-- Only a request takes a track back. -/
theorem latest_le_hear (laws : Scalar.Ordered R) (h : s.timeline.cursor.Enclosed) {event : Event R}
    (hevent : event.isRequest = false) (n : Nat) :
    s.timeline.latest n ≤ (s.hear event).1.timeline.latest n := by
  have hplaced : ∀ ns : List (Note R),
      s.timeline.latest n ≤ (s.playNotes ns).1.timeline.latest n := by
    intro ns
    rw [playNotes_fst]
    refine Timeline.latest_le_withCursor laws (laws.trans (h.latest_le laws) ?_)
    exact laws.trans (h.pass laws s.noteLength ns).2 (Cursor.groupEnd_le_latest laws _)
  cases event with
  | note m => exact hplaced [m]
  | chord c => exact hplaced c.notes
  | timeRequest | bookmarkRequest => cases hevent
  | _ => exact laws.refl _

/-- What is added to a track lies no later than the track has come. -/
theorem added_hear_le (laws : Scalar.Ordered R) (h : s.timeline.cursor.Enclosed) (event : Event R)
    (n : Nat) : ∀ e ∈ added n (s.hear event).2,
      e.tick ≤ (s.hear event).1.tick ((s.hear event).1.timeline.latest n) := by
  intro e he
  obtain ⟨call, hcall, hadded⟩ := List.mem_filterMap.mp he
  rcases s.writes_hear event call hcall with ⟨m, k, -, rfl⟩ | ⟨time, htime, event', rfl, -⟩
  · cases hadded
  · simp only [emitAt] at hadded
    split at hadded
    · rename_i hn
      rw [← Option.some.inj hadded]
      have hbound := times_le laws h event time htime
      have htrack : (s.hear event).1.timeline.track.val = n := by
        rw [(s.track_hear fun m hm => ?_).1]
        · exact hn
        · rw [hm] at htime
          cases htime
      have hreach := Timeline.groupEnd_le_latest laws (s.hear event).1.timeline
      rw [htrack] at hreach
      simp only [tick, resolution_hear]
      exact laws.ofBeats_mono s.resolution (laws.trans hbound hreach)
    · cases hadded

end Sequencer

namespace Sequence

theorem mem_track_obeyAll {s : Sequence} {calls : List SinkCall} {n : Nat} {e : TimedEvent} :
    e ∈ (s.obeyAll calls).track n ↔ e ∈ s.track n ∨ e ∈ added n calls := by
  rw [track_obeyAll]
  induction added n calls using List.reverseRecOn with
  | nil => simp
  | append_singleton es f ih =>
    rw [List.foldl_append, List.foldl_cons, List.foldl_nil, mem_insertEvent, ih, List.mem_append,
      List.mem_singleton]
    tauto

theorem added_range (count : Nat) (tick : Nat → Nat) (event : SequenceEvent) (n : Nat) :
    added n ((List.range count).map fun track => .addEvent track (tick track) event) =
      if n < count then [⟨tick n, event⟩] else [] := by
  induction count with
  | zero => rfl
  | succ count ih =>
    rw [List.range_succ, List.map_append, added_append, ih]
    by_cases hlt : n < count
    · simp [added, hlt, Nat.lt_succ_of_lt hlt, Nat.ne_of_gt hlt]
    · by_cases heq : count = n
      · subst heq
        simp [added]
      · have hbeyond : ¬ n < count + 1 := by omega
        simp [added, hlt, hbeyond, heq]

end Sequence

namespace Recorder

variable {R : Type} [Scalar R]

/-- A recorder that has heard events from its start. -/
def heard (resolution : Nat) (noteLength : R) (events : List (Event R)) : Recorder R :=
  events.foldl hear (start resolution noteLength)

theorem heard_append_singleton (resolution : Nat) (noteLength : R) (events : List (Event R))
    (event : Event R) :
    heard resolution noteLength (events ++ [event]) =
      (heard resolution noteLength events).hear event := by
  simp [heard]

/-- What holds of a recorder until it is ended: it has as many tracks as its sequencer knows of, the
current one among them, and none of them has an end. -/
structure Running (r : Recorder R) : Prop where
  unfinished : r.sequencer.finished = false
  tracks : r.sequence.tracks.length = r.sequencer.timeline.trackCount
  current : r.sequencer.channel < r.sequence.tracks.length
  endless : ∀ n, ∀ e ∈ r.sequence.track n, e.event.isEndOfTrack = false

/-- There is nothing on the tracks at first. -/
theorem not_mem_track_start (resolution : Nat) (noteLength : R) (n : Nat) (e : TimedEvent) :
    e ∉ (start resolution noteLength).sequence.track n := by
  intro he
  rcases mem_track_obeyAll.mp he with he | he
  · rw [track_ofResolution] at he
    cases he
  · rw [added_createTrack] at he
    cases he

theorem running_start (resolution : Nat) (noteLength : R) : (start resolution noteLength).Running where
  unfinished := rfl
  tracks := rfl
  current := Nat.zero_lt_one
  endless n e he := absurd he (not_mem_track_start resolution noteLength n e)

theorem Running.endless_hear {r : Recorder R} (h : r.Running) (event : Event R) (n : Nat) :
    ∀ e ∈ (r.hear event).sequence.track n, e.event.isEndOfTrack = false := by
  intro e he
  rcases mem_track_obeyAll.mp he with he | he
  · exact h.endless n e he
  · obtain ⟨call, hcall, hadded⟩ := List.mem_filterMap.mp he
    rcases r.sequencer.writes_hear event call hcall with ⟨m, k, -, rfl⟩ | ⟨time, -, written, rfl, hend⟩
    · cases hadded
    · simp only [Sequencer.emitAt] at hadded
      split at hadded
      · rw [← Option.some.inj hadded]
        exact hend
      · cases hadded

theorem Running.hear {r : Recorder R} (h : r.Running) (event : Event R) : (r.hear event).Running := by
  have hendless := h.endless_hear event
  have hunfinished : (r.hear event).sequencer.finished = false :=
    (r.sequencer.finished_hear event).trans h.unfinished
  by_cases htrack : ∃ n, event = .track n
  · obtain ⟨n, rfl⟩ := htrack
    obtain ⟨hcount, hcreated, hcurrent⟩ := r.sequencer.timeline.trackCount_setTrack n
    have hlength : (r.hear (.track n)).sequence.tracks.length =
        r.sequence.tracks.length + (r.sequencer.timeline.setTrack n).2.length := by
      have hcalls : (r.sequencer.hear (.track n)).2 =
          (List.range' r.sequence.tracks.length
            (r.sequencer.timeline.setTrack n).2.length).map .createTrack := by
        rw [h.tracks, ← hcreated]
        rfl
      rw [Recorder.hear, after, hcalls, length_obeyAll_range']
    rw [h.tracks, ← hcount] at hlength
    exact ⟨hunfinished, hlength, hlength ▸ hcurrent, hendless⟩
  · obtain ⟨hsame, hcreated⟩ := r.sequencer.track_hear fun n hn => htrack ⟨n, hn⟩
    have hlength : (r.hear event).sequence.tracks.length = r.sequence.tracks.length := by
      refine length_obeyAll_of_lt fun call hcall => ?_
      rcases r.sequencer.writes_hear event call hcall with ⟨n, -, hn, -⟩ | ⟨-, -, -, rfl, -⟩
      · exact absurd ⟨n, hn⟩ htrack
      · exact h.current
    refine ⟨hunfinished, ?_, ?_, hendless⟩
    · rw [hlength, h.tracks, Timeline.trackCount, ← hcreated]
      rfl
    · rw [hlength]
      exact (congrArg Fin.val hsame).trans_lt h.current

theorem running_heard (resolution : Nat) (noteLength : R) (events : List (Event R)) :
    (heard resolution noteLength events).Running := by
  induction events using List.reverseRecOn with
  | nil => exact running_start resolution noteLength
  | append_singleton events event ih =>
    rw [heard_append_singleton]
    exact ih.hear event

theorem enclosed_heard (laws : Scalar.Ordered R) (resolution : Nat) (noteLength : R)
    (events : List (Event R)) :
    (heard resolution noteLength events).sequencer.timeline.Everywhere Cursor.Enclosed := by
  rw [heard, foldl_hear]
  exact Sequencer.everywhere_run (Cursor.enclosed_lasting laws noteLength) _ events

/-- A request, somewhere along the events, that takes a track back from where it had come to. -/
def TakenBack (resolution : Nat) (noteLength : R) (events : List (Event R)) (n : Nat) : Prop :=
  ∃ before request later, events = before ++ request :: later ∧ request.isRequest = true ∧
    ¬ (heard resolution noteLength before).sequencer.timeline.latest n ≤
      (heard resolution noteLength (before ++ [request])).sequencer.timeline.latest n

/-- A track that is never taken back has nothing on it beyond where it has come to. -/
theorem takenBack_or_le (laws : Scalar.Ordered R) (resolution : Nat) (noteLength : R)
    (events : List (Event R)) (n : Nat) :
    TakenBack resolution noteLength events n ∨
      ∀ e ∈ (heard resolution noteLength events).sequence.track n,
        e.tick ≤ (heard resolution noteLength events).sequencer.tick
          ((heard resolution noteLength events).sequencer.timeline.latest n) := by
  induction events using List.reverseRecOn with
  | nil =>
    exact .inr fun e he => absurd he (not_mem_track_start resolution noteLength n e)
  | append_singleton events event ih =>
    rcases ih with ⟨before, request, later, hevents, hrequest, hback⟩ | hle
    · refine .inl ⟨before, request, later ++ [event], ?_, hrequest, hback⟩
      rw [hevents, List.append_assoc, List.cons_append]
    · have hcursor := enclosed_heard laws resolution noteLength events
      by_cases hforward : (heard resolution noteLength events).sequencer.timeline.latest n ≤
          (heard resolution noteLength (events ++ [event])).sequencer.timeline.latest n
      · rw [heard_append_singleton] at hforward ⊢
        refine .inr fun e he => ?_
        rcases mem_track_obeyAll.mp he with he | he
        · refine (hle e he).trans ?_
          simp only [Sequencer.tick, Recorder.hear, after, Sequencer.resolution_hear]
          exact laws.ofBeats_mono _ hforward
        · exact Sequencer.added_hear_le laws (hcursor _ _) event n e he
      · refine .inl ⟨events, event, [], rfl, ?_, hforward⟩
        by_contra hevent
        rw [heard_append_singleton] at hforward
        exact hforward (Sequencer.latest_le_hear laws (hcursor _ _) (by simpa using hevent) n)

/-- The end that a track gets. -/
def ending (r : Recorder R) (n : Nat) : TimedEvent :=
  ⟨r.sequencer.tick (r.sequencer.timeline.latest n), .metaEvent MetaKind.endOfTrack.number []⟩

theorem Running.finish {r : Recorder R} (h : r.Running) :
    r.finish.sequence.tracks.length = r.sequence.tracks.length ∧
      ∀ n < r.sequence.tracks.length,
        r.finish.sequence.track n = insertEvent (r.ending n) (r.sequence.track n) := by
  have hcalls : r.sequencer.finish.2 =
      (List.range r.sequence.tracks.length).map fun track =>
        .addEvent track (r.ending track).tick (.metaEvent MetaKind.endOfTrack.number []) := by
    rw [h.tracks, ← Timeline.createdTracks_eq]
    simp only [Sequencer.finish, h.unfinished, Bool.false_eq_true, if_false]
    rfl
  refine ⟨length_obeyAll_of_lt fun call hcall => ?_, fun n hn => ?_⟩
  · rw [hcalls] at hcall
    obtain ⟨track, htrack, rfl⟩ := List.mem_map.mp hcall
    exact List.mem_range.mp htrack
  · rw [Recorder.finish, after, track_obeyAll, hcalls, added_range, if_pos hn]
    rfl

/-- Whatever is heard, every track ends once, at the latest time it has come to. The end is the last
event of the track just when nothing on it lies later, as is the case unless a request has taken the
track back. -/
theorem ends_every_track (resolution : Nat) (noteLength : R) (events : List (Event R)) :
    let r := heard resolution noteLength events
    ∀ n < r.finish.sequence.tracks.length,
      (r.finish.sequence.track n).filter (fun e => e.event.isEndOfTrack) = [r.ending n] ∧
        ((r.finish.sequence.track n).getLast? = some (r.ending n) ↔
          ∀ e ∈ r.sequence.track n, e.tick ≤ (r.ending n).tick) ∧
        (Scalar.Ordered R → (r.finish.sequence.track n).getLast? = some (r.ending n) ∨
          TakenBack resolution noteLength events n) := by
  intro r n hn
  have hrunning : r.Running := running_heard resolution noteLength events
  obtain ⟨hlength, hfinish⟩ := hrunning.finish
  rw [hlength] at hn
  have hsorted : Sorted (r.sequence.track n) := by
    have hbuilt : r.sequence.Built := by
      refine ⟨resolution, (Sequencer.start (max resolution 1) noteLength).2 ++
        ((Sequencer.start (max resolution 1) noteLength).1.hearAll events).2, ?_⟩
      rw [obeyAll_append]
      simp only [r, heard, foldl_hear]
      rfl
    exact hbuilt.sorted n
  have hlast : (r.finish.sequence.track n).getLast? = some (r.ending n) ↔
      ∀ e ∈ r.sequence.track n, e.tick ≤ (r.ending n).tick := by
    rw [hfinish n hn]
    exact getLast?_insertEvent_iff hsorted
  refine ⟨?_, hlast, fun laws => ?_⟩
  · rw [hfinish n hn]
    exact filter_insertEvent_of_none rfl (hrunning.endless n)
  · rcases takenBack_or_le laws resolution noteLength events n with hback | hle
    · exact .inr hback
    · exact .inl (hlast.mpr hle)

/-- A whole note, and then a request for the beginning. -/
def backToStart : List (Event Rat) :=
  [.track 0, .note { (Note.ofValue 60).withLength 1 with isFirst := true }, .timeRequest 0]

/-- The end of the track comes before the note has ended. -/
theorem backToStart_ends_early :
    let r := heard 128 (1 / 4) backToStart
    r.ending 0 = ⟨0, .metaEvent 47 []⟩ ∧
      r.finish.sequence.track 0 =
        [⟨0, .noteOn 0 60 64⟩, ⟨0, .metaEvent 47 []⟩, ⟨512, .noteOff 0 60 64⟩] ∧
      (r.finish.sequence.track 0).filter (fun e => e.event.isEndOfTrack) = [r.ending 0] ∧
      (r.finish.sequence.track 0).getLast? ≠ some (r.ending 0) ∧
      TakenBack 128 (1 / 4) backToStart 0 := by
  intro r
  obtain ⟨honce, hlast, hback⟩ := ends_every_track 128 (1 / 4) backToStart 0 (by decide +kernel)
  have hearly : (r.finish.sequence.track 0).getLast? ≠ some (r.ending 0) := by
    rw [Ne, hlast]
    decide +kernel
  exact ⟨by decide +kernel, by decide +kernel, honce, hearly,
    (hback Scalar.ordered_rat).resolve_left hearly⟩

end Recorder

end ScoreText
