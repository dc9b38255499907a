import ScoreText.Proofs.Sequence.Retelling

/-!
A sequence that is replayed into a recorder comes out as it was: the same notes on every track, and
the same controls.
-/

set_option autoImplicit false

namespace ScoreText

open Stable Sequence

/-- The events that set a channel up, besides its notes. -/
def SequenceEvent.isControl : SequenceEvent → Bool
  | .program _ _ | .control _ _ _ | .bend _ _ _ | .channelPressure _ _ | .polyPressure _ _ _
  | .systemExclusive _ => true
  | .noteOn _ _ _ | .noteOff _ _ _ | .metaEvent _ _ => false

namespace Sequence

theorem obeyAll_append (s : Sequence) (before after : List SinkCall) :
    s.obeyAll (before ++ after) = (s.obeyAll before).obeyAll after := by
  simp [obeyAll]

theorem added_append (track : Nat) (before after : List SinkCall) :
    added track (before ++ after) = added track before ++ added track after := by
  simp [added]

theorem added_createTrack (track : Nat) (created : List Nat) :
    added track (created.map .createTrack) = [] := by
  simp [added]

theorem added_addition (track channel : Nat) (es : List TimedEvent) :
    added track (es.map (Sequencer.addition channel)) = if channel = track then es else [] := by
  rw [added, List.filterMap_map]
  by_cases h : channel = track
  · rw [if_pos h]
    have : ∀ e ∈ es, (fun e : TimedEvent => if channel = track then some e else none) e = some e :=
      fun e _ => if_pos h
    exact (List.filterMap_congr this).trans List.filterMap_some
  · rw [if_neg h, List.filterMap_eq_nil_iff]
    exact fun e _ => if_neg h

/-- The controls of a track, in the order of their ticks. -/
def controls (es : List TimedEvent) : List TimedEvent := es.filter fun e => e.event.isControl

theorem controls_ofAdded {es : List TimedEvent} (h : Sorted (controls es)) :
    controls (ofAdded es) = controls es := by
  rw [ofAdded_eq_mergeSort]
  exact filter_mergeSort h

end Sequence

namespace Replay

open Sequencer

theorem written_isNote {R : Type} {channel : Nat} {event : Event R} {e : SequenceEvent}
    (h : written? channel event = some e) : isNote e = false := by
  cases event with
  | instrument | tempo | keySignature | timeSignature | pitchWheel | channelPressure
  | polyPressure | systemExclusive | controller | lyric | marker =>
    simp only [written?, Option.some.injEq] at h
    subst h
    rfl
  | _ => simp [written?] at h

theorem opening?_of_isNote {e : TimedEvent} (h : isNote e.event = false) :
    opening? e = none ∧ ending? e = none := by
  obtain ⟨tick, event⟩ := e
  cases event <;> simp_all [isNote, opening?, ending?]

/-- A control on its own channel comes back as it is, and nothing else comes back as a control. -/
theorem controls_written {channel : Nat} {e : SequenceEvent}
    (h : ∀ c, e.channel? = some c → c = channel) :
    ((eventsOf e : List (Event Rat)).filterMap (written? channel)).filter
      SequenceEvent.isControl = [e].filter SequenceEvent.isControl := by
  cases e with
  | metaEvent kind data =>
    refine List.filter_eq_nil_iff.mpr fun e he => ?_
    obtain ⟨event, hm, hw⟩ := List.mem_filterMap.mp he
    obtain ⟨k, d, hmeta⟩ := written_metaEvents channel kind data event hm
    rw [hmeta] at hw
    rw [← Option.some.inj hw]
    exact Bool.false_ne_true
  | noteOn | noteOff => rfl
  | systemExclusive => rfl
  | program c | control c | bend c | channelPressure c | polyPressure c =>
    have hc : c = channel := h c rfl
    subst hc
    rfl

theorem opening?_retold (channel : Nat) (g : Group) :
    (g.retold channel).filterMap opening? = g.notes.map SequencedNote.opening ∧
      (g.retold channel).filterMap ending? = g.notes.map SequencedNote.ending := by
  have hnone : ∀ e ∈ ((g.events.flatMap eventsOf : List (Event Rat)).filterMap
      (written? channel)).map (fun event => (⟨g.tick, event⟩ : TimedEvent)),
      opening? e = none ∧ ending? e = none := by
    intro e he
    obtain ⟨event, hm, rfl⟩ := List.mem_map.mp he
    obtain ⟨source, -, hw⟩ := List.mem_filterMap.mp hm
    exact opening?_of_isNote (written_isNote hw)
  have hstrokes : ∀ ns : List SequencedNote,
      (ns.flatMap (strokes channel)).filterMap opening? = ns.map SequencedNote.opening ∧
        (ns.flatMap (strokes channel)).filterMap ending? = ns.map SequencedNote.ending := by
    intro ns
    induction ns with
    | nil => exact ⟨rfl, rfl⟩
    | cons n rest ih =>
      rw [List.flatMap_cons, List.filterMap_append, List.filterMap_append, ih.1, ih.2]
      exact ⟨rfl, rfl⟩
  rw [Group.retold, List.filterMap_append, List.filterMap_append,
    List.filterMap_eq_nil_iff.mpr fun e he => (hnone e he).1,
    List.filterMap_eq_nil_iff.mpr fun e he => (hnone e he).2]
  exact hstrokes g.notes

theorem controls_retold {channel : Nat} {g : Group}
    (h : ∀ e ∈ g.events, ∀ c, e.channel? = some c → c = channel) :
    controls (g.retold channel) = controls g.timed := by
  have hstrokes : controls (g.notes.flatMap (strokes channel)) = [] := by
    rw [controls, List.filter_eq_nil_iff]
    intro e he
    obtain ⟨n, -, hm⟩ := List.mem_flatMap.mp he
    simp only [strokes, List.mem_cons, List.not_mem_nil, or_false] at hm
    rcases hm with rfl | rfl <;> simp [SequenceEvent.isControl]
  have hevents : ∀ es : List SequenceEvent,
      (∀ e ∈ es, ∀ c, e.channel? = some c → c = channel) →
      ((es.flatMap eventsOf : List (Event Rat)).filterMap (written? channel)).filter
        SequenceEvent.isControl = es.filter SequenceEvent.isControl := by
    intro es hes
    induction es with
    | nil => rfl
    | cons e rest ih =>
      rw [List.flatMap_cons, List.filterMap_append, List.filter_append,
        controls_written (hes e List.mem_cons_self),
        ih fun a ha => hes a (List.mem_cons_of_mem e ha), ← List.filter_append,
        List.singleton_append]
  rw [Group.retold, controls, List.filter_append, ← controls, ← controls, hstrokes, List.append_nil,
    controls, controls, Group.timed, List.filter_map, List.filter_map]
  exact congrArg _ (hevents g.events h)

/-- Every layer is the first one, and no time has passed on the tracks from `n` on. -/
structure Fresh (n : Nat) (s : Sequencer Rat) : Prop where
  layers : s.timeline.layers = .replicate 16 0
  cursors : ∀ t : Slot, n ≤ t.val → s.timeline.cursorAt t 0 = .atTime 0

theorem fresh_start (resolution : Nat) (noteLength : Rat) :
    Fresh 0 (Sequencer.start resolution noteLength).1 := by
  refine ⟨rfl, fun t _ => ?_⟩
  simp [Sequencer.start, Timeline.setTrack, Timeline.start, Timeline.cursorAt]

theorem playable_groupsOf {es : List TimedEvent} (hs : Sorted es)
    (hn : ∀ n ∈ notesOf es, Playable n) : ∀ g ∈ groupsOf es, g.Playable := by
  intro g hg
  have h := faithful_groupsOf hs
  refine ⟨fun n hm => ⟨hn n ?_, h.starts g hg n hm⟩, h.sortedBy_length hs hg⟩
  rw [← h.notes]
  exact List.mem_flatMap.mpr ⟨g, hg, hm⟩

/-- The events of a track with groups, from its beginning. -/
def tell (resolution track : Nat) : List Group → List (Event Rat)
  | [] => []
  | gs => .track (track % 256) :: groupEvents resolution 0 gs

theorem trackEvents_eq (s : Sequence) (t : Nat) :
    (trackEvents s t : List (Event Rat)) = tell s.resolution t (groupsOf (s.track t)) := by
  rw [trackEvents, groups_eq_groupsOf]
  cases groupsOf (s.track t) <;> rfl

/-- One track is written on its own track, and the tracks behind it are left fresh. -/
theorem hear_track {s : Sequencer Rat} {n : Nat} (hn : n < 16) (hr : 0 < s.resolution)
    (hf : Fresh n s) {gs : List Group} (hgs : ∀ g ∈ gs, g.Playable) :
    Fresh (n + 1) (s.hearAll (tell s.resolution n gs)).1 ∧
      (s.hearAll (tell s.resolution n gs)).1.resolution = s.resolution ∧
      ∀ t, added t (s.hearAll (tell s.resolution n gs)).2 =
        if n = t then gs.flatMap (Group.retold n) else [] := by
  unfold tell
  split
  · refine ⟨⟨hf.layers, fun t ht => hf.cursors t (Nat.le_of_succ_le ht)⟩, rfl, fun t => ?_⟩
    simp [hearAll, added]
  · obtain ⟨moved, hmoved⟩ : ∃ moved : Sequencer Rat,
        moved = { s with timeline := (s.timeline.setTrack n).1 } := ⟨_, rfl⟩
    have htrack : moved.timeline.track = ⟨n, hn⟩ := by
      rw [hmoved]
      exact Timeline.setTrack_track _ hn
    have hchannel : moved.channel = n := congrArg Fin.val htrack
    have hlayers : moved.timeline.layers = .replicate 16 0 := by
      rw [hmoved]
      exact hf.layers
    have hcursors : ∀ t : Slot, moved.timeline.cursorAt t 0 = s.timeline.cursorAt t 0 := by
      rw [hmoved]
      exact fun t => rfl
    have hzero : Settled moved.resolution 0 moved.timeline.cursor := by
      have : moved.timeline.cursor = .atTime (Tick.toBeats 0 moved.resolution) := by
        rw [Timeline.cursor, Timeline.layer, hlayers, Fin.getElem_fin, Vector.getElem_replicate,
          htrack, hcursors, hf.cursors _ (Nat.le_refl n), Tick.toBeats_zero]
      rw [this]
      exact settled_atTime _ 0
    have hres' : moved.resolution = s.resolution := by rw [hmoved]
    obtain ⟨d, hheard⟩ := hear_groups (s := moved) (by rw [hres']; exact hr) hgs hzero
    rw [withCursor_cursor, hchannel, hres'] at hheard
    have hmod : n % 256 = n := Nat.mod_eq_of_lt (by omega)
    have hall : s.hearAll (.track (n % 256) :: groupEvents s.resolution 0 gs) =
        (moved.withCursor d, (s.timeline.setTrack n).2.map .createTrack ++
          (gs.flatMap (Group.retold n)).map (addition n)) := by
      rw [hmod, hearAll]
      simp only [hear, ← hmoved, hheard]
    rw [hall]
    refine ⟨⟨hlayers, fun t ht => ?_⟩, hres', fun t => ?_⟩
    · have hne : t ≠ moved.timeline.track := by
        rw [htrack]
        intro h
        rw [h] at ht
        exact Nat.not_succ_le_self n ht
      rw [timeline_withCursor, Timeline.cursorAt_withCursor _ _ _ hne, hcursors]
      exact hf.cursors t (Nat.le_of_succ_le ht)
    · rw [added_append, added_createTrack, added_addition, List.nil_append]

/-- The tracks are written one after another. -/
theorem hear_tracks {s : Sequencer Rat} (hr : 0 < s.resolution) (hf : Fresh 0 s)
    {gs : Nat → List Group} (hgs : ∀ t, ∀ g ∈ gs t, g.Playable) {n : Nat} (hn : n ≤ 16) :
    Fresh n (s.hearAll ((List.range n).flatMap fun t => tell s.resolution t (gs t))).1 ∧
      (s.hearAll ((List.range n).flatMap fun t => tell s.resolution t (gs t))).1.resolution =
        s.resolution ∧
      ∀ t, added t (s.hearAll ((List.range n).flatMap fun t => tell s.resolution t (gs t))).2 =
        if t < n then (gs t).flatMap (Group.retold t) else [] := by
  induction n with
  | zero => exact ⟨hf, rfl, fun t => by simp [hearAll, added]⟩
  | succ n ih =>
    obtain ⟨hfresh, hres, hadded⟩ := ih (Nat.le_of_succ_le hn)
    obtain ⟨hfresh', hres', hlast⟩ := hear_track hn (by rw [hres]; exact hr) hfresh (hgs n)
    rw [hres] at hfresh' hres' hlast
    rw [List.range_succ, List.flatMap_append, List.flatMap_singleton, hearAll_append]
    refine ⟨hfresh', hres', fun t => ?_⟩
    rw [added_append, hadded, hlast]
    by_cases hlt : t < n
    · rw [if_pos hlt, if_neg (by omega), if_pos (by omega), List.append_nil]
    · by_cases heq : n = t
      · subst heq
        rw [if_neg hlt, if_pos rfl, if_pos (by omega), List.nil_append]
      · rw [if_neg hlt, if_neg heq, if_neg (by omega), List.nil_append]

/-- What is added to a track when groups are told of every track. -/
theorem added_tell {s : Sequencer Rat} (hr : 0 < s.resolution) (hf : Fresh 0 s)
    {gs : Nat → List Group} (hgs : ∀ t, ∀ g ∈ gs t, g.Playable) {n : Nat} (hn : n ≤ 16)
    (hnone : ∀ t, n ≤ t → gs t = []) (t : Nat) :
    added t (s.hearAll (.parsingStarts :: (List.range n).flatMap (fun t => tell s.resolution t (gs t)) ++
      [.parsingEnds])).2 = (gs t).flatMap (Group.retold t) := by
  obtain ⟨-, -, hadded⟩ := hear_tracks hr hf hgs hn
  rw [Sequencer.hearAll_append, Sequencer.hearAll]
  simp only [Sequencer.hear, Sequencer.hearAll, List.nil_append, List.append_nil]
  rw [hadded]
  split
  · rfl
  · rw [hnone t (by omega)]
    rfl

theorem openings_retold (channel : Nat) (gs : List Group) :
    (gs.flatMap (Group.retold channel)).filterMap opening? =
        (gs.flatMap Group.notes).map SequencedNote.opening ∧
      (gs.flatMap (Group.retold channel)).filterMap ending? =
        (gs.flatMap Group.notes).map SequencedNote.ending := by
  rw [List.filterMap_flatMap, List.filterMap_flatMap, List.map_flatMap, List.map_flatMap]
  exact ⟨List.flatMap_congr fun g _ => (opening?_retold channel g).1,
    List.flatMap_congr fun g _ => (opening?_retold channel g).2⟩

theorem openings_metas {more : List TimedEvent}
    (h : ∀ e ∈ more, ∃ kind data, e.event = .metaEvent kind data) :
    more.filterMap opening? = [] ∧ more.filterMap ending? = [] := by
  refine ⟨List.filterMap_eq_nil_iff.mpr fun e he => ?_, List.filterMap_eq_nil_iff.mpr fun e he => ?_⟩ <;>
    obtain ⟨kind, data, hk⟩ := h e he
  · rw [opening?, hk]
  · rw [ending?, hk]

/-- What is written for a track holds its notes and its controls, and what else is added to it
changes neither. -/
theorem retold_track {es : List TimedEvent} (hs : Sorted es) (hp : ∀ n ∈ notesOf es, Playable n)
    (channel : Nat) (more : List TimedEvent)
    (hmore : ∀ e ∈ more, ∃ kind data, e.event = .metaEvent kind data) :
    notesOf (ofAdded ((groupsOf es).flatMap (Group.retold channel) ++ more)) = notesOf es ∧
      ((∀ e ∈ es, ∀ c, e.event.channel? = some c → c = channel) →
        controls (ofAdded ((groupsOf es).flatMap (Group.retold channel) ++ more)) =
          controls es) := by
  have h := faithful_groupsOf hs
  obtain ⟨hopen, hend⟩ := openings_metas hmore
  have hcontrol : controls more = [] := List.filter_eq_nil_iff.mpr fun e he => by
    obtain ⟨kind, data, hk⟩ := hmore e he
    rw [hk]
    exact Bool.false_ne_true
  refine ⟨notesOf_rewritten hs ?_ ?_ fun n hn => (hp n hn).lasts, fun hchannel => ?_⟩
  · rw [List.filterMap_append, hopen, List.append_nil, ← h.notes]
    exact (openings_retold channel _).1
  · rw [List.filterMap_append, hend, List.append_nil, ← h.notes]
    exact (openings_retold channel _).2
  · have hothers : controls (others es) = controls es := by
      rw [controls, others, List.filter_filter, controls]
      refine List.filter_congr fun e _ => ?_
      cases e.event <;> simp [SequenceEvent.isControl, isNote, SequenceEvent.isEndOfTrack]
    have hretold : controls ((groupsOf es).flatMap (Group.retold channel) ++ more) =
        controls es := by
      rw [controls, List.filter_append, ← controls, ← controls, hcontrol, List.append_nil,
        ← hothers, ← h.events, controls, controls, List.filter_flatMap, List.filter_flatMap]
      refine List.flatMap_congr fun g hg => controls_retold fun e he c hc => ?_
      refine hchannel ⟨g.tick, e⟩ (List.mem_of_mem_filter (?_ : _ ∈ others es)) c hc
      rw [← h.events]
      exact List.mem_flatMap.mpr ⟨g, hg, List.mem_map_of_mem he⟩
    rw [controls_ofAdded]
    · exact hretold
    · rw [hretold]
      exact hs.sublist List.filter_sublist

end Replay

namespace Recorder

open Replay

theorem foldl_hear {R : Type} [Scalar R] (r : Recorder R) (events : List (Event R)) :
    events.foldl hear r =
      ⟨(r.sequencer.hearAll events).1, r.sequence.obeyAll (r.sequencer.hearAll events).2⟩ := by
  induction events generalizing r with
  | nil => rfl
  | cons event rest ih =>
    rw [List.foldl_cons, ih]
    simp only [hear, after, Sequencer.hearAll, obeyAll_append]

theorem added_finish {R : Type} [Scalar R] (s : Sequencer R) (t : Nat) :
    ∀ e ∈ added t s.finish.2, ∃ kind data, e.event = .metaEvent kind data := by
  intro e he
  simp only [Sequencer.finish] at he
  split at he
  · cases he
  · simp only [added, List.filterMap_map, List.mem_filterMap, Function.comp_def] at he
    obtain ⟨track, -, he⟩ := he
    split at he
    · exact ⟨_, _, by rw [← Option.some.inj he]⟩
    · cases he

end Recorder

namespace Sequence

open Replay

/-- What a sink can have become. -/
def Built (s : Sequence) : Prop :=
  ∃ resolution calls, s = (ofResolution resolution).obeyAll calls

theorem Built.sorted {s : Sequence} (h : s.Built) (t : Nat) : Sorted (s.track t) := by
  obtain ⟨resolution, calls, rfl⟩ := h
  rw [track_built]
  exact sorted_ofAdded _

theorem Built.resolution_pos {s : Sequence} (h : s.Built) : 0 < s.resolution := by
  obtain ⟨resolution, calls, rfl⟩ := h
  rw [resolution_obeyAll]
  exact Nat.le_max_right resolution 1

theorem Built.obeyAll {s : Sequence} (h : s.Built) (calls : List SinkCall) :
    (s.obeyAll calls).Built := by
  obtain ⟨resolution, before, rfl⟩ := h
  exact ⟨resolution, before ++ calls, (obeyAll_append _ _ _).symm⟩

theorem track_eq_nil {s : Sequence} {t : Nat} (h : s.tracks.length ≤ t) : s.track t = [] := by
  rw [Sequence.track, List.getElem?_eq_none h]
  rfl

/-- A recorder that starts anew and hears what a replay of the sequence fires. -/
def recorded (s : Sequence) (noteLength : Rat) : Recorder Rat :=
  (Replay.events s).foldl Recorder.hear (Recorder.start s.resolution noteLength)

/-- What the recorder has added to a track by then. -/
theorem track_recorded {s : Sequence} (h : s.Built) (htracks : s.tracks.length ≤ 16)
    (hnotes : ∀ t, ∀ n ∈ s.notes t, Playable n) (noteLength : Rat) (more : List SinkCall) (t : Nat) :
    ((s.recorded noteLength).sequence.obeyAll more).track t =
      ofAdded ((groupsOf (s.track t)).flatMap (Group.retold t) ++ added t more) := by
  have hstart : (Sequencer.start (max s.resolution 1) noteLength).1.resolution = s.resolution := by
    have := h.resolution_pos
    simp only [Sequencer.start]
    omega
  have hwritten : added t ((Sequencer.start (max s.resolution 1) noteLength).1.hearAll
      (Replay.events s)).2 = (groupsOf (s.track t)).flatMap (Group.retold t) := by
    have hadded := added_tell (by rw [hstart]; exact h.resolution_pos)
      (fresh_start (max s.resolution 1) noteLength)
      (fun t => playable_groupsOf (h.sorted t) (hnotes t)) htracks
      (fun t ht => by rw [track_eq_nil ht, groupsOf_nil]) t
    rw [hstart] at hadded
    rw [Replay.events, List.flatMap_congr fun t _ => trackEvents_eq s t]
    exact hadded
  have hcreated : added t (Sequencer.start (max s.resolution 1) noteLength).2 = [] :=
    added_createTrack t _
  rw [recorded, Recorder.foldl_hear]
  simp only [Recorder.start]
  rw [← obeyAll_append, ← obeyAll_append, track_built, added_append, added_append]
  rw [show (ofResolution s.resolution).resolution = max s.resolution 1 from rfl, hcreated, hwritten,
    List.nil_append]

/-- A sequence that is replayed is recorded as it was: every track has the same notes, whether or not
the recording is ended, and the same controls if these keep to the channel of their track. -/
theorem recorded_replay (s : Sequence) (h : s.Built) (htracks : s.tracks.length ≤ 16)
    (hnotes : ∀ t, ∀ n ∈ s.notes t, Playable n) (noteLength : Rat) (t : Nat) :
    ((s.recorded noteLength).sequence.notes t = s.notes t ∧
      (s.recorded noteLength).finish.sequence.notes t = s.notes t) ∧
      ((∀ e ∈ s.track t, ∀ c, e.event.channel? = some c → c = t) →
        controls ((s.recorded noteLength).sequence.track t) = controls (s.track t) ∧
          controls ((s.recorded noteLength).finish.sequence.track t) = controls (s.track t)) := by
  obtain ⟨hbare, hbareControls⟩ := retold_track (h.sorted t) (hnotes t) t [] (by simp)
  obtain ⟨hended, hendedControls⟩ := retold_track (h.sorted t) (hnotes t) t _
    (Recorder.added_finish (s.recorded noteLength).sequencer t)
  have hsame := track_recorded h htracks hnotes noteLength [] t
  have hfinish := track_recorded h htracks hnotes noteLength
    (s.recorded noteLength).sequencer.finish.2 t
  simp only [notes_eq_notesOf]
  refine ⟨⟨?_, ?_⟩, fun hc => ⟨?_, ?_⟩⟩
  · exact (congrArg notesOf hsame).trans hbare
  · exact (congrArg notesOf hfinish).trans hended
  · exact (congrArg controls hsame).trans (hbareControls hc)
  · exact (congrArg controls hfinish).trans (hendedControls hc)

/-- Two notes of one pitch, the second begun before the first has ended. -/
def overlap : List SinkCall :=
  [.addEvent 0 0 (.program 0 5), .addEvent 0 0 (.noteOn 0 60 64), .addEvent 0 10 (.noteOn 0 60 70),
    .addEvent 0 20 (.noteOff 0 60 64), .addEvent 0 40 (.noteOff 0 60 1)]

theorem overlap_recorded :
    let s := (ofResolution 128).obeyAll overlap
    (s.recorded 1).finish.sequence.notes 0 = [⟨60, 64, 64, 0, 20⟩, ⟨60, 70, 1, 10, 40⟩] ∧
      controls ((s.recorded 1).finish.sequence.track 0) = [⟨0, .program 0 5⟩] := by
  intro s
  have hpairs : pairFrom [] (s.track 0) = [⟨60, 64, 64, 0, 20⟩, ⟨60, 70, 1, 10, 40⟩] := by decide
  have hplayable : ∀ t, ∀ n ∈ s.notes t, Playable n := by
    intro t n hn
    cases t with
    | zero =>
      rw [notes_eq_notesOf, notesOf, List.mem_mergeSort, hpairs] at hn
      simp only [List.mem_cons, List.not_mem_nil, or_false] at hn
      rcases hn with rfl | rfl
      · exact ⟨by decide, by decide, by decide, by decide⟩
      · exact ⟨by decide, by decide, by decide, by decide⟩
    | succ t =>
      have hnone : s.track (t + 1) = [] := track_eq_nil (Nat.le_add_left 1 t)
      rw [notes_eq_notesOf, hnone, notesOf, List.mem_mergeSort] at hn
      cases hn
  obtain ⟨⟨-, hnotes⟩, hcontrols⟩ :=
    recorded_replay s ⟨128, overlap, rfl⟩ (by decide) hplayable 1 0
  have hkept : s.notes 0 = [⟨60, 64, 64, 0, 20⟩, ⟨60, 70, 1, 10, 40⟩] := by
    rw [notes_eq_notesOf, notesOf, hpairs]
    exact mergeSort_of_sortedBy (by simp [SortedBy])
  exact ⟨hnotes.trans hkept, ((hcontrols (by decide)).2).trans (by decide)⟩

end Sequence

end ScoreText
