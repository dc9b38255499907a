import ScoreText.Proofs.Sequence.Ranges
import ScoreText.Proofs.Sequence.Voices

/-!
What a sequencer asks of its sink, in order. Whatever the sink makes of it, the tracks are created
from the first one up, each once, and nothing is added to a track before it has been created.
-/

set_option autoImplicit false

namespace ScoreText

namespace SinkCall

/-- The track that a call brings into being. -/
def created? : SinkCall → Option Nat
  | .createTrack n => some n
  | .addEvent _ _ _ => none

/-- The calls that a sink with so many tracks can follow, and the count of its tracks after them. A
track is created next above those that there are; what is added goes to a track that there is, on
the channel of its number. -/
inductive Follows : Nat → List SinkCall → Nat → Prop
  | nil (count : Nat) : Follows count [] count
  | create {count last : Nat} {rest : List SinkCall} :
      Follows (count + 1) rest last → Follows count (.createTrack count :: rest) last
  | add {count last track tick : Nat} {event : SequenceEvent} {rest : List SinkCall} :
      track < count → (∀ channel, event.channel? = some channel → channel = track) →
      Follows count rest last → Follows count (.addEvent track tick event :: rest) last

namespace Follows

variable {first count last : Nat} {before after : List SinkCall}

theorem append (hb : Follows first before count) (ha : Follows count after last) :
    Follows first (before ++ after) last := by
  induction hb with
  | nil => exact ha
  | create _ ih => exact .create (ih ha)
  | add there channel _ ih => exact .add there channel (ih ha)

theorem range' (first more : Nat) :
    Follows first ((List.range' first more).map .createTrack) (first + more) := by
  induction more generalizing first with
  | zero => exact .nil first
  | succ more ih =>
    have hrest := ih (first + 1)
    rw [Nat.add_right_comm] at hrest
    rw [List.range'_succ, List.map_cons]
    exact .create hrest

theorem of_forall_add {calls : List SinkCall}
    (h : ∀ call ∈ calls, ∃ track tick event, call = .addEvent track tick event ∧ track < count ∧
      ∀ channel, event.channel? = some channel → channel = track) : Follows count calls count := by
  induction calls with
  | nil => exact .nil count
  | cons call rest ih =>
    obtain ⟨⟨track, tick, event, rfl, there, channel⟩, hrest⟩ := List.forall_mem_cons.mp h
    exact .add there channel (ih hrest)

/-- The tracks are created in order, without gaps and without repeats. -/
theorem created {calls : List SinkCall} (h : Follows first calls last) :
    first ≤ last ∧ calls.filterMap created? = List.range' first (last - first) := by
  induction h with
  | nil count => simp
  | @create count last rest _ ih =>
    obtain ⟨hle, hrest⟩ := ih
    refine ⟨Nat.le_of_succ_le hle, ?_⟩
    obtain ⟨more, rfl⟩ := Nat.exists_eq_add_of_le hle
    have hmore : count + 1 + more - count = more + 1 := by omega
    rw [Nat.add_sub_cancel_left] at hrest
    rw [List.filterMap_cons, hmore, List.range'_succ, ← hrest]
    rfl
  | add _ _ _ ih => exact ih

/-- What is added goes to a track that was there before or has been created by then. -/
theorem added {track tick : Nat} {event : SequenceEvent}
    (h : Follows first (before ++ .addEvent track tick event :: after) last) :
    (track < first ∨ .createTrack track ∈ before) ∧
      ∀ channel, event.channel? = some channel → channel = track := by
  induction before generalizing first with
  | nil =>
    cases h with
    | add there channel _ => exact ⟨.inl there, channel⟩
  | cons call rest ih =>
    cases h with
    | create h =>
      obtain ⟨there, channel⟩ := ih h
      refine ⟨there.elim (fun there => ?_) fun hc => .inr (List.mem_cons_of_mem _ hc), channel⟩
      rcases Nat.lt_succ_iff_lt_or_eq.mp there with there | rfl
      · exact .inl there
      · exact .inr List.mem_cons_self
    | add _ _ h =>
      obtain ⟨there, channel⟩ := ih h
      exact ⟨there.imp_right (List.mem_cons_of_mem _), channel⟩

end Follows

end SinkCall

namespace Sequencer

variable {R : Type}

theorem channel_written {channel : Nat} {event : Event R} {e : SequenceEvent}
    (h : written? channel event = some e) : ∀ c, e.channel? = some c → c = channel := by
  intro c hc
  cases event with
  | instrument | tempo | keySignature | timeSignature | pitchWheel | channelPressure
  | polyPressure | systemExclusive | controller | lyric | marker =>
    simp only [written?, Option.some.injEq] at h
    subst h
    simp_all [SequenceEvent.channel?]
  | _ => simp [written?] at h

variable [Scalar R]

/-- A call that adds to the current track, on its channel. -/
def Adds (s : Sequencer R) (call : SinkCall) : Prop :=
  ∃ tick event, call = .addEvent s.channel tick event ∧
    ∀ channel, event.channel? = some channel → channel = s.channel

theorem adds_playNote (s : Sequencer R) (n : Note R) : ∀ call ∈ (s.playNote n).2, s.Adds call := by
  intro call hc
  obtain ⟨tick, rfl | rfl⟩ := mem_playNote hc
  · exact ⟨tick, _, rfl, fun _ h => (Option.some.inj h).symm⟩
  · exact ⟨tick, _, rfl, fun _ h => (Option.some.inj h).symm⟩

theorem adds_playNotes (s : Sequencer R) (ns : List (Note R)) :
    ∀ call ∈ (s.playNotes ns).2, s.Adds call := by
  induction ns generalizing s with
  | nil => exact fun call hc => nomatch hc
  | cons n rest ih =>
    intro call hc
    rcases List.mem_append.mp hc with hc | hc
    · exact s.adds_playNote n call hc
    · exact ih (s.playNote n).1 call hc

/-- All that an event asks for, but for a change of track, is added to the current track. -/
theorem adds_hear (s : Sequencer R) {event : Event R} (h : ∀ n, event ≠ .track n) :
    ∀ call ∈ (s.hear event).2, s.Adds call := by
  intro call hc
  cases hw : written? s.channel event with
  | some e =>
    rw [hear_written hw, List.mem_singleton] at hc
    exact ⟨_, e, hc, channel_written hw⟩
  | none =>
    cases event with
    | track n => exact absurd rfl (h n)
    | note n => exact s.adds_playNote n call hc
    | chord c => exact s.adds_playNotes c.notes call hc
    | instrument | tempo | keySignature | timeSignature | pitchWheel | channelPressure
    | polyPressure | systemExclusive | controller | lyric | marker => cases hw
    | _ => cases hc

/-- The current track is one of those that there are. -/
def Placed (s : Sequencer R) : Prop := s.timeline.track.val < s.timeline.trackCount

theorem placed_setTrack (s : Sequencer R) (n : Nat) : (s.hear (.track n)).1.Placed :=
  (s.timeline.trackCount_setTrack n).2.2

omit [Scalar R] in
theorem follows_setTrack (t : Timeline R) (n : Nat) :
    SinkCall.Follows t.trackCount ((t.setTrack n).2.map .createTrack) (t.setTrack n).1.trackCount := by
  obtain ⟨hcount, hcreated, -⟩ := t.trackCount_setTrack n
  rw [hcount, hcreated, List.length_range']
  exact .range' _ _

/-- A sink can follow what an event asks of it, and the current track stays one that there is. -/
theorem follows_hear {s : Sequencer R} (h : s.Placed) (event : Event R) :
    SinkCall.Follows s.timeline.trackCount (s.hear event).2 (s.hear event).1.timeline.trackCount ∧
      (s.hear event).1.Placed := by
  by_cases htrack : ∃ n, event = .track n
  · obtain ⟨n, rfl⟩ := htrack
    exact ⟨follows_setTrack s.timeline n, s.placed_setTrack n⟩
  · have htrack : ∀ n, event ≠ .track n := fun n hn => htrack ⟨n, hn⟩
    obtain ⟨hsame, hcreated⟩ := s.track_hear htrack
    have hcount : (s.hear event).1.timeline.trackCount = s.timeline.trackCount := by
      rw [Timeline.trackCount, hcreated, Timeline.trackCount]
    refine ⟨?_, by rwa [Placed, hsame, hcount]⟩
    rw [hcount]
    refine .of_forall_add fun call hc => ?_
    obtain ⟨tick, e, rfl, hchannel⟩ := s.adds_hear htrack call hc
    exact ⟨s.channel, tick, e, rfl, h, hchannel⟩

theorem follows_hearAll {s : Sequencer R} (h : s.Placed) (events : List (Event R)) :
    SinkCall.Follows s.timeline.trackCount (s.hearAll events).2
      (s.hearAll events).1.timeline.trackCount := by
  induction events generalizing s with
  | nil => exact .nil _
  | cons event rest ih =>
    obtain ⟨hcalls, hplaced⟩ := follows_hear h event
    exact hcalls.append (ih hplaced)

/-- The ends go to tracks that there are. -/
theorem follows_finish (s : Sequencer R) :
    SinkCall.Follows s.timeline.trackCount s.finish.2 s.timeline.trackCount := by
  refine .of_forall_add fun call hc => ?_
  simp only [finish] at hc
  split at hc
  · cases hc
  · obtain ⟨track, ht, rfl⟩ := List.mem_map.mp hc
    rw [Timeline.createdTracks_eq, List.mem_range] at ht
    exact ⟨track, _, _, rfl, ht, fun _ h => by cases h⟩

variable (resolution : Nat) (noteLength : R) (events : List (Event R))

/-- A sequencer that has heard events from its start, and all that it has asked of its sink. -/
def told : Sequencer R × List SinkCall :=
  let (s, calls) := start resolution noteLength
  let (s, more) := s.hearAll events
  (s, calls ++ more)

theorem follows_told :
    SinkCall.Follows 0 (told resolution noteLength events).2 (Event.highest 0 events + 1) := by
  have hstart : (start resolution noteLength).1.timeline.trackCount = 1 := rfl
  have hplaced : (start resolution noteLength).1.Placed :=
    (Timeline.trackCount_setTrack (R := R) Timeline.start 0).2.2
  have hcreated : SinkCall.Follows 0 (start resolution noteLength).2 1 :=
    follows_setTrack (R := R) Timeline.start 0
  have hheard := follows_hearAll hplaced events
  rw [hstart, trackCount_hearAll hstart events] at hheard
  exact hcreated.append hheard

/-- Whatever events are heard, the sink is asked to create the tracks from the first to the highest that
was gone to, in order and each once, and an event is only added to a track that has been created by
then, on the channel of that track. So it is at any time, and when all has been heard and ended. -/
theorem asks_in_order :
    let told := told resolution noteLength events
    let calls := told.2 ++ told.1.finish.2
    let top := Event.highest 0 events
    top ≤ 15 ∧ told.1.timeline.createdTracks = List.range (top + 1) ∧
      told.2.filterMap SinkCall.created? = List.range (top + 1) ∧
      calls.filterMap SinkCall.created? = List.range (top + 1) ∧
      ∀ before track tick event after, calls = before ++ .addEvent track tick event :: after →
        .createTrack track ∈ before ∧ ∀ channel, event.channel? = some channel → channel = track := by
  intro told calls top
  have htold : SinkCall.Follows 0 told.2 (top + 1) := follows_told resolution noteLength events
  have hcount : told.1.timeline.trackCount = top + 1 :=
    trackCount_hearAll (s := (start resolution noteLength).1) rfl events
  have hall : SinkCall.Follows 0 calls (top + 1) := by
    have hends := told.1.follows_finish
    rw [hcount] at hends
    exact htold.append hends
  refine ⟨Event.highest_le (Nat.zero_le 15) events, ?_, ?_, ?_, fun before track tick event after h => ?_⟩
  · rw [Timeline.createdTracks_eq, hcount]
  · rw [htold.created.2, Nat.sub_zero, List.range_eq_range']
  · rw [hall.created.2, Nat.sub_zero, List.range_eq_range']
  · rw [h] at hall
    obtain ⟨there, channel⟩ := hall.added
    exact ⟨there.resolve_left (Nat.not_lt_zero track), channel⟩

/-- A number beyond the last track stands for the last one, and tracks below come into being with a track. -/
example :
    (told 128 (1 / 4 : Rat) [.track 2, .channelPressure 7, .track 1, .instrument 3, .track 2]).2 =
      [.createTrack 0, .createTrack 1, .createTrack 2, .addEvent 2 0 (.channelPressure 2 7),
        .addEvent 1 0 (.program 1 3)] ∧
      Event.highest 0 [.track 200, (.layer 99 : Event Rat)] = 15 := by decide +kernel

end Sequencer

end ScoreText
