import ScoreText.Proofs.Notation.Rereading
import ScoreText.Proofs.Sequence.RoundTrip
import ScoreText.Proofs.Timeline.Chords

/-!
The sequence that a text stands for: its tracks and its numbers lie in the ranges that a notation
has, whatever the text.
-/

set_option autoImplicit false

namespace ScoreText

/-- A note whose numbers lie in their ranges. -/
structure Note.Ranged {R : Type} (n : Note R) : Prop where
  value : n.value ≤ maxData
  attack : n.attack ≤ maxData
  decay : n.decay ≤ maxData

namespace Chord

variable {R : Type} [Scalar R]

theorem ranged_noteAbove {root : Note R} (h : root.Ranged) (step : Int) :
    (noteAbove root step).Ranged := ⟨Nat.min_le_right _ _, h.attack, h.decay⟩

theorem ranged_notes {c : Chord R} (h : c.root.Ranged) : ∀ n ∈ c.notes, n.Ranged :=
  forall_mem_notes h (ranged_noteAbove h)
    (fun _ hn => ⟨Nat.min_le_right _ _, hn.attack, hn.decay⟩)
    fun _ _ _ _ hn => ⟨hn.value, hn.attack, hn.decay⟩

end Chord

namespace Event

variable {R : Type}

/-- An event whose numbers lie in their ranges, those of its notes included. -/
def Ranged : Event R → Prop
  | .note n => n.Ranged
  | .chord c => c.root.Ranged
  | .parsingStarts | .parsingEnds => True
  | e => e.Tellable

theorem ranged_of_tellable {e : Event R} (h : e.Tellable) (still : e.sounds = false) : e.Ranged := by
  cases e <;> first | exact h | exact h.elim | cases still

end Event

section

variable {R : Type} [Scalar R] {key : Key}

theorem ToneRead.value_le {ctx : NoteContext R} {m : Note R} (h : ToneRead ctx m) :
    m.value ≤ maxData := by
  cases h with
  | rest => exact Nat.zero_le _
  | spelled s value tone le => exact (s.value_note le).trans_le le
  | valued value byName le named => exact (value_ofValue (R := R) le).trans_le le

theorem ElementRead.ranged {e : Element R} (h : ElementRead (.usual key) e) (joint : Joint) :
    (Fragment.elementEvent (NoteContext.join joint e)).Ranged := by
  cases h with
  | @note m n tone suffixed =>
    have hvalue : n.value ≤ maxData := suffixed.hasTone.value ▸ tone.value_le
    cases joint <;> exact ⟨hvalue, suffixed.attack_le, suffixed.decay_le⟩
  | @chord m root n name shape inversion tone sounding rooted suffixed known =>
    have hvalue : n.value ≤ maxData := suffixed.hasTone.value ▸ (tone.rooted rooted).1
    cases joint <;> exact ⟨hvalue, suffixed.attack_le, suffixed.decay_le⟩

theorem Told.ranged {es : List (Event R)} (h : Told key es) : ∀ e ∈ es, e.Ranged := by
  induction h with
  | nil => simp
  | single still range _ ih =>
    exact List.forall_mem_cons.mpr ⟨Event.ranged_of_tellable range still, ih⟩
  | group first linked _ ih =>
    intro e he
    rcases List.mem_append.mp he with he | he
    · obtain ⟨element, hm, rfl⟩ := List.mem_map.mp he
      rcases List.mem_cons.mp hm with rfl | hm
      · exact first.ranged .opening
      · obtain ⟨l, hl, rfl⟩ := List.mem_map.mp hm
        exact (linked l hl).ranged (linkJoint l.1)
    · exact ih e he

end

/-- An event of a sequence from which a replay makes events that a notation can hold. -/
def SequenceEvent.Sound : SequenceEvent → Prop
  | .noteOn _ note velocity => note ≤ maxData ∧ velocity ≤ maxData
  | .noteOff _ note velocity => note ≤ maxData ∧ velocity ≤ maxData
  | e => ∀ event ∈ (Replay.eventsOf e : List (Event Rat)), event.Tellable

def SinkCall.Sound : SinkCall → Prop
  | .createTrack n => n < 16
  | .addEvent track _ event => track < 16 ∧ event.Sound

namespace Sequencer

variable {R : Type} [Scalar R]

theorem sound_tempo (data : List UInt8) :
    (SequenceEvent.metaEvent MetaKind.tempo.number data).Sound := by
  intro event he
  rcases data with _ | ⟨a, _ | ⟨b, _ | ⟨c, _ | _⟩⟩⟩
  case cons.cons.cons.nil =>
    have hevent : event = .tempo (Tempo.ofQuarterMicros
        (a.toNat * 65536 + b.toNat * 256 + c.toNat)) := List.mem_singleton.mp he
    rw [hevent]
    obtain ⟨micros, hmicros⟩ : ∃ micros,
        micros = max (a.toNat * 65536 + b.toNat * 256 + c.toNat) 1 := ⟨_, rfl⟩
    have ha := a.toNat_lt
    have hb := b.toNat_lt
    have hc := c.toNat_lt
    have hpos : 1 ≤ micros ∧ micros ≤ 16777215 := by omega
    have hlargest : Numeral.largest 32 = 4294967295 := rfl
    change 1 ≤ (2 * 60000000 + max _ 1) / (2 * max _ 1) ∧ _ / _ ≤ _
    rw [← hmicros]
    refine ⟨(Nat.one_le_div_iff (by omega)).mpr (by omega), (Nat.div_le_self _ _).trans ?_⟩
    omega
  all_goals exact absurd he List.not_mem_nil

theorem sound_key {fifths : Int} (h : -7 ≤ fifths ∧ fifths ≤ 7) (mode : Mode) :
    (SequenceEvent.metaEvent MetaKind.keySignature.number
      [(fifths % 256).toNat.toUInt8, mode.flag.toUInt8]).Sound := by
  have hmeta : ∀ fifths mode : UInt8,
      (Replay.eventsOf (.metaEvent MetaKind.keySignature.number [fifths, mode]) : List (Event Rat)) =
        [.keySignature (Int.bmod fifths.toNat 256) (.ofFlag mode.toNat)] := fun _ _ => rfl
  obtain ⟨hl, hh⟩ := h
  have hback : Int.bmod ((fifths % 256).toNat.toUInt8.toNat : Int) 256 = fifths := by
    rw [Nat.toUInt8_eq, UInt8.toNat_ofNat', Int.bmod_def]
    omega
  intro event he
  rw [hmeta, List.mem_singleton] at he
  rw [he, hback]
  exact ⟨hl, hh⟩

theorem sound_meter {beats power : Nat} (hl : 1 ≤ beats) (hh : beats ≤ 255) (hp : power < 8) :
    (SequenceEvent.metaEvent MetaKind.timeSignature.number
      [beats.toUInt8, power.toUInt8, 24, 8]).Sound := by
  intro event he
  have hevent : event = .timeSignature beats.toUInt8.toNat power.toUInt8.toNat :=
    List.mem_singleton.mp he
  have hbeats : beats.toUInt8.toNat = beats := by
    rw [Nat.toUInt8_eq, UInt8.toNat_ofNat']
    omega
  have hpower : power.toUInt8.toNat = power := by
    rw [Nat.toUInt8_eq, UInt8.toNat_ofNat']
    omega
  rw [hevent, hbeats, hpower]
  exact ⟨hl, hh, hp⟩

theorem channel_lt {R : Type} (s : Sequencer R) : s.channel < 16 := s.timeline.track.isLt

variable {R : Type} [Scalar R]

/-- A note asks for its on and its off, those that it has, on the current channel. -/
theorem mem_playNote {s : Sequencer R} {n : Note R} {call : SinkCall} (h : call ∈ (s.playNote n).2) :
    ∃ tick, call = .addEvent s.channel tick (.noteOn s.channel n.value n.attack) ∨
      call = .addEvent s.channel tick (.noteOff s.channel n.value n.decay) := by
  simp only [playNote, List.mem_append, Option.mem_toList, Option.map_eq_some_iff] at h
  rcases h with ⟨time, -, rfl⟩ | ⟨time, -, rfl⟩
  · exact ⟨_, .inl rfl⟩
  · exact ⟨_, .inr rfl⟩

/-- What holds of all that single notes ask for holds of what all of them do. -/
theorem forall_playNotes {P : SinkCall → Prop} {ns : List (Note R)}
    (h : ∀ (s : Sequencer R), ∀ n ∈ ns, ∀ call ∈ (s.playNote n).2, P call) (s : Sequencer R) :
    ∀ call ∈ (s.playNotes ns).2, P call := by
  induction ns generalizing s with
  | nil => simp [playNotes]
  | cons n rest ih =>
    intro call hc
    rcases List.mem_append.mp hc with hc | hc
    · exact h s n List.mem_cons_self call hc
    · exact ih (fun s n hn => h s n (List.mem_cons_of_mem _ hn)) _ call hc

/-- What holds of all that single events ask for holds of what all of them do. -/
theorem forall_hearAll {P : SinkCall → Prop} {es : List (Event R)}
    (h : ∀ (s : Sequencer R), ∀ e ∈ es, ∀ call ∈ (s.hear e).2, P call) (s : Sequencer R) :
    ∀ call ∈ (s.hearAll es).2, P call := by
  induction es generalizing s with
  | nil => simp [hearAll]
  | cons e rest ih =>
    intro call hc
    rcases List.mem_append.mp hc with hc | hc
    · exact h s e List.mem_cons_self call hc
    · exact ih (fun s e he => h s e (List.mem_cons_of_mem _ he)) _ call hc

theorem sound_playNote (s : Sequencer R) {n : Note R} (h : n.Ranged) :
    ∀ call ∈ (s.playNote n).2, call.Sound := by
  intro call hc
  obtain ⟨tick, rfl | rfl⟩ := mem_playNote hc
  · exact ⟨s.channel_lt, h.value, h.attack⟩
  · exact ⟨s.channel_lt, h.value, h.decay⟩

theorem sound_setTrack {R : Type} (t : Timeline R) (n : Nat) :
    ∀ created ∈ (t.setTrack n).2, created < 16 := by
  intro created hc
  simp only [Timeline.setTrack, Timeline.missing, List.mem_range'_1] at hc
  have := (Slot.ofNat n).isLt
  omega

theorem sound_emit (s : Sequencer R) {event : SequenceEvent} (h : event.Sound) :
    ∀ call ∈ (s.emit event).2, call.Sound := by
  intro call hc
  rw [List.mem_singleton.mp hc]
  exact ⟨s.channel_lt, h⟩

/-- All that a sequencer asks for lies in its range. -/
theorem sound_hear (s : Sequencer R) {e : Event R} (h : e.Ranged) :
    ∀ call ∈ (s.hear e).2, call.Sound := by
  have hone : ∀ {event : Event Rat}, event.Tellable → ∀ event' ∈ [event], event'.Tellable :=
    fun he event' hm => List.mem_singleton.mp hm ▸ he
  cases e with
  | track n =>
    intro call hc
    obtain ⟨created, hm, rfl⟩ := List.mem_map.mp hc
    exact sound_setTrack s.timeline n created hm
  | note n => exact s.sound_playNote h
  | chord c => exact forall_playNotes (fun s n hn => s.sound_playNote (Chord.ranged_notes h n hn)) s
  | instrument n => exact s.sound_emit (hone h)
  | tempo bpm => exact s.sound_emit (sound_tempo _)
  | keySignature fifths mode => exact s.sound_emit (sound_key h mode)
  | timeSignature beats power => exact s.sound_emit (sound_meter h.1 h.2.1 h.2.2)
  | pitchWheel low high => exact s.sound_emit (hone h)
  | channelPressure p => exact s.sound_emit (hone h)
  | polyPressure key p => exact s.sound_emit (hone h)
  | systemExclusive bytes => exact s.sound_emit (hone h)
  | controller number value => exact s.sound_emit (hone h)
  | lyric text => exact s.sound_emit (hone trivial)
  | marker text => exact s.sound_emit (hone trivial)
  | layer | bookmark | bookmarkRequest | timeRequest | parsingStarts | parsingEnds | barLine | call
  | notePressed | noteReleased => exact fun call hc => nomatch hc

end Sequencer

namespace Sequence

/-- A sequence from which a replay makes events that a notation can hold. -/
structure Sound (s : Sequence) : Prop where
  built : s.Built
  tracks : s.tracks.length ≤ 16
  events : ∀ t, ∀ e ∈ s.track t, e.event.Sound

theorem length_obeyAll {s : Sequence} {calls : List SinkCall} (hs : s.tracks.length ≤ 16)
    (h : ∀ call ∈ calls, call.Sound) : (s.obeyAll calls).tracks.length ≤ 16 := by
  induction calls generalizing s with
  | nil => exact hs
  | cons call rest ih =>
    obtain ⟨hcall, hrest⟩ := List.forall_mem_cons.mp h
    refine ih ?_ hrest
    cases call with
    | createTrack n =>
      have hn : n < 16 := hcall
      simp only [obey, createTrack, List.length_append, List.length_replicate]
      omega
    | addEvent track tick event =>
      have hn : track < 16 := hcall.1
      simp only [obey, addEvent, createTrack, List.length_modify, List.length_append,
        List.length_replicate]
      omega

theorem mem_added {track : Nat} {calls : List SinkCall} {e : TimedEvent} (h : e ∈ added track calls) :
    SinkCall.addEvent track e.tick e.event ∈ calls := by
  obtain ⟨call, hc, he⟩ := List.mem_filterMap.mp h
  cases call with
  | createTrack n => cases he
  | addEvent n tick event =>
    dsimp only at he
    split at he
    · rename_i hn
      rw [← Option.some.inj he, ← hn]
      exact hc
    · cases he

theorem sound_built (resolution : Nat) {calls : List SinkCall} (h : ∀ call ∈ calls, call.Sound) :
    ((ofResolution resolution).obeyAll calls).Sound := by
  refine ⟨⟨resolution, calls, rfl⟩, length_obeyAll (Nat.zero_le _) h, fun t e he => ?_⟩
  rw [track_built, ofAdded_eq_mergeSort, List.mem_mergeSort] at he
  exact (h _ (mem_added he)).2

end Sequence

section

variable {R : Type} [Scalar R]

theorem Sequencer.sound_start (resolution : Nat) (noteLength : R) :
    ∀ call ∈ (Sequencer.start resolution noteLength).2, call.Sound := by
  intro call hc
  obtain ⟨created, hm, rfl⟩ := List.mem_map.mp hc
  exact sound_setTrack Timeline.start 0 created hm

theorem Sequencer.sound_finish (s : Sequencer R) : ∀ call ∈ s.finish.2, call.Sound := by
  intro call hc
  simp only [finish] at hc
  split at hc
  · cases hc
  · obtain ⟨track, ht, rfl⟩ := List.mem_map.mp hc
    refine ⟨?_, fun event he => absurd he List.not_mem_nil⟩
    simp only [Timeline.createdTracks] at ht
    split at ht
    · rename_i last _
      have := last.isLt
      rw [List.mem_range] at ht
      omega
    · cases ht

/-- The calls that a recorder makes for events, from its start to its end. -/
def Recorder.calls (resolution : Nat) (noteLength : R) (es : List (Event R)) : List SinkCall :=
  let sequencer := (Sequencer.start (max resolution 1) noteLength).1
  (Sequencer.start (max resolution 1) noteLength).2 ++ (sequencer.hearAll es).2 ++
    (sequencer.hearAll es).1.finish.2

theorem Recorder.sequence_finish (resolution : Nat) (noteLength : R) (es : List (Event R)) :
    (es.foldl Recorder.hear (Recorder.start resolution noteLength)).finish.sequence =
      (Sequence.ofResolution resolution).obeyAll (calls resolution noteLength es) := by
  rw [foldl_hear, calls, Sequence.obeyAll_append, Sequence.obeyAll_append]
  rfl

/-- What a text stands for can be told again in a notation. -/
theorem Parser.sound_materialize {strict : Bool} {text : Text} {resolution : Nat} {s : Sequence}
    (h : (Parser.standard.withStrict strict : Parser R).materialize text resolution = .ok s) :
    s.Sound ∧ s.resolution = max resolution 1 := by
  obtain ⟨-, -, hs⟩ := ok_of_map h
  rw [Recorder.sequence_finish] at hs
  subst hs
  refine ⟨Sequence.sound_built resolution fun call hc => ?_, Sequence.resolution_obeyAll _ _⟩
  have hranged : ∀ e ∈ ((Parser.standard.withStrict strict : Parser R).parse text).events, e.Ranged := by
    intro e he
    simp only [Parser.parse, List.mem_cons, List.mem_append, List.not_mem_nil, or_false,
      List.cons_append] at he
    rcases he with rfl | he | rfl
    · trivial
    · exact (Told.readText strict text).ranged e he
    · trivial
  rw [Recorder.calls, List.mem_append, List.mem_append] at hc
  rcases hc with (hc | hc) | hc
  · exact Sequencer.sound_start _ _ call hc
  · exact Sequencer.forall_hearAll (fun s e he => s.sound_hear (hranged e he)) _ call hc
  · exact Sequencer.sound_finish _ call hc

end

end ScoreText
