import ScoreText.Proofs.Notation.Kinds
import ScoreText.Proofs.Sequence.Ranges

/-!
Nothing leaves the range of its message: whatever the settings that pass their check, the symbols and
the chord shapes, all that a parser announces can be sent, and so can all that a sequencer makes of it.
-/

set_option autoImplicit false

namespace ScoreText

variable {R : Type} [Scalar R]

/-- An event whose numbers a message or a player can take. -/
def Event.InRange : Event R → Prop
  | .track n | .layer n => n ≤ 15
  | .instrument n | .channelPressure n => n ≤ maxData
  | .tempo bpm => 1 ≤ bpm
  | .keySignature fifths _ => -7 ≤ fifths ∧ fifths ≤ 7
  | .timeSignature beats power => 1 ≤ beats ∧ power ≤ 7
  | .timeRequest time => ¬ time < ((0 : Nat) : R) ∧ Scalar.isFinite time = true
  | .pitchWheel low high => low ≤ maxData ∧ high ≤ maxData
  | .polyPressure key pressure => key ≤ maxData ∧ pressure ≤ maxData
  | .controller number value => number ≤ maxData ∧ value ≤ maxData
  | .note n | .notePressed n | .noteReleased n => n.Ranged
  | .chord c => c.root.Ranged ∧ ∀ n ∈ c.notes, n.Ranged
  | .parsingStarts | .parsingEnds | .barLine _ | .bookmark _ | .bookmarkRequest _ | .lyric _
  | .marker _ | .systemExclusive _ | .call _ _ => True

/-- An event whose channel and data a channel message can take, if it is one. -/
def SequenceEvent.InRange : SequenceEvent → Prop
  | .noteOn channel note velocity | .noteOff channel note velocity =>
    channel ≤ 15 ∧ note ≤ maxData ∧ velocity ≤ maxData
  | .program channel n | .channelPressure channel n => channel ≤ 15 ∧ n ≤ maxData
  | .control channel a b | .bend channel a b | .polyPressure channel a b =>
    channel ≤ 15 ∧ a ≤ maxData ∧ b ≤ maxData
  | .metaEvent _ _ | .systemExclusive _ => True

def SinkCall.InRange : SinkCall → Prop
  | .createTrack _ => True
  | .addEvent _ _ event => event.InRange

/-- Settings whose velocities a note can have. -/
structure NoteSettings.Sound (s : NoteSettings R) : Prop where
  attack : s.attack ≤ maxData
  decay : s.decay ≤ maxData

theorem Settings.sound_notes {R : Type} {s : Settings R} (h : s.fault? = none) :
    s.reading.notes.Sound := by
  unfold fault? at h
  split at h
  · cases h
  · split at h
    · cases h
    · split at h
      · cases h
      · split at h
        · cases h
        · rename_i hvelocities
          rw [not_or, Nat.not_lt, Nat.not_lt] at hvelocities
          exact ⟨hvelocities.1, hvelocities.2⟩

section Reading

open NoteContext

variable {ctx : NoteContext R}

theorem ranged_chordRoot {R : Type} {ctx : NoteContext R} {m root : Note R} (hm : m.Ranged)
    (h : ctx.chordRoot m = .ok root) : root.Ranged := by
  unfold chordRoot at h
  split at h
  · cases h
    exact hm
  · obtain ⟨value, hvalue, h⟩ := ok_of_bind h
    cases h
    exact ⟨(Event.range_le hvalue).2, hm.attack, hm.decay⟩

theorem ranged_readSuffix {text s rest : Text} {m n : Note R} (hm : m.Ranged)
    (hstarts : m.startsTie = false) (h : readSuffix text m s = .ok (n, rest)) : n.Ranged := by
  have hsuffixed := readSuffix_eq_ok ⟨hm.attack, hm.decay, hstarts⟩ h
  have hvalue : n.value = m.value := by rw [hsuffixed.same]
  exact ⟨hvalue ▸ hm.value, hsuffixed.attack_le, hsuffixed.decay_le⟩

theorem ranged_readElement (hctx : ctx.settings.Sound) {text s rest : Text} {e : Element R}
    (h : ctx.readElement text s = .ok (e, rest)) : e.lead.Ranged := by
  obtain ⟨⟨m, afterTone⟩, htone, h⟩ := ok_of_bind h
  have hread := readTone_eq_ok htone
  have hranged : ({ m with attack := ctx.settings.attack, decay := ctx.settings.decay } :
      Note R).Ranged := ⟨hread.value_le, hctx.attack, hctx.decay⟩
  have hstarts : m.startsTie = false := hread.bare.startsTie
  dsimp only at h
  split at h
  · obtain ⟨⟨n, left⟩, hn, h⟩ := ok_of_bind h
    cases h
    exact ranged_readSuffix hranged hstarts hn
  · obtain ⟨root, hroot, h⟩ := ok_of_bind h
    obtain ⟨⟨inversion, afterInversion⟩, -, h⟩ := ok_of_bind h
    obtain ⟨⟨n, left⟩, hn, h⟩ := ok_of_bind h
    have hlead := ranged_readSuffix (ranged_chordRoot hranged hroot)
      ((startsTie_chordRoot hroot).trans hstarts) hn
    cases h
    cases inversion <;> exact hlead

theorem ranged_join {R : Type} {joint : Joint} {e : Element R} (h : e.lead.Ranged) :
    (join joint e).lead.Ranged := by
  obtain ⟨hvalue, hattack, hdecay⟩ := h
  cases e <;> cases joint <;> exact ⟨hvalue, hattack, hdecay⟩

end Reading

namespace Event

theorem inRange_element {e : Element R} (h : e.lead.Ranged) :
    (Fragment.elementEvent e).InRange := by
  cases e with
  | note n => exact h
  | chord c => exact ⟨h, Chord.ranged_notes h⟩

theorem inRange_notes {ctx : NoteContext R} (hctx : ctx.settings.Sound) {fragment rest : Text}
    {es : List (Event R)} (h : Fragment.readNotes ctx fragment = .ok (es, rest)) :
    ∀ e ∈ es, e.InRange := by
  obtain ⟨⟨elements, left⟩, hread, h⟩ := ok_of_bind h
  cases h
  have hranged := ctx.forall_readJoined fragment (P := fun e => e.lead.Ranged)
    (fun _ _ _ _ _ he => ranged_join (ranged_readElement hctx he)) hread
  exact List.forall_mem_map.mpr fun e he => inRange_element (hranged e he)

theorem inRange_beatTime {fragment rest : Text} {es : List (Event R)}
    (h : Fragment.readBeatTime fragment = .ok (es, rest)) : ∀ e ∈ es, e.InRange := by
  unfold Fragment.readBeatTime at h
  split at h
  · split at h
    · cases h
    · cases h
      exact List.forall_mem_singleton.mpr trivial
  · split at h
    · cases h
    · dsimp only at h
      split at h
      · cases h
      · rename_i hrange
        rw [not_or] at hrange
        cases h
        exact List.forall_mem_singleton.mpr ⟨hrange.1, by simpa using hrange.2⟩

/-- A steady event lies in its range, but that nothing is known of a requested time. -/
theorem Among.inRange {kinds : List EventKind} {e : Event R} (h : e.Among kinds)
    (hkinds : EventKind.timeRequest ∉ kinds) : e.InRange := by
  obtain ⟨⟨still, range, -⟩, kind⟩ := h
  cases e with
  | track n => exact Nat.le_of_lt_succ range
  | layer n => exact Nat.le_of_lt_succ range
  | tempo bpm => exact range.1
  | timeSignature beats power => exact ⟨range.1, Nat.le_of_lt_succ range.2.2⟩
  | timeRequest time => exact absurd kind hkinds
  | note n => cases still
  | chord c => cases still
  | notePressed n => exact range.elim
  | noteReleased n => exact range.elim
  | instrument | channelPressure | keySignature | pitchWheel | polyPressure | controller => exact range
  | parsingStarts | parsingEnds | barLine | bookmark | bookmarkRequest | lyric | marker
  | systemExclusive | call => trivial

theorem inRange_atom {ctx : Context R} (hctx : ctx.dialect.settings.notes.Sound) (fragment : Text) :
    ∀ e ∈ (Fragment.readAtom ctx fragment).1, e.InRange := by
  refine Fragment.forall_atom (fun parts e he => ?_) fun _ _ _ _ hread => inRange_notes hctx hread
  exact (among_parts _ _ _ e he).inRange (by decide)

theorem inRange_read {ctx : Context R} (hctx : ctx.dialect.settings.notes.Sound) (fragment : Text)
    (family : Family) : ∀ e ∈ (family.read ctx fragment).events, e.InRange := by
  cases family with
  | atom => exact inRange_atom hctx fragment
  | note => exact Family.forall_settled fun _ _ h => inRange_notes hctx h
  | beatTime => exact Family.forall_settled fun _ _ h => inRange_beatTime h
  | barLine | selection | tempo | caption | call =>
    exact fun e he => (Family.among_read ctx fragment (by decide) e he).inRange (by decide)
  | signature =>
    rw [Family.read]
    cases hr : (Fragment.readSignature ctx.memory fragment :
        Except Error (List (Event R) × Memory × Text)) with
    | error _ => simp
    | ok reading =>
      obtain ⟨es, memory, rest⟩ := reading
      rcases signature_cases hr with ⟨hmeter, -, -⟩ | ⟨key, rfl, -⟩
      · exact fun e he => (hmeter e he).inRange (by decide)
      · exact List.forall_mem_singleton.mpr key.within

end Event

namespace Sequencer

theorem channel_le {R : Type} (s : Sequencer R) : s.channel ≤ 15 := Nat.le_of_lt_succ s.channel_lt

variable (s : Sequencer R)

theorem inRange_playNote {n : Note R} (h : n.Ranged) : ∀ call ∈ (s.playNote n).2, call.InRange := by
  intro call hc
  obtain ⟨tick, rfl | rfl⟩ := mem_playNote hc
  · exact ⟨s.channel_le, h.value, h.attack⟩
  · exact ⟨s.channel_le, h.value, h.decay⟩

theorem inRange_emit {event : SequenceEvent} (h : event.InRange) :
    ∀ call ∈ (s.emit event).2, call.InRange :=
  List.forall_mem_singleton.mpr h

/-- A sequencer makes channel messages of events that lie in their ranges. -/
theorem inRange_hear {e : Event R} (h : e.InRange) : ∀ call ∈ (s.hear e).2, call.InRange := by
  cases e with
  | track n =>
    intro call hc
    obtain ⟨created, -, rfl⟩ := List.mem_map.mp hc
    trivial
  | note n => exact s.inRange_playNote h
  | chord c => exact forall_playNotes (fun s n hn => s.inRange_playNote (h.2 n hn)) s
  | instrument | channelPressure | pitchWheel | polyPressure | controller =>
    exact s.inRange_emit ⟨s.channel_le, h⟩
  | tempo | keySignature | timeSignature | systemExclusive | lyric | marker =>
    exact s.inRange_emit trivial
  | layer | bookmark | bookmarkRequest | timeRequest | parsingStarts | parsingEnds | barLine | call
  | notePressed | noteReleased => exact fun call hc => nomatch hc

end Sequencer

/-- Whatever the text, the symbols, the chord shapes, the state of the parser and the settings that
pass their check: all that the parser announces lies in its range, also where it fails later on, and a
sequencer that listens makes events of it whose channel and data lie in theirs. -/
theorem Parser.parse_in_range (settings : Settings R) (hsettings : settings.fault? = none)
    (p : Parser R) (hp : p.dialect.settings = settings.reading) (text : Text) :
    (∀ e ∈ (p.parse text).events, e.InRange) ∧
      ∀ s : Sequencer R, ∀ call ∈ (s.hearAll (p.parse text).events).2, call.InRange := by
  have hsound : p.dialect.settings.notes.Sound := hp ▸ Settings.sound_notes hsettings
  have hevents : ∀ e ∈ (p.parse text).events, e.InRange := by
    have hread : ∀ e ∈ (p.readText text).events, e.InRange :=
      forall_readText fun _ _ _ t family _ => Event.inRange_read hsound t family
    refine List.forall_mem_append.mpr ⟨List.forall_mem_cons.mpr ⟨trivial, hread⟩, ?_⟩
    exact List.forall_mem_singleton.mpr trivial
  exact ⟨hevents, Sequencer.forall_hearAll fun s e he => s.inRange_hear (hevents e he)⟩

/-- Settings at the ends of their ranges. -/
def Settings.extreme : Settings Rat where
  reading := ⟨false, ⟨10, 0, 1 / 4, 127, 0, true⟩⟩
  playing := .standard

/-- A parser with these settings, a name for a number that no message takes, and a chord that is more
than two octaves wide. -/
def Parser.extreme : Parser Rat :=
  .ofDialect { Dialect.ofSettings Settings.extreme.reading with
    chords := ⟨[("WIDE".toList, ⟨[['1'], "##15".toList]⟩)]⟩
    symbols := Symbols.define .empty "HUGE".toList 2147483647 }

/-- The chord stands on the highest note there is, and reading ends at the name. -/
theorem Parser.wideChord_in_range :
    Settings.extreme.fault? = none ∧ Parser.extreme.dialect.settings = Settings.extreme.reading ∧
      (Parser.extreme.parse "V15 G10wide^ I[HUGE] C".toList).events.map Event.kind =
        [.parsingStarts, .track, .chord, .parsingEnds] ∧
      (∀ e ∈ (Parser.extreme.parse "V15 G10wide^ I[HUGE] C".toList).events, e.InRange) ∧
      ∀ call ∈ ((Sequencer.start 128 (1 / 4 : Rat)).1.hearAll
        (Parser.extreme.parse "V15 G10wide^ I[HUGE] C".toList).events).2, call.InRange := by
  have hsettings : Settings.extreme.fault? = none := by decide +kernel
  obtain ⟨hevents, hcalls⟩ := Parser.parse_in_range Settings.extreme hsettings Parser.extreme rfl
    "V15 G10wide^ I[HUGE] C".toList
  exact ⟨hsettings, rfl, by decide +kernel, hevents, hcalls _⟩

end ScoreText
