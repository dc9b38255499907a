import ScoreText.Proofs.Sequence.Retuning

/-!
A text, the sequence that it stands for, this sequence written as a notation, and the sequence that
the notation stands for: the same notes come out just when no key changes the name of any of them.
-/

set_option autoImplicit false

namespace ScoreText

open NoteContext Sequence

/-- A caption that a notation can hold; other events have none. -/
def Event.Captioned {R : Type} : Event R → Prop
  | .lyric text => Expansion.Captioned '&' text
  | .marker text => Expansion.Captioned '!' text
  | _ => True

instance {R : Type} (e : Event R) : Decidable e.Captioned :=
  match e with
  | .lyric text => inferInstanceAs (Decidable (Expansion.Captioned '&' text))
  | .marker text => inferInstanceAs (Decidable (Expansion.Captioned '!' text))
  | .parsingStarts | .parsingEnds | .track _ | .layer _ | .instrument _ | .tempo _
  | .keySignature _ _ | .timeSignature _ _ | .barLine _ | .bookmark _ | .bookmarkRequest _
  | .timeRequest _ | .pitchWheel _ _ | .channelPressure _ | .polyPressure _ _ | .systemExclusive _
  | .controller _ _ | .note _ | .chord _ | .call _ _ | .notePressed _ | .noteReleased _ =>
    isTrue trivial

namespace Replay

section

variable {key : Key} {track power n : Nat} {gs : List Group}

theorem certain_tell (hgs : ∀ g ∈ gs, g.Playable) (hn : n < 16) (resolution : Nat) :
    Event.AllCertain key track (tell resolution n gs) ↔ tuneGroups? n key gs = some gs := by
  cases gs with
  | nil => exact iff_of_true trivial rfl
  | cons g rest =>
    have hmod : n % 256 = n := Nat.mod_eq_of_lt (by omega)
    have hcertain : Event.AllCertain key n (groupEvents resolution 0 (g :: rest) : List (Event Rat)) ↔
        tuneGroups? n key (g :: rest) = some (g :: rest) := certain_groups hgs 0
    rw [tell, Event.AllCertain, Event.trackAfter, hmod, ← hcertain]
    · exact and_iff_right trivial
    · exact List.cons_ne_nil g rest

/-- What is written of a track is read as tuning has it. -/
theorem retold_tell (key : Key) (track power : Nat) (hgs : ∀ g ∈ gs, g.Playable)
    (htold : ∀ g ∈ gs, ∀ e ∈ g.told, e.Notable) (hn : n < 16) :
    Retold key track (tell (2 ^ power) n gs) ((tuneGroups? n key gs).map (tell (2 ^ power) n)) := by
  cases gs with
  | nil => exact .nil key track
  | cons g rest =>
    have hmod : n % 256 = n := Nat.mod_eq_of_lt (by omega)
    have htrack : Retold key track [.track (n % 256)] (some [.track (n % 256)]) :=
      .single (.track (by rw [hmod]; exact hn)) key track
    have hgroups : Retold key (n % 256) (groupEvents (2 ^ power) 0 (g :: rest))
        ((tuneGroups? n key (g :: rest)).map (groupEvents (2 ^ power) 0)) := by
      rw [hmod]
      exact retold_groups key n power hgs htold 0
    have hall := htrack.append hgroups
    have htell : ∀ g rest, tell (2 ^ power) n (g :: rest) =
        [.track (n % 256)] ++ groupEvents (2 ^ power) 0 (g :: rest) := fun _ _ => rfl
    rw [htell]
    convert hall using 1
    cases htuned : tuneGroups? n key (g :: rest) with
    | none => rfl
    | some tuned =>
      obtain ⟨ns, more, -, -, rfl⟩ := tuneGroups?_cons htuned
      rfl

end

/-- The key in force where the events of a track begin. -/
def keyOn (s : Sequence) (t : Nat) : Key :=
  Event.keyAfterAll .cMajor ((List.range t).flatMap (trackEvents s) : List (Event Rat))

/-- The groups of a track, tuned by the keys that are read before them. -/
def tuned? (s : Sequence) (t : Nat) : Option (List Group) :=
  tuneGroups? t (keyOn s t) (groupsOf (s.track t))

/-- What a track has become, if it can be read at all. -/
def retuned (s : Sequence) (t : Nat) : List Group := (tuned? s t).getD []

/-- The events of the first tracks, tuned. -/
def tellTuned? (s : Sequence) : Nat → Option (List (Event Rat))
  | 0 => some []
  | n + 1 => do
    let before ← tellTuned? s n
    let after ← (tuned? s n).map (tell s.resolution n)
    return before ++ after

theorem tellTuned?_eq_some {s : Sequence} {n : Nat} {es : List (Event Rat)}
    (h : tellTuned? s n = some es) : (∀ t < n, tuned? s t = some (retuned s t)) ∧
      es = (List.range n).flatMap fun t => tell s.resolution t (retuned s t) := by
  induction n generalizing es with
  | zero =>
    obtain rfl := Option.some.inj h
    exact ⟨fun t ht => absurd ht (Nat.not_lt_zero t), rfl⟩
  | succ n ih =>
    obtain ⟨before, hbefore, h⟩ := Option.bind_eq_some_iff.mp h
    obtain ⟨after, hafter, h⟩ := Option.bind_eq_some_iff.mp h
    obtain ⟨last, hlast, rfl⟩ := Option.map_eq_some_iff.mp hafter
    obtain ⟨htuned, rfl⟩ := ih hbefore
    have hretuned : retuned s n = last := by rw [retuned, hlast, Option.getD_some]
    refine ⟨fun t ht => ?_, ?_⟩
    · rcases Nat.lt_or_eq_of_le (Nat.le_of_lt_succ ht) with ht | rfl
      · exact htuned t ht
      · rw [hretuned, hlast]
    · rw [List.range_succ, List.flatMap_append, List.flatMap_singleton, hretuned]
      exact (Option.some.inj h).symm

theorem tellTuned?_of_forall {s : Sequence} {n : Nat}
    (h : ∀ t < n, tuned? s t = some (retuned s t)) : tellTuned? s n =
      some ((List.range n).flatMap fun t => tell s.resolution t (retuned s t)) := by
  induction n with
  | zero => rfl
  | succ n ih =>
    rw [tellTuned?, ih fun t ht => h t (Nat.lt_succ_of_lt ht), h n (Nat.lt_succ_self n),
      List.range_succ, List.flatMap_append, List.flatMap_singleton]
    rfl

/-- Every track has one reading where tuning leaves all of them as they are. -/
theorem certain_tracks {s : Sequence} (hgs : ∀ t, ∀ g ∈ groupsOf (s.track t), g.Playable) {n : Nat}
    (hn : n ≤ 16) :
    Event.AllCertain .cMajor 0 ((List.range n).flatMap (trackEvents s) : List (Event Rat)) ↔
      ∀ t < n, tuned? s t = some (groupsOf (s.track t)) := by
  induction n with
  | zero => exact iff_of_true trivial fun t ht => absurd ht (Nat.not_lt_zero t)
  | succ n ih =>
    rw [List.range_succ, List.flatMap_append, List.flatMap_singleton, Event.allCertain_append,
      ih (Nat.le_of_succ_le hn), trackEvents_eq, certain_tell (hgs n) hn]
    refine ⟨fun ⟨hbefore, hlast⟩ t ht => ?_, fun h => ⟨fun t ht => h t (Nat.lt_succ_of_lt ht), ?_⟩⟩
    · rcases Nat.lt_or_eq_of_le (Nat.le_of_lt_succ ht) with ht | rfl
      · exact hbefore t ht
      · exact hlast
    · exact h n (Nat.lt_succ_self n)

/-- What is written of the tracks is read as tuning has it. -/
theorem retold_tracks {s : Sequence} {power : Nat} (hres : s.resolution = 2 ^ power)
    (hgs : ∀ t, ∀ g ∈ groupsOf (s.track t), g.Playable)
    (htold : ∀ t, ∀ g ∈ groupsOf (s.track t), ∀ e ∈ g.told, e.Notable) {n : Nat} (hn : n ≤ 16) :
    Retold .cMajor 0 ((List.range n).flatMap (trackEvents s)) (tellTuned? s n) := by
  induction n with
  | zero => exact .nil .cMajor 0
  | succ n ih =>
    have hlast := retold_tell (keyOn s n)
      (Event.trackAfterAll 0 ((List.range n).flatMap (trackEvents s) : List (Event Rat))) power
      (hgs n) (htold n) hn
    rw [← hres, ← trackEvents_eq] at hlast
    rw [List.range_succ, List.flatMap_append, List.flatMap_singleton]
    exact (ih (Nat.le_of_succ_le hn)).append hlast

theorem sound_opening {e : TimedEvent} {o : OpenNote} (h : opening? e = some o)
    (hs : e.event.Sound) : o.note ≤ maxData ∧ o.attack ≤ maxData := by
  obtain ⟨tick, event⟩ := e
  cases event with
  | noteOn channel note velocity =>
    obtain rfl := Option.some.inj h
    exact hs
  | _ => cases h

theorem sound_ending {e : TimedEvent} {f : SequencedNote.Ending} (h : ending? e = some f)
    (hs : e.event.Sound) : f.decay ≤ maxData := by
  obtain ⟨tick, event⟩ := e
  cases event with
  | noteOff channel note velocity =>
    obtain rfl := Option.some.inj h
    exact hs.2
  | _ => cases h

section

variable {s : Sequence}

theorem playable_notes (hs : s.Sound) {t : Nat} (lasts : ∀ n ∈ s.notes t, n.start < n.finish) :
    ∀ n ∈ s.notes t, Playable n := by
  intro n hn
  have hpair : n ∈ pairFrom [] (s.track t) := List.mem_mergeSort.mp hn
  have hopening := (opening_subperm [] (s.track t)).subset (List.mem_map_of_mem hpair)
  have hending := (ending_sublist [] (s.track t)).subset (List.mem_map_of_mem hpair)
  rw [List.nil_append] at hopening
  obtain ⟨first, hfirst, hon⟩ := List.mem_filterMap.mp hopening
  obtain ⟨last, hlast, hoff⟩ := List.mem_filterMap.mp hending
  obtain ⟨hnote, hattack⟩ := sound_opening hon (hs.events t first hfirst)
  exact ⟨lasts n hn, hnote, hattack, sound_ending hoff (hs.events t last hlast)⟩

theorem source_of_told {t : Nat} (hs : s.Sound) {g : Group} (hg : g ∈ groupsOf (s.track t))
    {source : SequenceEvent} (h : source ∈ g.events) : source.Sound := by
  have hfaithful := faithful_groupsOf (hs.built.sorted t)
  have hmem : (⟨g.tick, source⟩ : TimedEvent) ∈ others (s.track t) := by
    rw [← hfaithful.events]
    exact List.mem_flatMap.mpr ⟨g, hg, List.mem_map_of_mem h⟩
  exact hs.events t _ (List.mem_of_mem_filter hmem)

theorem tellable_of_sound {source : SequenceEvent} (h : source.Sound) :
    ∀ e ∈ (eventsOf source : List (Event Rat)), e.Tellable := by
  cases source with
  | noteOn | noteOff => simp [eventsOf]
  | _ => exact h

theorem told_subset (resolution cursor : Nat) {gs : List Group} (hgs : ∀ g ∈ gs, g.Playable)
    {g : Group} (hg : g ∈ gs) {e : Event Rat} (he : e ∈ g.told) :
    e ∈ (groupEvents resolution cursor gs : List (Event Rat)) := by
  induction gs generalizing cursor with
  | nil => cases hg
  | cons a rest ih =>
    obtain ⟨ha, hrest⟩ := List.forall_mem_cons.mp hgs
    rw [groupEvents_cons ha]
    rcases List.mem_cons.mp hg with rfl | hg
    · exact List.mem_append_right _ (List.mem_append_left _ he)
    · exact List.mem_append_right _ (List.mem_append_right _ (List.mem_append_right _ (ih _ hrest hg)))

theorem mem_events_of_told {t : Nat} (hgs : ∀ g ∈ groupsOf (s.track t), g.Playable) {g : Group}
    (hg : g ∈ groupsOf (s.track t)) {e : Event Rat} (he : e ∈ g.told) :
    e ∈ (events s : List (Event Rat)) := by
  have ht : t < s.tracks.length := by
    refine Nat.lt_of_not_le fun hle => ?_
    rw [track_eq_nil hle, groupsOf_nil] at hg
    cases hg
  have htrack : e ∈ (trackEvents s t : List (Event Rat)) := by
    have hmem := told_subset s.resolution 0 hgs hg he
    rw [trackEvents_eq]
    cases hgroups : groupsOf (s.track t) with
    | nil =>
      rw [hgroups] at hg
      cases hg
    | cons a rest =>
      rw [hgroups] at hmem
      exact List.mem_cons_of_mem _ hmem
  refine List.mem_append_left _ (List.mem_cons_of_mem _ ?_)
  exact List.mem_flatMap.mpr ⟨t, List.mem_range.mpr ht, htrack⟩

/-- All that is told of a sequence besides its notes can be written as a notation. -/
theorem notable_told (hs : s.Sound) {t : Nat} (hgs : ∀ g ∈ groupsOf (s.track t), g.Playable)
    (captioned : ∀ e ∈ (events s : List (Event Rat)), e.Captioned) :
    ∀ g ∈ groupsOf (s.track t), ∀ e ∈ g.told, e.Notable := by
  intro g hg e he
  obtain ⟨source, hsource, hevent⟩ := List.mem_flatMap.mp he
  have htellable := tellable_of_sound (source_of_told hs hg hsource) e hevent
  have hcaptioned := captioned e (mem_events_of_told hgs hg he)
  obtain ⟨still, -, legible⟩ := still_told g e he
  have hwritten := written_eventsOf 0 source e hevent
  cases hverbal : e.isVerbal with
  | false => exact Event.notable_of_tellable htellable still hverbal legible
  | true =>
    cases e with
    | lyric text => exact .lyric hcaptioned
    | marker text => exact .marker hcaptioned
    | bookmark | bookmarkRequest | call => cases hwritten
    | _ => cases hverbal

end

end Replay

open Replay

/-- The strokes of a track that a recorder writes when it hears something that sounds like groups. -/
theorem Recorder.openings_calls {resolution n : Nat} (hr : 0 < resolution) {gs : Nat → List Group}
    (hgs : ∀ t, ∀ g ∈ gs t, g.Playable) (hn : n ≤ 16) (hnone : ∀ t, n ≤ t → gs t = [])
    {back : List (Event Rat)}
    (h : Event.AllSound ((List.range n).flatMap fun t => tell resolution t (gs t)) back)
    (noteLength : Rat) (t : Nat) :
    (added t (Recorder.calls resolution noteLength (.parsingStarts :: back ++ [.parsingEnds]))).filterMap
        opening? = ((gs t).flatMap Group.notes).map SequencedNote.opening ∧
      (added t (Recorder.calls resolution noteLength (.parsingStarts :: back ++ [.parsingEnds]))).filterMap
        ending? = ((gs t).flatMap Group.notes).map SequencedNote.ending := by
  obtain ⟨es, hes⟩ : ∃ es : List (Event Rat),
      es = (List.range n).flatMap fun t => tell resolution t (gs t) := ⟨_, rfl⟩
  obtain ⟨start, hstart⟩ : ∃ start : Sequencer Rat,
      start = (Sequencer.start (max resolution 1) noteLength).1 := ⟨_, rfl⟩
  have hres : start.resolution = resolution := by
    rw [hstart]
    simp only [Sequencer.start]
    omega
  have hends : ∀ e : Event Rat, e.isVerbal = false → Event.AllSound [e] [e] := fun e he =>
    .cons (.same he) .nil
  have hall : Event.AllSound (.parsingStarts :: es ++ [.parsingEnds])
      (.parsingStarts :: back ++ [.parsingEnds]) :=
    ((hends .parsingStarts rfl).append (hes ▸ h)).append (hends .parsingEnds rfl)
  have hlike : start.Like start := ⟨start.timeline.bookmarks, rfl⟩
  have hstrokes := (Sequencer.sounds_hearAll hlike hall).2 t
  have hadded := added_tell (s := start) (hres ▸ hr) (hstart ▸ fresh_start _ noteLength) hgs hn hnone t
  rw [hres, ← hes] at hadded
  obtain ⟨hon, hoff⟩ := filterMap_strokesOn t (start.hearAll (.parsingStarts :: back ++ [.parsingEnds])).2
  obtain ⟨hon', hoff'⟩ := filterMap_strokesOn t (start.hearAll (.parsingStarts :: es ++ [.parsingEnds])).2
  rw [hstrokes] at hon hoff
  rw [hadded] at hon' hoff'
  obtain ⟨hopens, hcloses⟩ := openings_retold t (gs t)
  have hcreated : added t (Sequencer.start (max resolution 1) noteLength).2 = [] :=
    added_createTrack t _
  obtain ⟨hnone, hnone'⟩ := openings_metas
    (Recorder.added_finish (start.hearAll (.parsingStarts :: back ++ [.parsingEnds])).1 t)
  rw [Recorder.calls, ← hstart, added_append, added_append, hcreated, List.nil_append,
    List.filterMap_append, List.filterMap_append, hnone, hnone', List.append_nil, List.append_nil]
  exact ⟨hon.symm.trans (hon'.trans hopens), hoff.symm.trans (hoff'.trans hcloses)⟩

section

variable {R : Type} [Scalar R] {p : Parser R} {text : Text}

theorem Parser.materialize_ok {es : List (Event R)} (h : Scored.Comes (p.parse text) (.ok es))
    (resolution : Nat) : p.materialize text resolution = .ok ((ofResolution resolution).obeyAll
      (Recorder.calls resolution p.dialect.settings.notes.length es)) := by
  rw [Parser.materialize, h.2, h.1, Except.map, Recorder.sequence_finish]

theorem Parser.materialize_error {e : Error} (h : Scored.Comes (p.parse text) (.error e))
    (resolution : Nat) : p.materialize text resolution = .error e := by
  rw [Parser.materialize, (h : (p.parse text).result = .error e)]
  rfl

end

/-- The tone of a note, when it starts and when it ends. -/
def SequencedNote.span (n : SequencedNote) : Nat × Nat × Nat := (n.note, n.start, n.finish)

namespace Replay

variable {s : Sequence} {power : Nat}

theorem retold_events (hs : s.Sound) (hres : s.resolution = 2 ^ power)
    (hgs : ∀ t, ∀ g ∈ groupsOf (s.track t), g.Playable)
    (captioned : ∀ e ∈ (events s : List (Event Rat)), e.Captioned) :
    Retold .cMajor 0 (events s) (tellTuned? s s.tracks.length) := by
  obtain ⟨fs, gs, result, hscored, hanswers⟩ := retold_tracks hres hgs
    (fun t => notable_told hs (hgs t) captioned) hs.tracks
  exact ⟨fs, gs, result, .silent rfl rfl hscored.ended, hanswers⟩

theorem playable_retuned {t : Nat} (hgs : ∀ g ∈ groupsOf (s.track t), g.Playable) :
    ∀ g ∈ retuned s t, g.Playable := by
  unfold retuned
  cases h : tuned? s t with
  | none => simp
  | some tuned => exact playable_tuneGroups? hgs h

theorem retuned_nil {t : Nat} (ht : s.tracks.length ≤ t) : retuned s t = [] := by
  rw [retuned, tuned?, track_eq_nil ht, groupsOf_nil]
  rfl

/-- If the tuned tones are tones, the notation of a sequence stands for the tuned groups. -/
theorem materialize_tuned (hs : s.Sound) (hres : s.resolution = 2 ^ power)
    (hgs : ∀ t, ∀ g ∈ groupsOf (s.track t), g.Playable)
    (captioned : ∀ e ∈ (events s : List (Event Rat)), e.Captioned)
    (htuned : ∀ t < s.tracks.length, tuned? s t = some (retuned s t)) : ∃ calls,
    (Parser.standard : Parser Rat).materialize (Pattern.ofEvents (events s : List (Event Rat))).text
        (2 ^ power) = .ok ((ofResolution (2 ^ power)).obeyAll calls) ∧
      ∀ t, (added t calls).filterMap opening? =
          ((retuned s t).flatMap Group.notes).map SequencedNote.opening ∧
        (added t calls).filterMap ending? =
          ((retuned s t).flatMap Group.notes).map SequencedNote.ending := by
  obtain ⟨fs, gs, result, hscored, hanswers⟩ := retold_events hs hres hgs captioned
  rw [tellTuned?_of_forall htuned, hres] at hanswers
  cases hanswers with
  | ok hall =>
    have hcomes := hscored.parse false
    rw [Parser.withStrict_false] at hcomes
    exact ⟨_, Parser.materialize_ok hcomes _, Recorder.openings_calls (Nat.two_pow_pos power)
      (fun t => playable_retuned (hgs t)) hs.tracks (fun t => retuned_nil) hall _⟩

/-- If the notation of a sequence stands for anything, the tuned tones are tones. -/
theorem tuned_of_materialize (hs : s.Sound) (hres : s.resolution = 2 ^ power)
    (hgs : ∀ t, ∀ g ∈ groupsOf (s.track t), g.Playable)
    (captioned : ∀ e ∈ (events s : List (Event Rat)), e.Captioned) {again : Sequence}
    (h : (Parser.standard : Parser Rat).materialize
      (Pattern.ofEvents (events s : List (Event Rat))).text (2 ^ power) = .ok again) :
    ∀ t < s.tracks.length, tuned? s t = some (retuned s t) := by
  obtain ⟨fs, gs, result, hscored, hanswers⟩ := retold_events hs hres hgs captioned
  cases htell : tellTuned? s s.tracks.length with
  | some es => exact (tellTuned?_eq_some htell).1
  | none =>
    rw [htell] at hanswers
    cases hanswers with
    | error e =>
      have hcomes := hscored.parse false
      rw [Parser.withStrict_false] at hcomes
      rw [Parser.materialize_error hcomes] at h
      cases h

theorem certain_events (hs : s.Sound) (hgs : ∀ t, ∀ g ∈ groupsOf (s.track t), g.Playable) :
    Event.AllCertain .cMajor 0 (events s : List (Event Rat)) ↔
      ∀ t < s.tracks.length, tuned? s t = some (groupsOf (s.track t)) := by
  rw [← certain_tracks hgs hs.tracks, events, List.cons_append, Event.AllCertain,
    Event.allCertain_append]
  exact ⟨fun h => h.2.1, fun h => ⟨trivial, h, trivial, trivial⟩⟩

/-- Notes that keep their tones and their ticks have been tuned to themselves. -/
theorem retuned_of_spans {t : Nat} (hs : s.Sound) {es : List TimedEvent}
    (htuned : tuned? s t = some (retuned s t))
    (hopen : es.filterMap opening? = ((retuned s t).flatMap Group.notes).map SequencedNote.opening)
    (hspans : (notesOf (ofAdded es)).map SequencedNote.span = (s.notes t).map SequencedNote.span) :
    retuned s t = groupsOf (s.track t) := by
  have hfaithful := faithful_groupsOf (hs.built.sorted t)
  have hplaces : (notesOf (ofAdded es)).map place = (s.notes t).map place := by
    have := congrArg (List.map fun p => (p.1, p.2.1)) hspans
    rwa [List.map_map, List.map_map] at this
  have hlength : ((retuned s t).flatMap Group.notes).length = (notesOf (ofAdded es)).length := by
    have hstarts := congrArg List.length (starts_tuneGroups? htuned)
    have hspans := congrArg List.length hspans
    rw [List.length_map, List.length_map] at hstarts hspans
    rw [hstarts, hfaithful.notes, hspans, notes_eq_notesOf]
  have hpair : ((pairFrom [] (ofAdded es)).map SequencedNote.opening).Perm
      (((retuned s t).flatMap Group.notes).map SequencedNote.opening) := by
    have hsub := opening_subperm [] (ofAdded es)
    have hperm : ((ofAdded es).filterMap opening?).Perm (es.filterMap opening?) := by
      rw [ofAdded_eq_mergeSort]
      exact (List.mergeSort_perm _ _).filterMap _
    rw [List.nil_append] at hsub
    refine (hsub.trans (hopen ▸ hperm).subperm).perm_of_length_le ?_
    rw [List.length_map, List.length_map, hlength, notesOf, List.length_mergeSort]
  have hperm : ((groupsOf (s.track t)).flatMap Group.notes |>.map place).Perm
      (((retuned s t).flatMap Group.notes).map place) := by
    have hnotes : ((notesOf (ofAdded es)).map place).Perm ((pairFrom [] (ofAdded es)).map place) :=
      (List.mergeSort_perm _ _).map place
    have hopened := hpair.map fun o => (o.note, o.start)
    rw [List.map_map, List.map_map] at hopened
    rw [hfaithful.notes, ← notes_eq_notesOf, ← hplaces]
    exact hnotes.trans hopened
  exact tuneGroups?_of_perm hfaithful.ascending hfaithful.starts htuned hperm

end Replay

/-- Written as a notation the sequence is read again, with the same notes on every track. -/
def Sequence.ComesBack (s : Sequence) : Prop :=
  ∃ again, (Parser.standard : Parser Rat).materialize
      (Pattern.ofEvents (Replay.events s : List (Event Rat))).text 128 = .ok again ∧
    ∀ t, (again.notes t).map SequencedNote.span = (s.notes t).map SequencedNote.span

namespace Parser

/-- The sequence that a text stands for comes back from a notation just when all of its notes have one
reading there: when the key in force adds nothing to the common names of their tones. -/
theorem materialize_rewritten {R : Type} [Scalar R] {text : Text} {s : Sequence}
    (read : (Parser.standard : Parser R).materialize text 128 = .ok s)
    (lasts : ∀ t, ∀ n ∈ s.notes t, n.start < n.finish)
    (captioned : ∀ e ∈ (Replay.events s : List (Event Rat)), e.Captioned) :
    s.ComesBack ↔ Event.AllCertain .cMajor 0 (Replay.events s : List (Event Rat)) := by
  rw [← withStrict_false] at read
  obtain ⟨hs, hres⟩ := sound_materialize read
  have hpower : s.resolution = 2 ^ 7 := hres
  have hgs : ∀ t, ∀ g ∈ groupsOf (s.track t), g.Playable := fun t =>
    playable_groupsOf (hs.built.sorted t) (playable_notes hs (lasts t))
  rw [certain_events hs hgs]
  constructor
  · rintro ⟨again, hagain, hspans⟩ t ht
    have htuned := tuned_of_materialize hs hpower hgs captioned hagain
    obtain ⟨calls, hcalls, hstrokes⟩ := materialize_tuned hs hpower hgs captioned htuned
    obtain rfl := Except.ok.inj (hagain.symm.trans hcalls)
    have hspan := hspans t
    rw [notes_eq_notesOf, track_built] at hspan
    rw [htuned t ht, retuned_of_spans hs (htuned t ht) (hstrokes t).1 hspan]
  · intro htuned
    have hretuned : ∀ t, retuned s t = groupsOf (s.track t) := by
      intro t
      by_cases ht : t < s.tracks.length
      · rw [retuned, htuned t ht, Option.getD_some]
      · rw [retuned_nil (Nat.le_of_not_lt ht), track_eq_nil (Nat.le_of_not_lt ht), groupsOf_nil]
    obtain ⟨calls, hcalls, hstrokes⟩ := materialize_tuned hs hpower hgs captioned
      fun t ht => by rw [hretuned, htuned t ht]
    refine ⟨_, hcalls, fun t => congrArg (List.map SequencedNote.span) ?_⟩
    obtain ⟨hopen, hend⟩ := hstrokes t
    rw [hretuned, (faithful_groupsOf (hs.built.sorted t)).notes] at hopen hend
    rw [notes_eq_notesOf, track_built, notes_eq_notesOf]
    exact notesOf_rewritten (hs.built.sorted t) hopen hend (lasts t)

/-- The sequence of a text over exact fractions. -/
def heard (text : Text) : Sequence :=
  (((Parser.standard : Parser Rat).parse text).events.foldl Recorder.hear
    (Recorder.start 128 (Parser.standard : Parser Rat).dialect.settings.notes.length)).finish.sequence

theorem materialize_heard (text : Text)
    (h : ((Parser.standard : Parser Rat).parse text).result = .ok ()) :
    (Parser.standard : Parser Rat).materialize text 128 = .ok (heard text) := by
  rw [Parser.materialize, h]
  rfl

theorem lasts_of_tracks {s : Sequence}
    (h : ∀ t < s.tracks.length, ∀ n ∈ s.notes t, n.start < n.finish) :
    ∀ t, ∀ n ∈ s.notes t, n.start < n.finish := by
  intro t n hn
  refine h t (Nat.lt_of_not_le fun ht => ?_) n hn
  rw [notes_eq_notesOf, track_eq_nil ht, notesOf, List.mem_mergeSort] at hn
  cases hn

/-- G and A come back from G major, but a natural F is read as F sharp there. -/
theorem natural_respelled :
    let step := "KEY:GMAJ G5Q V1 A5H &LA".toList
    let natural := "KEY:GMAJ FN5Q".toList
    ((Parser.standard : Parser Rat).materialize step 128 = .ok (heard step) ∧ (heard step).ComesBack) ∧
      (Parser.standard : Parser Rat).materialize natural 128 = .ok (heard natural) ∧
        ¬ (heard natural).ComesBack := by
  intro step natural
  have hstep := materialize_heard step rfl
  have hnatural := materialize_heard natural rfl
  have hback := materialize_rewritten hstep (lasts_of_tracks (by decide +kernel)) (by decide +kernel)
  have hlost := materialize_rewritten hnatural (lasts_of_tracks (by decide +kernel)) (by decide +kernel)
  exact ⟨⟨hstep, hback.mpr (by decide +kernel)⟩, hnatural, fun h => absurd (hlost.mp h) (by decide +kernel)⟩

end Parser

end ScoreText
