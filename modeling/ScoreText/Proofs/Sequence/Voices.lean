import ScoreText.Proofs.Sequence.Ending

/-!
Tracks do not see each other. Without bookmarks, what a track gets is what it would get of its own
events alone, so that voices on different tracks can be told one after another or in turns.
-/

set_option autoImplicit false

namespace ScoreText

open Sequence

namespace Event

variable {R : Type}

def isBookmark : Event R → Bool
  | .bookmark _ | .bookmarkRequest _ => true
  | _ => false

/-- The events that are heard on a track, from a current track on. Going to a track is not one of
them. -/
def part (t : Slot) : Slot → List (Event R) → List (Event R)
  | _, [] => []
  | _, .track n :: rest => part t (Slot.ofNat n) rest
  | current, event :: rest => if current = t then event :: part t current rest else part t current rest

/-- The highest track that events go to, from one that there is. -/
def highest (top : Nat) : List (Event R) → Nat
  | [] => top
  | .track n :: rest => highest (max top (Slot.ofNat n).val) rest
  | _ :: rest => highest top rest

theorem part_cons {event : Event R} (h : ∀ n, event ≠ .track n) (t current : Slot)
    (rest : List (Event R)) :
    part t current (event :: rest) =
      if current = t then event :: part t current rest else part t current rest := by
  cases event with
  | track n => exact absurd rfl (h n)
  | _ => rfl

theorem highest_cons {event : Event R} (h : ∀ n, event ≠ .track n) (top : Nat)
    (rest : List (Event R)) : highest top (event :: rest) = highest top rest := by
  cases event with
  | track n => exact absurd rfl (h n)
  | _ => rfl

theorem highest_le {top : Nat} (h : top ≤ 15) (events : List (Event R)) : highest top events ≤ 15 := by
  induction events generalizing top with
  | nil => exact h
  | cons event rest ih =>
    cases event with
    | track n => exact ih (max_le h (Nat.min_le_right n 15))
    | _ => exact ih h

/-- Passages one after another, each on its track. -/
def ofPassages (ps : List (Slot × List (Event R))) : List (Event R) :=
  ps.flatMap fun p => .track p.1.val :: p.2

/-- What the passages on a track come to. -/
def voice (t : Slot) (ps : List (Slot × List (Event R))) : List (Event R) :=
  ps.flatMap fun p => if p.1 = t then p.2 else []

/-- An event of a passage: neither a bookmark nor a request for one, and on the track of the passage. -/
def Stays (e : Event R) : Prop := e.isBookmark = false ∧ ∀ n, e ≠ .track n

theorem part_append {es : List (Event R)} (h : ∀ e ∈ es, e.Stays) (t current : Slot)
    (rest : List (Event R)) :
    part t current (es ++ rest) = (if current = t then es else []) ++ part t current rest := by
  induction es with
  | nil => simp
  | cons e more ih =>
    obtain ⟨he, hmore⟩ := List.forall_mem_cons.mp h
    rw [List.cons_append, part_cons he.2, ih hmore]
    split <;> rfl

theorem part_ofPassages {ps : List (Slot × List (Event R))} (h : ∀ p ∈ ps, ∀ e ∈ p.2, e.Stays)
    (t current : Slot) : part t current (ofPassages ps) = voice t ps := by
  induction ps generalizing current with
  | nil => rfl
  | cons p rest ih =>
    obtain ⟨hp, hrest⟩ := List.forall_mem_cons.mp h
    have hcons : ofPassages (p :: rest) = .track p.1.val :: (p.2 ++ ofPassages rest) := rfl
    rw [hcons, part, Slot.ofNat_val, part_append hp, ih hrest]
    rfl

theorem highest_append {es : List (Event R)} (h : ∀ e ∈ es, e.Stays) (top : Nat)
    (rest : List (Event R)) : highest top (es ++ rest) = highest top rest := by
  induction es with
  | nil => rfl
  | cons e more ih =>
    obtain ⟨he, hmore⟩ := List.forall_mem_cons.mp h
    rw [List.cons_append, highest_cons he.2, ih hmore]

theorem highest_ofPassages_le_iff {ps : List (Slot × List (Event R))}
    (h : ∀ p ∈ ps, ∀ e ∈ p.2, e.Stays) {top k : Nat} :
    highest top (ofPassages ps) ≤ k ↔ top ≤ k ∧ ∀ t ∈ ps.map Prod.fst, t.val ≤ k := by
  induction ps generalizing top with
  | nil => simp [ofPassages, highest]
  | cons p rest ih =>
    obtain ⟨hp, hrest⟩ := List.forall_mem_cons.mp h
    have hcons : ofPassages (p :: rest) = .track p.1.val :: (p.2 ++ ofPassages rest) := rfl
    rw [hcons, highest, Slot.ofNat_val, highest_append hp, ih hrest, List.map_cons,
      List.forall_mem_cons, max_le_iff, and_assoc]

/-- Voices on different tracks are the same in any order. -/
theorem voice_perm {ps qs : List (Slot × List (Event R))} (h : ps.Perm qs)
    (hps : (ps.map Prod.fst).Nodup) (t : Slot) : voice t ps = voice t qs := by
  induction h with
  | nil => rfl
  | cons p _ ih => exact congrArg (_ ++ ·) (ih (List.nodup_cons.mp hps).2)
  | swap p q rest =>
    have hne : q.1 ≠ p.1 := fun hq => (List.nodup_cons.mp hps).1 (hq ▸ List.mem_cons_self)
    simp only [voice, List.flatMap_cons]
    by_cases hp : p.1 = t
    · rw [if_neg fun hq => hne (hq.trans hp.symm)]
      rfl
    · rw [if_neg hp]
      rfl
  | trans h _ ihp ihq => exact (ihp hps).trans (ihq ((h.map Prod.fst).nodup_iff.mp hps))

end Event

namespace Sequencer

variable {R : Type}

/-- Two sequencers that do the same on a track as long as they are on it. -/
structure Agree (t : Slot) (s u : Sequencer R) : Prop where
  resolution : s.resolution = u.resolution
  noteLength : s.noteLength = u.noteLength
  cursors : s.timeline.cursors[t] = u.timeline.cursors[t]
  layer : s.timeline.layers[t] = u.timeline.layers[t]

namespace Agree

variable {t : Slot} {s u : Sequencer R}

theorem cursor (h : Agree t s u) (hs : s.timeline.track = t) (hu : u.timeline.track = t) :
    s.timeline.cursor = u.timeline.cursor := by
  have hcursors := h.cursors
  have hlayer := h.layer
  subst hs
  simp only [Timeline.cursor, Timeline.cursorAt, Timeline.layer, hu]
  simp only [hcursors, hlayer]

theorem withCursor (h : Agree t s u) (hs : s.timeline.track = t) (hu : u.timeline.track = t)
    (c : Cursor R) : Agree t (s.withCursor c) (u.withCursor c) := by
  have hcursors := h.cursors
  have hlayer := h.layer
  subst hs
  refine ⟨h.resolution, h.noteLength, ?_, h.layer⟩
  simp only [Sequencer.withCursor, Timeline.withCursor, Timeline.layer, hu]
  simp [hcursors, hlayer]

/-- A cursor of another track does not matter. -/
theorem withCursor_other (h : Agree t s u) (hs : s.timeline.track ≠ t) (c : Cursor R) :
    Agree t (s.withCursor c) u := by
  refine ⟨h.resolution, h.noteLength, ?_, h.layer⟩
  rw [← h.cursors]
  have hne : s.timeline.track.val ≠ t.val := fun hv => hs (Fin.ext hv)
  simp [Sequencer.withCursor, Timeline.withCursor, hne]

variable [Scalar R]

theorem emitAt (h : Agree t s u) (hs : s.timeline.track = t) (hu : u.timeline.track = t) (time : R)
    (e : SequenceEvent) : s.emitAt time e = u.emitAt time e := by
  simp only [Sequencer.emitAt, channel, tick, hs, hu, h.resolution]

theorem playNote (h : Agree t s u) (hs : s.timeline.track = t) (hu : u.timeline.track = t)
    (n : Note R) :
    (s.playNote n).2 = (u.playNote n).2 ∧ Agree t (s.playNote n).1 (u.playNote n).1 := by
  have hcursor := h.cursor hs hu
  have hchannel : s.channel = u.channel := congrArg Fin.val (hs.trans hu.symm)
  constructor
  · rw [playNote_eq, playNote_eq]
    simp only [sounds, Timeline.place, h.emitAt hs hu, hcursor, h.noteLength, hchannel]
  · have hplaced := h.withCursor hs hu
      ((s.timeline.cursor.approach n).advance (Timeline.lengthOf n s.noteLength))
    have hsame : (u.playNote n).1 = u.withCursor
        ((s.timeline.cursor.approach n).advance (Timeline.lengthOf n s.noteLength)) := by
      rw [hcursor, h.noteLength]
      rfl
    rw [hsame]
    exact hplaced

theorem playNotes (h : Agree t s u) (hs : s.timeline.track = t) (hu : u.timeline.track = t)
    (ns : List (Note R)) :
    (s.playNotes ns).2 = (u.playNotes ns).2 ∧ Agree t (s.playNotes ns).1 (u.playNotes ns).1 := by
  induction ns generalizing s u with
  | nil => exact ⟨rfl, h⟩
  | cons n rest ih =>
    obtain ⟨hcalls, hplayed⟩ := h.playNote hs hu n
    obtain ⟨hmore, hlast⟩ := ih hplayed hs hu
    exact ⟨congrArg₂ (· ++ ·) hcalls hmore, hlast⟩

/-- On the same track they write the same of an event, and agree as before. -/
theorem hear (h : Agree t s u) (hs : s.timeline.track = t) (hu : u.timeline.track = t)
    {event : Event R} (htrack : ∀ n, event ≠ .track n) (hmark : event.isBookmark = false) :
    (s.hear event).2 = (u.hear event).2 ∧ Agree t (s.hear event).1 (u.hear event).1 := by
  have hchannel : s.channel = u.channel := congrArg Fin.val (hs.trans hu.symm)
  cases hw : written? s.channel event with
  | some e =>
    rw [hear_written hw, hear_written (hchannel ▸ hw), Timeline.time, Timeline.time, h.cursor hs hu,
      h.emitAt hs hu]
    exact ⟨rfl, h⟩
  | none =>
    cases event with
    | track n => exact absurd rfl (htrack n)
    | bookmark | bookmarkRequest => cases hmark
    | note n => exact h.playNote hs hu n
    | chord c => exact h.playNotes hs hu c.notes
    | timeRequest time => exact ⟨rfl, h.withCursor hs hu (.atTime time)⟩
    | layer n =>
      refine ⟨rfl, h.resolution, h.noteLength, h.cursors, ?_⟩
      subst hs
      simp only [Sequencer.hear, Timeline.setLayer, hu]
      simp
    | instrument | tempo | keySignature | timeSignature | pitchWheel | channelPressure
    | polyPressure | systemExclusive | controller | lyric | marker => cases hw
    | _ => exact ⟨rfl, h⟩

/-- What one of them hears on another track does not matter. -/
theorem hear_other (h : Agree t s u) (hs : s.timeline.track ≠ t) {event : Event R}
    (htrack : ∀ n, event ≠ .track n) (hmark : event.isBookmark = false) :
    added t (s.hear event).2 = [] ∧ Agree t (s.hear event).1 u := by
  constructor
  · refine List.filterMap_eq_nil_iff.mpr fun call hcall => ?_
    rcases s.writes_hear event call hcall with ⟨n, -, hn, -⟩ | ⟨time, -, e, rfl, -⟩
    · exact absurd hn (htrack n)
    · exact if_neg fun hc => hs (Fin.ext hc)
  · cases event with
    | track n => exact absurd rfl (htrack n)
    | bookmark | bookmarkRequest => cases hmark
    | note n => exact h.withCursor_other hs _
    | chord c =>
      rw [hear_chord_fst]
      exact h.withCursor_other hs _
    | timeRequest time => exact h.withCursor_other hs (.atTime time)
    | layer n =>
      refine ⟨h.resolution, h.noteLength, h.cursors, ?_⟩
      rw [← h.layer]
      have hne : s.timeline.track.val ≠ t.val := fun hv => hs (Fin.ext hv)
      simp [Sequencer.hear, Timeline.setLayer, hne]
    | _ => exact h

/-- A track gets what it would get of its own events alone. -/
theorem hearAll (h : Agree t s u) (hu : u.timeline.track = t) {events : List (Event R)}
    (hmarks : ∀ e ∈ events, e.isBookmark = false) :
    added t (s.hearAll events).2 =
        added t (u.hearAll (Event.part t s.timeline.track events)).2 ∧
      Agree t (s.hearAll events).1 (u.hearAll (Event.part t s.timeline.track events)).1 := by
  induction events generalizing s u with
  | nil => exact ⟨rfl, h⟩
  | cons event rest ih =>
    obtain ⟨hmark, hrest⟩ := List.forall_mem_cons.mp hmarks
    by_cases htrack : ∃ n, event = .track n
    · obtain ⟨n, rfl⟩ := htrack
      have hmoved : Agree t (s.hear (.track n)).1 u := ⟨h.resolution, h.noteLength, h.cursors, h.layer⟩
      obtain ⟨hcalls, hlast⟩ := ih hmoved hu hrest
      have hcreated : added t (s.hear (.track n)).2 = [] := added_createTrack t _
      refine ⟨?_, hlast⟩
      rw [Sequencer.hearAll, added_append, hcreated]
      exact hcalls
    · have htrack : ∀ n, event ≠ .track n := fun n hn => htrack ⟨n, hn⟩
      have hstays := (s.track_hear htrack).1
      rw [Event.part_cons htrack, Sequencer.hearAll, added_append]
      by_cases hs : s.timeline.track = t
      · obtain ⟨hcalls, hheard⟩ := h.hear hs hu htrack hmark
        obtain ⟨hmore, hlast⟩ := ih hheard ((u.track_hear htrack).1.trans hu) hrest
        rw [if_pos hs, Sequencer.hearAll, added_append, hcalls, hmore, hstays]
        exact ⟨rfl, hstays ▸ hlast⟩
      · obtain ⟨hnone, hheard⟩ := h.hear_other hs htrack hmark
        obtain ⟨hmore, hlast⟩ := ih hheard hu hrest
        rw [if_neg hs, hnone, hmore, hstays]
        exact ⟨rfl, hstays ▸ hlast⟩

end Agree

end Sequencer

namespace Timeline

variable {R : Type}

theorem trackCount_setTrack_eq_max (t : Timeline R) (n : Nat) :
    (t.setTrack n).1.trackCount = max t.trackCount ((Slot.ofNat n).val + 1) := by
  have hcreated : (t.setTrack n).2.length = (Slot.ofNat n).val + 1 - t.trackCount :=
    List.length_range'
  have hcount := (t.trackCount_setTrack n).1
  omega

end Timeline

theorem Sequencer.trackCount_hearAll {R : Type} [Scalar R] {s : Sequencer R} {top : Nat}
    (h : s.timeline.trackCount = top + 1) (events : List (Event R)) :
    (s.hearAll events).1.timeline.trackCount = Event.highest top events + 1 := by
  induction events generalizing s top with
  | nil => exact h
  | cons event rest ih =>
    rw [Sequencer.hearAll]
    by_cases htrack : ∃ n, event = .track n
    · obtain ⟨n, rfl⟩ := htrack
      refine ih (s := (s.hear (.track n)).1) ((s.timeline.trackCount_setTrack_eq_max n).trans ?_)
      omega
    · have htrack : ∀ n, event ≠ .track n := fun n hn => htrack ⟨n, hn⟩
      rw [Event.highest_cons htrack]
      refine ih (s := (s.hear event).1) ?_
      rw [Timeline.trackCount, (s.track_hear htrack).2]
      exact h

/-- A sequence is known from its tracks. -/
theorem Sequence.eq_of_tracks {s u : Sequence} (hresolution : s.resolution = u.resolution)
    (hlength : s.tracks.length = u.tracks.length)
    (htracks : ∀ n < s.tracks.length, s.track n = u.track n) : s = u := by
  have hsame : s.tracks = u.tracks := by
    refine List.ext_getElem hlength fun n hs hu => ?_
    have := htracks n hs
    rwa [Sequence.track, Sequence.track, List.getElem?_eq_getElem hs, List.getElem?_eq_getElem hu]
      at this
  cases s
  cases u
  cases hresolution
  cases hsame
  rfl

namespace Recorder

variable {R : Type} [Scalar R] (resolution : Nat) (noteLength : R)

/-- Events with the same part for a track leave the same on it, and take it as far. -/
theorem heard_part {a b : List (Event R)} (ha : ∀ e ∈ a, e.isBookmark = false)
    (hb : ∀ e ∈ b, e.isBookmark = false) {t : Slot} (hpart : Event.part t 0 a = Event.part t 0 b) :
    (heard resolution noteLength a).sequence.track t =
        (heard resolution noteLength b).sequence.track t ∧
      (heard resolution noteLength a).ending t = (heard resolution noteLength b).ending t := by
  obtain ⟨first, hfirst⟩ : ∃ first, first = (start resolution noteLength).sequencer := ⟨_, rfl⟩
  have hzero : first.timeline.track = 0 := by rw [hfirst]; rfl
  -- A sequencer that has been on the track from the start, to hear nothing but the part.
  obtain ⟨alone, halone⟩ : ∃ alone, alone =
      { first with timeline := { first.timeline with track := t } } := ⟨_, rfl⟩
  have hagree : Sequencer.Agree t first alone := by
    rw [halone]
    exact ⟨rfl, rfl, rfl, rfl⟩
  have htrack : alone.timeline.track = t := by rw [halone]
  have halike : ∀ es : List (Event R), (∀ e ∈ es, e.isBookmark = false) →
      (heard resolution noteLength es).sequence.track t =
          (added t (alone.hearAll (Event.part t 0 es)).2).foldl (fun l e => insertEvent e l)
            ((start resolution noteLength).sequence.track t) ∧
        Sequencer.Agree t (heard resolution noteLength es).sequencer
          (alone.hearAll (Event.part t 0 es)).1 := by
    intro es hes
    obtain ⟨hcalls, hlast⟩ := hagree.hearAll htrack hes
    rw [hzero] at hcalls hlast
    rw [heard, foldl_hear, track_obeyAll, ← hfirst, hcalls]
    exact ⟨rfl, hlast⟩
  obtain ⟨htracka, hagreea⟩ := halike a ha
  obtain ⟨htrackb, hagreeb⟩ := halike b hb
  rw [hpart] at htracka hagreea
  refine ⟨htracka.trans htrackb.symm, ?_⟩
  have hlatest : (heard resolution noteLength a).sequencer.timeline.latest t =
      (heard resolution noteLength b).sequencer.timeline.latest t := by
    simp only [Timeline.latest, Slot.ofNat_val, hagreea.cursors, hagreeb.cursors]
  have hresolution : (heard resolution noteLength a).sequencer.resolution =
      (heard resolution noteLength b).sequencer.resolution :=
    hagreea.resolution.trans hagreeb.resolution.symm
  rw [ending, ending, Sequencer.tick, Sequencer.tick, hlatest, hresolution]

theorem length_heard (events : List (Event R)) :
    (heard resolution noteLength events).sequence.tracks.length = Event.highest 0 events + 1 := by
  rw [(running_heard resolution noteLength events).tracks, heard, foldl_hear]
  exact Sequencer.trackCount_hearAll rfl events

theorem sequence_of_parts {a b : List (Event R)} (ha : ∀ e ∈ a, e.isBookmark = false)
    (hb : ∀ e ∈ b, e.isBookmark = false) (htop : Event.highest 0 a = Event.highest 0 b)
    (hparts : ∀ t, Event.part t 0 a = Event.part t 0 b) :
    (heard resolution noteLength a).finish.sequence =
      (heard resolution noteLength b).finish.sequence := by
  obtain ⟨hlengtha, hfinisha⟩ := (running_heard resolution noteLength a).finish
  obtain ⟨hlengthb, hfinishb⟩ := (running_heard resolution noteLength b).finish
  rw [length_heard] at hlengtha hlengthb hfinisha hfinishb
  refine Sequence.eq_of_tracks ?_ (hlengtha.trans (htop ▸ hlengthb.symm)) fun n hn => ?_
  · simp only [finish, after, resolution_obeyAll, heard, foldl_hear]
  · rw [hlengtha] at hn
    obtain ⟨t, rfl⟩ : ∃ t : Slot, t.val = n :=
      ⟨⟨n, (Nat.lt_of_lt_of_le hn (Nat.succ_le_succ (Event.highest_le (Nat.zero_le 15) a)))⟩, rfl⟩
    obtain ⟨htrack, hending⟩ := heard_part resolution noteLength ha hb (hparts t)
    rw [hfinisha t hn, hfinishb t (htop ▸ hn), htrack, hending]

theorem sequence_of_passages {ps qs : List (Slot × List (Event R))}
    (hps : ∀ p ∈ ps, ∀ e ∈ p.2, e.Stays) (hqs : ∀ q ∈ qs, ∀ e ∈ q.2, e.Stays)
    (htracks : ∀ t, t ∈ ps.map Prod.fst ↔ t ∈ qs.map Prod.fst)
    (hvoices : ∀ t, Event.voice t ps = Event.voice t qs) :
    (heard resolution noteLength (Event.ofPassages ps)).finish.sequence =
      (heard resolution noteLength (Event.ofPassages qs)).finish.sequence := by
  have hmarks : ∀ rs : List (Slot × List (Event R)), (∀ r ∈ rs, ∀ e ∈ r.2, e.Stays) →
      ∀ e ∈ Event.ofPassages rs, e.isBookmark = false := by
    intro rs hrs e he
    obtain ⟨r, hr, he⟩ := List.mem_flatMap.mp he
    rcases List.mem_cons.mp he with rfl | he
    · rfl
    · exact (hrs r hr e he).1
  have htop : ∀ k, Event.highest 0 (Event.ofPassages ps) ≤ k ↔
      Event.highest 0 (Event.ofPassages qs) ≤ k := by
    intro k
    rw [Event.highest_ofPassages_le_iff hps, Event.highest_ofPassages_le_iff hqs]
    simp only [htracks]
  refine sequence_of_parts resolution noteLength (hmarks ps hps) (hmarks qs hqs)
    (Nat.le_antisymm ((htop _).mpr (Nat.le_refl _)) ((htop _).mp (Nat.le_refl _))) fun t => ?_
  rw [Event.part_ofPassages hps, Event.part_ofPassages hqs, hvoices t]

/-- Without bookmarks, a recording is known from its highest track and from what is heard on each track.
So voices can be cut into passages that take turns in any way, and those on different tracks be told in
any order, without a change to any track. -/
theorem tracks_keep_apart :
    (∀ a b : List (Event R), (∀ e ∈ a, e.isBookmark = false) → (∀ e ∈ b, e.isBookmark = false) →
        Event.highest 0 a = Event.highest 0 b → (∀ t, Event.part t 0 a = Event.part t 0 b) →
        (heard resolution noteLength a).finish.sequence =
          (heard resolution noteLength b).finish.sequence) ∧
      ∀ ps qs : List (Slot × List (Event R)), (∀ p ∈ ps, ∀ e ∈ p.2, e.Stays) →
        (∀ q ∈ qs, ∀ e ∈ q.2, e.Stays) →
        ((∀ t, t ∈ ps.map Prod.fst ↔ t ∈ qs.map Prod.fst) ∧
            (∀ t, Event.voice t ps = Event.voice t qs) ∨
          ps.Perm qs ∧ (ps.map Prod.fst).Nodup) →
        (heard resolution noteLength (Event.ofPassages ps)).finish.sequence =
          (heard resolution noteLength (Event.ofPassages qs)).finish.sequence := by
  refine ⟨fun a b ha hb htop hparts => sequence_of_parts resolution noteLength ha hb htop hparts,
    fun ps qs hps hqs h => ?_⟩
  obtain ⟨htracks, hvoices⟩ : (∀ t, t ∈ ps.map Prod.fst ↔ t ∈ qs.map Prod.fst) ∧
      ∀ t, Event.voice t ps = Event.voice t qs := by
    rcases h with h | ⟨hperm, hdistinct⟩
    · exact h
    · exact ⟨fun t => (hperm.map Prod.fst).mem_iff, Event.voice_perm hperm hdistinct⟩
  exact sequence_of_passages resolution noteLength hps hqs htracks hvoices

/-- Two notes that sound together. -/
def third : List (Event Rat) :=
  [.note { (Note.ofValue 64).withLength (1 / 2) with isFirst := true },
    .note { (Note.ofValue 67).withLength (1 / 4) with isHarmonic := true }]

/-- A note, and another on a layer of its own. -/
def bass : List (Event Rat) :=
  [.note { (Note.ofValue 36).withLength 1 with isFirst := true }, .layer 1,
    .note { (Note.ofValue 48).withLength (1 / 2) with isFirst := true }]

/-- The third goes on after the bass has come in, which ends after it. -/
def inTurns : List (Event Rat) :=
  third.take 1 ++ .track 2 :: bass.take 2 ++ .track 0 :: third.drop 1 ++ .track 2 :: bass.drop 2

theorem third_and_bass_keep_apart :
    (heard 128 (1 / 4) inTurns).finish.sequence =
        (heard 128 (1 / 4) (.track 2 :: bass ++ .track 0 :: third)).finish.sequence ∧
      (heard 128 (1 / 4) (Event.ofPassages [(0, third), (2, bass)])).finish.sequence =
        (heard 128 (1 / 4) (Event.ofPassages [(2, bass), (0, third)])).finish.sequence ∧
      (heard 128 (1 / 4) inTurns).finish.sequence.tracks =
        [[⟨0, .noteOn 0 64 64⟩, ⟨0, .noteOn 0 67 64⟩, ⟨128, .noteOff 0 67 64⟩, ⟨256, .noteOff 0 64 64⟩,
            ⟨256, .metaEvent 47 []⟩],
          [⟨0, .metaEvent 47 []⟩],
          [⟨0, .noteOn 2 36 64⟩, ⟨0, .noteOn 2 48 64⟩, ⟨256, .noteOff 2 48 64⟩, ⟨512, .noteOff 2 36 64⟩,
            ⟨512, .metaEvent 47 []⟩]] := by
  obtain ⟨hparts, hpassages⟩ := tracks_keep_apart 128 (1 / 4 : Rat)
  refine ⟨hparts _ _ (by decide) (by decide) (by decide) fun t => ?_,
    hpassages _ _ ?_ ?_ (.inr ⟨.swap _ _ _, by decide⟩), by decide +kernel⟩
  · have h0 : Slot.ofNat 0 = 0 := rfl
    have h2 : Slot.ofNat 2 = 2 := rfl
    by_cases hthird : 0 = t
    · subst hthird
      rfl
    · by_cases hbass : 2 = t
      · subst hbass
        rfl
      · simp [inTurns, third, bass, Event.part, h0, h2, hthird, hbass]
  · simp [third, bass, Event.Stays, Event.isBookmark]
  · simp [third, bass, Event.Stays, Event.isBookmark]

end Recorder

end ScoreText
