import ScoreText.Proofs.Live.Sounding
import ScoreText.Proofs.Sequence.InStep

/-!
Notes that are tied to nothing come out of a recording as they were placed. Requests for earlier times
and other layers put a note among those that are on its track already; wherever it goes, its on comes
before its off, so that every note-off still finds a note of its pitch open and none stays open.
-/

set_option autoImplicit false

namespace ScoreText

open Stable Sequence SequencedNote

namespace Sequence

/-- With so many notes of a pitch open at first, each note-off of the pitch finds one open, and in the
end there is none. -/
inductive Closes (p : Nat) : Nat → List TimedEvent → Prop where
  | done : Closes p 0 []
  | on {k : Nat} {e : TimedEvent} {o : OpenNote} {rest : List TimedEvent} (ho : opening? e = some o)
    (hp : o.note = p) (h : Closes p (k + 1) rest) : Closes p k (e :: rest)
  | off {k : Nat} {e : TimedEvent} {f : Ending} {rest : List TimedEvent} (hf : ending? e = some f)
    (hp : f.note = p) (h : Closes p k rest) : Closes p (k + 1) (e :: rest)
  | pass {k : Nat} {e : TimedEvent} {rest : List TimedEvent}
    (ho : ∀ o, opening? e = some o → o.note ≠ p) (hf : ∀ f, ending? e = some f → f.note ≠ p)
    (h : Closes p k rest) : Closes p k (e :: rest)

theorem ending?_of_opening? {e : TimedEvent} {o : OpenNote} (h : opening? e = some o) :
    ending? e = none := by
  obtain ⟨tick, event⟩ := e
  cases event <;> first | rfl | cases h

/-- An event goes to the front, or behind the first of the others. -/
theorem insertEvent_cases (e : TimedEvent) (m : List TimedEvent) :
    insertEvent e m = e :: m ∨
      ∃ g rest, m = g :: rest ∧ g.tick ≤ e.tick ∧ insertEvent e m = g :: insertEvent e rest := by
  cases m with
  | nil => exact .inl rfl
  | cons g rest =>
    by_cases hg : g.tick ≤ e.tick
    · exact .inr ⟨g, rest, rfl, hg, if_pos hg⟩
    · exact .inl (if_neg hg)

namespace Closes

variable {p k : Nat} {e : TimedEvent} {l rest : List TimedEvent}

/-- Whatever closes a pitch from the front of a list, or else leaves its first event where it is and
goes on behind it, closes the pitch. -/
theorem insert {d : Nat} (h : Closes p k l) (ins : List TimedEvent → List TimedEvent)
    (hins : ∀ k m, Closes p k m →
      Closes p (d + k) (ins m) ∨ ∃ g rest, m = g :: rest ∧ ins m = g :: ins rest) :
    Closes p (d + k) (ins l) := by
  induction h with
  | done => exact (hins 0 [] .done).resolve_right fun ⟨_, _, hm, _⟩ => nomatch hm
  | on ho hp h ih =>
    rcases hins _ _ (.on ho hp h) with hfront | ⟨g, rest, hm, hpast⟩
    · exact hfront
    · cases hm
      exact hpast ▸ .on ho hp ih
  | off hf hp h ih =>
    rcases hins _ _ (.off hf hp h) with hfront | ⟨g, rest, hm, hpast⟩
    · exact hfront
    · cases hm
      exact hpast ▸ .off hf hp ih
  | pass ho hf h ih =>
    rcases hins _ _ (.pass ho hf h) with hfront | ⟨g, rest, hm, hpast⟩
    · exact hfront
    · cases hm
      exact hpast ▸ .pass ho hf ih

/-- What is no stroke of the pitch can go anywhere. -/
theorem insert_pass (h : Closes p k l) (ho : ∀ o, opening? e = some o → o.note ≠ p)
    (hf : ∀ f, ending? e = some f → f.note ≠ p) : Closes p k (insertEvent e l) := by
  have := h.insert (d := 0) (insertEvent e) fun k m hm => (insertEvent_cases e m).imp
    (fun hfront => by rw [hfront, Nat.zero_add]; exact .pass ho hf hm)
    (fun ⟨g, rest, hg, _, hpast⟩ => ⟨g, rest, hg, hpast⟩)
  rwa [Nat.zero_add] at this

/-- One more note that is open needs one more note-off, wherever that goes. -/
theorem insert_off {f : Ending} (h : Closes p k l) (hf : ending? e = some f) (hp : f.note = p) :
    Closes p (k + 1) (insertEvent e l) := by
  have := h.insert (d := 1) (insertEvent e) fun k m hm => (insertEvent_cases e m).imp
    (fun hfront => by rw [hfront, Nat.add_comm]; exact .off hf hp hm)
    (fun ⟨g, rest, hg, _, hpast⟩ => ⟨g, rest, hg, hpast⟩)
  rwa [Nat.add_comm] at this

/-- A note that ends no earlier than it begins can go anywhere, at the tick of others too: its off goes
behind whatever its on goes behind. -/
theorem insert_strokes {on off : TimedEvent} {o : OpenNote} {f : Ending} (h : Closes p k l)
    (ho : opening? on = some o) (hf : ending? off = some f) (hop : o.note = p) (hfp : f.note = p)
    (hle : on.tick ≤ off.tick) : Closes p k (insertEvent off (insertEvent on l)) := by
  have := h.insert (d := 0) (fun m => insertEvent off (insertEvent on m)) fun k m hm =>
    (insertEvent_cases on m).imp
      (fun hfront => by
        rw [hfront, insertEvent, if_pos hle, Nat.zero_add]
        exact .on ho hop (hm.insert_off hf hfp))
      (fun ⟨g, rest, hg, htick, hpast⟩ =>
        ⟨g, rest, hg, by rw [hpast, insertEvent, if_pos (htick.trans hle)]⟩)
  rwa [Nat.zero_add] at this

theorem of_on {o : OpenNote} (h : Closes p k (e :: rest)) (ho : opening? e = some o) :
    Closes p (if o.note = p then k + 1 else k) rest := by
  cases h with
  | on hg hp h =>
    rw [← Option.some.inj (hg.symm.trans ho), if_pos hp]
    exact h
  | off hf =>
    rw [ending?_of_opening? ho] at hf
    cases hf
  | pass hon _ h =>
    rw [if_neg (hon o ho)]
    exact h

theorem of_off {f : Ending} (h : Closes p k (e :: rest)) (hf : ending? e = some f) :
    if f.note = p then ∃ j, k = j + 1 ∧ Closes p j rest else Closes p k rest := by
  cases h with
  | on ho =>
    rw [ending?_of_opening? ho] at hf
    cases hf
  | off hg hp h =>
    rw [← Option.some.inj (hg.symm.trans hf), if_pos hp]
    exact ⟨_, rfl, h⟩
  | pass _ hoff h =>
    rw [if_neg (hoff f hf)]
    exact h

theorem of_pass (h : Closes p k (e :: rest)) (ho : opening? e = none) (hf : ending? e = none) :
    Closes p k rest := by
  cases h with
  | on hg => rw [ho] at hg; cases hg
  | off hg => rw [hf] at hg; cases hg
  | pass _ _ h => exact h

/-- At the end nothing is open. -/
theorem eq_nil {opened : List OpenNote} (h : ∀ p, Closes p (openOf p opened).length []) : opened = [] := by
  refine List.eq_nil_iff_forall_not_mem.mpr fun o ho => ?_
  have hlength : (openOf o.note opened).length = 0 := by
    generalize hk : (openOf o.note opened).length = k
    cases hk ▸ h o.note
    rfl
  exact absurd (List.mem_filter.mpr ⟨ho, beq_self_eq_true o.note⟩)
    (List.eq_nil_iff_forall_not_mem.mp (List.length_eq_zero_iff.mp hlength) o)

end Closes

/-- When every pitch closes, every note that is open or begins comes out once, and every note-off ends
one. -/
theorem pairFrom_of_closes {opened : List OpenNote} {es : List TimedEvent}
    (h : ∀ p, Closes p (openOf p opened).length es) :
    ((pairFrom opened es).map opening).Perm (opened ++ es.filterMap opening?) ∧
      (pairFrom opened es).map ending = es.filterMap ending? := by
  induction es generalizing opened with
  | nil =>
    rw [Closes.eq_nil h]
    exact ⟨.nil, rfl⟩
  | cons e rest ih =>
    rcases pairFrom_cons opened e rest with
      ⟨o, ho, he, hpair⟩ | ⟨f, o, others, ho, he, -, htake, hpair⟩ |
        ⟨f, ho, he, htake, hpair⟩ | ⟨ho, he, hpair⟩
    · have hcloses : ∀ p, Closes p (openOf p (opened ++ [o])).length rest := by
        intro p
        have := (h p).of_on ho
        rw [openOf, List.filter_append, List.length_append]
        by_cases hp : o.note = p <;> simpa [hp, openOf] using this
      have hrest := ih hcloses
      rw [List.append_assoc] at hrest
      rw [hpair, List.filterMap_cons_some ho, List.filterMap_cons_none he]
      exact hrest
    · obtain ⟨hnote, hsame, hother, hperm⟩ := takeOpen?_eq_some htake
      have hcloses : ∀ p, Closes p (openOf p others).length rest := by
        intro p
        have := (h p).of_off he
        by_cases hp : f.note = p
        · subst hp
          rw [if_pos rfl, hsame] at this
          obtain ⟨j, hj, hrest⟩ := this
          rwa [Nat.succ.inj hj]
        · rwa [if_neg hp, hother p fun hq => hp hq.symm] at this
      obtain ⟨hopenings, hendings⟩ := ih hcloses
      rw [hpair, List.filterMap_cons_none ho, List.filterMap_cons_some he, List.map_cons,
        List.map_cons, opening_ended hnote, hendings]
      exact ⟨(hopenings.cons o).trans (hperm.symm.append_right _), rfl⟩
    · have := (h f.note).of_off he
      rw [if_pos rfl, takeOpen?_eq_none.mp htake] at this
      obtain ⟨j, hj, -⟩ := this
      cases hj
    · rw [hpair, List.filterMap_cons_none ho, List.filterMap_cons_none he]
      exact ih fun p => (h p).of_pass ho he

/-- A note that comes out ends no earlier than it begins. -/
theorem start_le_finish_pairFrom {opened : List OpenNote} {es : List TimedEvent} (hs : Sorted es)
    (h : ∀ o ∈ opened, ∀ e ∈ es, o.start ≤ e.tick) :
    ∀ n ∈ pairFrom opened es, n.start ≤ n.finish := by
  induction es generalizing opened with
  | nil => exact fun n hn => nomatch hn
  | cons e rest ih =>
    have hrest : ∀ o ∈ opened, ∀ f ∈ rest, o.start ≤ f.tick :=
      fun o ho f hf => h o ho f (List.mem_cons_of_mem e hf)
    rcases pairFrom_cons opened e rest with
      ⟨o, ho, -, hpair⟩ | ⟨f, o, others, -, -, hfinish, htake, hpair⟩ | ⟨f, -, -, -, hpair⟩ |
        ⟨-, -, hpair⟩
    · rw [hpair]
      refine ih (sorted_tail hs) fun q hq f hf => ?_
      rcases List.mem_append.mp hq with hq | hq
      · exact hrest q hq f hf
      · rw [List.mem_singleton.mp hq, start_of_opening? ho]
        exact le_of_mem_tail hs hf
    · have hperm := (takeOpen?_eq_some htake).2.2.2
      rw [hpair]
      refine List.forall_mem_cons.mpr ⟨?_, ih (sorted_tail hs) fun q hq => ?_⟩
      · rw [hfinish]
        exact h o (hperm.mem_iff.mpr List.mem_cons_self) e List.mem_cons_self
      · exact hrest q (hperm.mem_iff.mpr (List.mem_cons_of_mem o hq))
    · rw [hpair]
      exact ih (sorted_tail hs) hrest
    · rw [hpair]
      exact ih (sorted_tail hs) hrest

theorem insertEvent_perm (e : TimedEvent) (l : List TimedEvent) : (insertEvent e l).Perm (e :: l) := by
  induction l with
  | nil => exact .refl _
  | cons f rest ih =>
    rw [insertEvent]
    split
    · exact (ih.cons f).trans (.swap e f rest)
    · exact .refl _

/-- What is neither a note-on nor a note-off changes nothing about the notes. -/
theorem pairFrom_insertEvent {e : TimedEvent} (ho : opening? e = none) (hf : ending? e = none)
    (opened : List OpenNote) (l : List TimedEvent) :
    pairFrom opened (insertEvent e l) = pairFrom opened l := by
  have hskip : ∀ (opened : List OpenNote) (m : List TimedEvent),
      pairFrom opened (e :: m) = pairFrom opened m := by
    intro opened m
    rcases pairFrom_cons opened e m with ⟨o, h, -⟩ | ⟨f, o, others, -, h, -⟩ | ⟨f, -, h, -⟩ |
      ⟨-, -, h⟩
    · rw [ho] at h; cases h
    · rw [hf] at h; cases h
    · rw [hf] at h; cases h
    · exact h
  induction l generalizing opened with
  | nil => exact hskip opened []
  | cons g rest ih =>
    rw [insertEvent]
    split
    · obtain ⟨tick, event⟩ := g
      cases event with
      | noteOff channel note velocity =>
        simp only [pairFrom]
        cases takeOpen? note opened with
        | none => exact ih opened
        | some found => exact congrArg _ (ih found.2)
      | _ => exact ih _
    · exact hskip opened (g :: rest)

theorem notes_obeyAll {s : Sequence} {calls : List SinkCall} {n : Nat}
    (h : ∀ e ∈ added n calls, opening? e = none ∧ ending? e = none) :
    (s.obeyAll calls).notes n = s.notes n := by
  have hsame : ∀ (es l : List TimedEvent), (∀ e ∈ es, opening? e = none ∧ ending? e = none) →
      pairFrom [] (es.foldl (fun l e => insertEvent e l) l) = pairFrom [] l := by
    intro es
    induction es with
    | nil => exact fun _ _ => rfl
    | cons e rest ih =>
      intro l hes
      obtain ⟨⟨ho, hf⟩, hrest⟩ := List.forall_mem_cons.mp hes
      exact (ih _ hrest).trans (pairFrom_insertEvent ho hf [] l)
  rw [notes_eq_notesOf, notes_eq_notesOf, track_obeyAll, notesOf, notesOf, hsame _ _ h]

/-- A track on which the strokes are those of some notes, and every note-off finds a note to end. -/
structure Sounds (l : List TimedEvent) (ns : List SequencedNote) : Prop where
  sorted : Sorted l
  closes : ∀ p, Closes p 0 l
  openings : (l.filterMap opening?).Perm (ns.map opening)
  endings : (l.filterMap ending?).Perm (ns.map ending)

namespace Sounds

variable {l : List TimedEvent} {ns : List SequencedNote}

theorem nil : Sounds [] [] := ⟨.nil, fun _ => .done, .nil, .nil⟩

theorem insert_other (h : Sounds l ns) {e : TimedEvent} (ho : opening? e = none)
    (hf : ending? e = none) : Sounds (insertEvent e l) ns := by
  have hperm := insertEvent_perm e l
  refine ⟨h.sorted.insertEvent e, fun p => (h.closes p).insert_pass ?_ ?_, ?_, ?_⟩
  · simp [ho]
  · simp [hf]
  · refine (hperm.filterMap opening?).trans ?_
    rw [List.filterMap_cons_none ho]
    exact h.openings
  · refine (hperm.filterMap ending?).trans ?_
    rw [List.filterMap_cons_none hf]
    exact h.endings

theorem insert_others (h : Sounds l ns) {es : List TimedEvent}
    (hes : ∀ e ∈ es, Replay.isNote e.event = false) :
    Sounds (es.foldl (fun l e => insertEvent e l) l) ns := by
  induction es generalizing l with
  | nil => exact h
  | cons e rest ih =>
    obtain ⟨he, hrest⟩ := List.forall_mem_cons.mp hes
    obtain ⟨ho, hf⟩ := Replay.opening?_of_isNote he
    exact ih (h.insert_other ho hf) hrest

theorem insert_note (h : Sounds l ns) (channel : Nat) {n : SequencedNote} (hn : n.start ≤ n.finish) :
    Sounds ((Replay.strokes channel n).foldl (fun l e => insertEvent e l) l) (ns ++ [n]) := by
  obtain ⟨on, hon⟩ : ∃ on : TimedEvent, on = ⟨n.start, .noteOn channel n.note n.attack⟩ := ⟨_, rfl⟩
  obtain ⟨off, hoff⟩ : ∃ off : TimedEvent, off = ⟨n.finish, .noteOff channel n.note n.decay⟩ := ⟨_, rfl⟩
  have hopening : opening? on = some n.opening := by rw [hon]; rfl
  have hending : ending? off = some n.ending := by rw [hoff]; rfl
  have honly : ending? on = none ∧ opening? off = none := by
    rw [hon, hoff]
    exact ⟨rfl, rfl⟩
  have hle : on.tick ≤ off.tick := by
    rw [hon, hoff]
    exact hn
  have hperm : (insertEvent off (insertEvent on l)).Perm (off :: on :: l) :=
    (insertEvent_perm off _).trans ((insertEvent_perm on l).cons off)
  have hstrokes : (Replay.strokes channel n).foldl (fun l e => insertEvent e l) l =
      insertEvent off (insertEvent on l) := by
    rw [hon, hoff]
    rfl
  rw [hstrokes]
  refine ⟨(h.sorted.insertEvent on).insertEvent off, fun p => ?_, ?_, ?_⟩
  · by_cases hp : n.note = p
    · exact (h.closes p).insert_strokes hopening hending hp hp hle
    · refine ((h.closes p).insert_pass ?_ ?_).insert_pass ?_ ?_
      · rw [hopening]
        exact fun o ho => Option.some.inj ho ▸ hp
      · simp [honly.1]
      · simp [honly.2]
      · rw [hending]
        exact fun f hf => Option.some.inj hf ▸ hp
  · refine (hperm.filterMap opening?).trans ?_
    rw [List.filterMap_cons_none honly.2, List.filterMap_cons_some hopening, List.map_append]
    exact (h.openings.cons n.opening).trans (List.perm_append_singleton _ _).symm
  · refine (hperm.filterMap ending?).trans ?_
    rw [List.filterMap_cons_some hending, List.filterMap_cons_none honly.1, List.map_append]
    exact (h.endings.cons n.ending).trans (List.perm_append_singleton _ _).symm

theorem insert_notes (h : Sounds l ns) (channel : Nat) {more : List SequencedNote}
    (hmore : ∀ n ∈ more, n.start ≤ n.finish) :
    Sounds ((more.flatMap (Replay.strokes channel)).foldl (fun l e => insertEvent e l) l)
      (ns ++ more) := by
  induction more generalizing l ns with
  | nil =>
    rw [List.append_nil]
    exact h
  | cons n rest ih =>
    obtain ⟨hn, hrest⟩ := List.forall_mem_cons.mp hmore
    have := ih (h.insert_note channel hn) hrest
    rwa [List.append_assoc] at this

/-- The notes found on such a track begin and end as those that it sounds. -/
theorem notes (h : Sounds l ns) :
    ((notesOf l).map opening).Perm (l.filterMap opening?) ∧
      ((notesOf l).map ending).Perm (l.filterMap ending?) ∧
      ∀ n ∈ notesOf l, n.start ≤ n.finish := by
  have hsort : (notesOf l).Perm (pairFrom [] l) := List.mergeSort_perm _ _
  have hcloses : ∀ p, Closes p (openOf p []).length l := h.closes
  obtain ⟨hopenings, hendings⟩ := pairFrom_of_closes hcloses
  refine ⟨(hsort.map opening).trans hopenings, ?_, fun n hn => ?_⟩
  · rw [← hendings]
    exact hsort.map ending
  · have hnone : ∀ o ∈ ([] : List OpenNote), ∀ e ∈ l, o.start ≤ e.tick := List.forall_mem_nil _
    exact start_le_finish_pairFrom h.sorted hnone n (hsort.mem_iff.mp hn)

end Sounds

end Sequence

namespace Sequencer

variable {R : Type} [Scalar R]

/-- The note that a placed one comes to in ticks, unless it is a rest. -/
def sounding? (s : Sequencer R) (n : Note R) (p : Placement R) : Option SequencedNote :=
  if n.isRest then none else some ⟨n.value, n.attack, n.decay, s.tick p.start, s.tick p.finish⟩

/-- What notes come to that are placed one after another. -/
def soundings (s : Sequencer R) (ns : List (Note R)) : List SequencedNote :=
  (ns.zip (s.timeline.placements s.noteLength ns)).filterMap fun x => s.sounding? x.1 x.2

/-- The notes that events place on a track, each one of a chord for itself. -/
def placedOn (track : Nat) : Sequencer R → List (Event R) → List SequencedNote
  | _, [] => []
  | s, event :: rest =>
    (if s.channel = track then s.soundings event.placed else []) ++
      placedOn track (s.hear event).1 rest

theorem soundings_cons (s : Sequencer R) (n : Note R) (rest : List (Note R)) :
    s.soundings (n :: rest) =
      (s.sounding? n (s.timeline.place n (Timeline.lengthOf n s.noteLength)).2).toList ++
        (s.playNote n).1.soundings rest := by
  have hcons : s.soundings (n :: rest) =
      ((n, (s.timeline.place n (Timeline.lengthOf n s.noteLength)).2) ::
        rest.zip ((s.playNote n).1.timeline.placements s.noteLength rest)).filterMap
          fun x => s.sounding? x.1 x.2 := rfl
  rw [hcons, List.filterMap_cons]
  cases s.sounding? n (s.timeline.place n (Timeline.lengthOf n s.noteLength)).2 <;> rfl

/-- A note that is tied to nothing is written with both its strokes. -/
theorem playNote_untied (s : Sequencer R) {n : Note R} (h : n.Untied) :
    (s.playNote n).2 =
      ((s.sounding? n (s.timeline.place n (Timeline.lengthOf n s.noteLength)).2).toList.flatMap
        (Replay.strokes s.channel)).map (addition s.channel) := by
  rw [playNote_eq]
  cases hr : n.isRest with
  | true => simp [sounds, sounding?, hr]
  | false => simp [sounds, sounding?, hr, h.1, h.2, Replay.strokes, emitAt_eq_addition]

theorem playNotes_untied (s : Sequencer R) {ns : List (Note R)} (h : ∀ n ∈ ns, n.Untied) :
    (s.playNotes ns).2 =
      ((s.soundings ns).flatMap (Replay.strokes s.channel)).map (addition s.channel) := by
  induction ns generalizing s with
  | nil => rfl
  | cons n rest ih =>
    obtain ⟨hn, hrest⟩ := List.forall_mem_cons.mp h
    rw [playNotes_cons, playNote_untied s hn, ih (s.playNote n).1 hrest, soundings_cons, List.flatMap_append,
      List.map_append]
    rfl

theorem start_le_finish_soundings {s : Sequencer Rat} (h : 0 ≤ s.noteLength) (ns : List (Note Rat)) :
    ∀ m ∈ s.soundings ns, m.start ≤ m.finish := by
  induction ns generalizing s with
  | nil => exact fun m hm => nomatch hm
  | cons n rest ih =>
    rw [soundings_cons, List.forall_mem_append]
    refine ⟨fun m hm => ?_, ih (s := (s.playNote n).1) h⟩
    simp only [sounding?] at hm
    split at hm
    · cases hm
    · rw [List.mem_singleton.mp hm]
      exact Scalar.ordered_rat.ofBeats_mono _ (le_add_of_nonneg_right (Timeline.lengthOf_nonneg n h))

end Sequencer

theorem Event.Untied.placed {event : Event Rat} (h : event.Untied) : ∀ m ∈ event.placed, m.Untied := by
  cases event with
  | note m => exact List.forall_mem_singleton.mpr h
  | chord c => exact Chord.untied_notes h
  | _ => exact List.forall_mem_nil _

namespace Recorder

variable {r : Recorder Rat} {n : Nat} {ns : List SequencedNote}

/-- An event adds the notes that it places to those that a track sounds. -/
theorem sounds_hear (h : Sounds (r.sequence.track n) ns) (hlength : 0 ≤ r.sequencer.noteLength)
    {event : Event Rat} (hevent : event.Untied) :
    Sounds ((r.hear event).sequence.track n)
      (ns ++ if r.sequencer.channel = n then r.sequencer.soundings event.placed else []) := by
  have htrack : (r.hear event).sequence.track n = (added n (r.sequencer.hear event).2).foldl
      (fun l e => insertEvent e l) (r.sequence.track n) := track_obeyAll _ _ _
  rw [htrack]
  rcases r.sequencer.hear_strokes event with hcalls | ⟨hplaced, hother⟩
  · rw [hcalls, Sequencer.playNotes_untied _ hevent.placed, added_addition]
    by_cases hn : r.sequencer.channel = n
    · rw [if_pos hn, if_pos hn]
      exact h.insert_notes _ (Sequencer.start_le_finish_soundings hlength event.placed)
    · rw [if_neg hn, if_neg hn, List.append_nil]
      exact h
  · have hnone : r.sequencer.soundings [] = [] := rfl
    rw [hplaced, hnone, ite_self, List.append_nil]
    exact h.insert_others (hother n)

theorem sounds_foldl (h : Sounds (r.sequence.track n) ns) (hlength : 0 ≤ r.sequencer.noteLength)
    {events : List (Event Rat)} (hevents : ∀ e ∈ events, e.Untied) :
    Sounds ((events.foldl hear r).sequence.track n) (ns ++ r.sequencer.placedOn n events) := by
  induction events generalizing r ns with
  | nil =>
    rw [Sequencer.placedOn, List.append_nil]
    exact h
  | cons event rest ih =>
    obtain ⟨hevent, hrest⟩ := List.forall_mem_cons.mp hevents
    have hafter : 0 ≤ (r.hear event).sequencer.noteLength := by
      rw [show (r.hear event).sequencer = (r.sequencer.hear event).1 from rfl,
        Sequencer.noteLength_hear]
      exact hlength
    have hall := ih (sounds_hear h hlength hevent) hafter hrest
    rw [List.append_assoc] at hall
    exact hall

/-- Whatever is heard of notes that are tied to nothing, at whatever times and on whatever layers, each
note that is placed on a track comes out of it once, and ends no earlier than it begins. Every note-on
of the track begins one of them and every note-off ends one, whether or not the recording is ended. -/
theorem notes_as_placed (resolution : Nat) {noteLength : Rat} (hlength : 0 ≤ noteLength)
    {events : List (Event Rat)} (hevents : ∀ e ∈ events, e.Untied) (n : Nat) :
    let r := heard resolution noteLength events
    let placed := (start resolution noteLength).sequencer.placedOn n events
    (r.sequence.notes n).length = placed.length ∧
      ((r.sequence.notes n).map opening).Perm (placed.map opening) ∧
      ((r.sequence.notes n).map opening).Perm ((r.sequence.track n).filterMap opening?) ∧
      ((r.sequence.notes n).map SequencedNote.ending).Perm (placed.map SequencedNote.ending) ∧
      ((r.sequence.notes n).map SequencedNote.ending).Perm ((r.sequence.track n).filterMap ending?) ∧
      (∀ note ∈ r.sequence.notes n, note.start ≤ note.finish) ∧
      r.finish.sequence.notes n = r.sequence.notes n := by
  intro r placed
  have hempty : (start resolution noteLength).sequence.track n = [] :=
    List.eq_nil_iff_forall_not_mem.mpr (not_mem_track_start resolution noteLength n)
  have hstart : Sounds ((start resolution noteLength).sequence.track n) [] := hempty ▸ .nil
  have hsounds : Sounds (r.sequence.track n) placed := sounds_foldl hstart hlength hevents
  obtain ⟨hopenings, hendings, hle⟩ := hsounds.notes
  have hplaced : ((r.sequence.notes n).map opening).Perm (placed.map opening) :=
    hopenings.trans hsounds.openings
  refine ⟨by simpa using hplaced.length_eq, hplaced, hopenings, hendings.trans hsounds.endings,
    hendings, hle, notes_obeyAll fun e he => ?_⟩
  obtain ⟨kind, data, hmeta⟩ := added_finish r.sequencer n e he
  exact Replay.opening?_of_isNote (hmeta ▸ rfl)

/-- A note that is still open when its pitch is struck again at its tick, twice, once for no time at
all; a chord on another layer; a rest on another track. -/
def crossing : List (Event Rat) :=
  [.track 1, .note { ((Note.ofValue 60).withLength (1 / 2)).withVelocities 90 20 with isFirst := true },
    .layer 1, .note { Note.ofValue 60 with isFirst := true }, .timeRequest (1 / 4),
    .chord Sequencer.joinedTriad, .track 0, .note { (Note.rest 1) with isFirst := true }, .track 1,
    .layer 0, .timeRequest 0, .note { (Note.ofValue 60).withLength (1 / 8) with isFirst := true }]

theorem crossing_as_placed :
    let r := heard 128 0 crossing
    (start 128 0).sequencer.placedOn 1 crossing =
        [⟨60, 90, 20, 0, 256⟩, ⟨60, 64, 64, 0, 0⟩, ⟨48, 64, 64, 128, 256⟩, ⟨52, 64, 64, 128, 256⟩,
          ⟨55, 64, 64, 128, 256⟩, ⟨60, 64, 64, 0, 64⟩] ∧
      (r.sequence.notes 1).length = 6 ∧ (r.sequence.notes 0).length = 0 ∧
      ∀ note ∈ r.sequence.notes 1, note.start ≤ note.finish := by
  intro r
  have huntied : ∀ e ∈ crossing, e.Untied := by decide
  obtain ⟨hlength, -, -, -, -, hle, -⟩ := notes_as_placed 128 (le_refl 0) huntied 1
  obtain ⟨hrest, -⟩ := notes_as_placed 128 (le_refl 0) huntied 0
  exact ⟨by decide +kernel, hlength.trans (by decide +kernel), hrest.trans (by decide +kernel), hle⟩

end Recorder

end ScoreText
