import ScoreText.Proofs.Sequence.Rewriting

/-!
What is read of a replay that has been written as a notation: the same groups, tuned by the keys that
are read with them, or an error where a tone is out of range then.
-/

set_option autoImplicit false

namespace ScoreText

open NoteContext Sequence

/-- The result of a reading, beside what is expected of it: both are there, and alike, or neither. -/
inductive Answers {α β : Type} (like : β → α → Prop) : Option β → Except Error α → Prop where
  | ok {b : β} {a : α} (h : like b a) : Answers like (some b) (.ok a)
  | error (e : Error) : Answers like none (.error e)

namespace Answers

variable {α β γ δ : Type} {like : β → α → Prop} {like' : δ → γ → Prop} {expected : Option β}
  {result : Except Error α}

theorem bind {f : β → Option δ} {g : α → Except Error γ} (h : Answers like expected result)
    (hnext : ∀ b a, like b a → Answers like' (f b) (g a)) :
    Answers like' (expected >>= f) (result >>= g) := by
  cases h with
  | ok hlike => exact hnext _ _ hlike
  | error e => exact .error e

theorem map {g : α → γ} {like' : β → γ → Prop} (h : Answers like expected result)
    (hnext : ∀ b a, like b a → like' b (g a)) : Answers like' expected (result.map g) := by
  cases h with
  | ok hlike => exact .ok (hnext _ _ hlike)
  | error e => exact .error e

theorem grouped {f : β → List (Event Rat)} {g : α → List (Event Rat)}
    (h : Answers (fun b a => Event.AllSound (f b) (g a)) expected result) :
    Answers Event.AllSound (expected.map f) (do
      let read ← result
      let more ← .ok []
      return g read ++ more) := by
  cases h with
  | @ok b a hall =>
    refine .ok ?_
    rwa [List.append_nil]
  | error e => exact .error e

end Answers

/-- What is written of events on a track is read as what is expected, or not at all. -/
def Retold (key : Key) (track : Nat) (es : List (Event Rat))
    (expected : Option (List (Event Rat))) : Prop :=
  ∃ fs gs result, Scored key track es fs gs result ∧ Answers Event.AllSound expected result

namespace Retold

variable {key : Key} {track : Nat} {es more : List (Event Rat)}
  {expected expected' : Option (List (Event Rat))}

theorem nil (key : Key) (track : Nat) : Retold key track [] (some []) :=
  ⟨[], [], .ok [], .nil key track, .ok .nil⟩

theorem append (h : Retold key track es expected)
    (hmore : Retold (Event.keyAfterAll key es) (Event.trackAfterAll track es) more expected') :
    Retold key track (es ++ more) (do
      let first ← expected
      let second ← expected'
      return first ++ second) := by
  obtain ⟨fs, gs, result, hscored, hanswers⟩ := h
  obtain ⟨fs', gs', result', hscored', hanswers'⟩ := hmore
  refine ⟨_, _, _, hscored.append hscored', hanswers.bind fun first back hfirst => ?_⟩
  exact hanswers'.bind fun second back' hsecond => .ok (hfirst.append hsecond)

theorem still_of_notable {e : Event Rat} (h : e.Notable) : e.sounds = false := by
  cases h <;> rfl

theorem sounds_of_heard {e : Event Rat} {back : List (Event Rat)} (h : e.Heard back) :
    e.Sounds back := by
  cases h with
  | same unspoken => exact .same unspoken
  | time h =>
    rw [eq_of_beq h]
    exact .same rfl
  | lyric text text' => exact .lyric text text'
  | marker text text' => exact .marker text text'

theorem single {e : Event Rat} (h : e.Notable) (key : Key) (track : Nat) :
    Retold key track [e] (some [e]) := by
  obtain ⟨f, g, back, hf, hturned, hannounces, hheard⟩ := h.written key
  refine ⟨[f], [g], .ok (back ++ []), .single (still_of_notable h) hf hturned hannounces (.nil _ _), ?_⟩
  exact .ok (.cons (sounds_of_heard hheard) .nil)

theorem notable {es : List (Event Rat)} (h : ∀ e ∈ es, e.Notable) (key : Key) (track : Nat) :
    Retold key track es (some es) := by
  induction es generalizing key track with
  | nil => exact .nil key track
  | cons e rest ih =>
    obtain ⟨he, hrest⟩ := List.forall_mem_cons.mp h
    exact (single he key track).append (ih hrest _ _)

end Retold

namespace Replay

section

variable {key : Key} {track power : Nat} {n : SequencedNote}

theorem legible_toBeats (ticks power : Nat) :
    Length.Legible (Tick.toBeats ticks (2 ^ power) : Rat) := by
  obtain ⟨hnonneg, places, hplaces⟩ := Tick.dyadic_toBeats ticks power
  exact Length.legible_dyadic hnonneg hplaces

theorem length_reread {l : Rat} (h : Length.Legible l) : Length.reread l = l :=
  (eq_of_beq h.beq_reread).symm

theorem regular_sounding (n : SequencedNote) (isFirst : Bool) :
    (sounding (2 ^ power) isFirst n).Regular :=
  ⟨Nat.min_le_right _ _, Nat.min_le_right _ _, fun _ => legible_toBeats n.length power,
    (fun h => nomatch h), fun h => nomatch h⟩

/-- The place in a group of its first note, and of those that sound with it. -/
def jointOf (isFirst : Bool) : Joint := if isFirst then .opening else .harmonic

/-- A tone with the value of a note becomes a note that sounds like it. -/
theorem soundsLike_dressed {n m : SequencedNote} (hm : m = { n with note := m.note }) (isFirst : Bool)
    {tone : Note Rat} (hvalue : tone.value = min m.note maxData) (hrest : tone.isRest = false)
    (happart : tone.Apart) :
    (sounding (2 ^ power) isFirst m).SoundsLike
      ((jointOf isFirst).mark (tone.dressed (sounding (2 ^ power) isFirst n))) := by
  obtain ⟨hfirst, hmelodic, hharmonic⟩ := happart
  have hlength : Length.reread (Tick.toBeats n.length (2 ^ power) : Rat) =
      Tick.toBeats n.length (2 ^ power) := length_reread (legible_toBeats n.length power)
  have hsame : m.length = n.length ∧ m.attack = n.attack ∧ m.decay = n.decay := by
    rw [hm]
    exact ⟨rfl, rfl, rfl⟩
  cases isFirst <;>
    simp [Note.SoundsLike, sounding, Joint.mark, jointOf, Note.dressed, Note.withLength,
      Note.withVelocities, Note.ofValue, hsame, hlength, hvalue, hrest, hfirst, hmelodic, hharmonic]

variable (key track power)

/-- The tone of a note is written by its percussion name or by its common name, and it is read as
tuning has it. -/
theorem retold_tone (hn : Playable n) (isFirst : Bool) : ∃ form : ToneForm,
    NoteTone track (sounding (2 ^ power) isFirst n) form ∧
      Answers (fun m e => (sounding (2 ^ power) isFirst m).SoundsLike
          ((jointOf isFirst).mark (e.dressed (sounding (2 ^ power) isFirst n))))
        (tune? key track n) (form.read (.usual key)) := by
  have hvalue := value_sounding (2 ^ power) isFirst hn.note
  rw [tune?]
  by_cases hnamed : track = Symbols.percussionTrack ∧ (Symbols.percussionName? n.note).isSome = true
  · obtain ⟨name, hname⟩ := Option.isSome_iff_exists.mp hnamed.2
    rw [← hvalue] at hname
    rw [if_pos hnamed]
    refine ⟨_, .named rfl hname (.inr hnamed.1), .ok ?_⟩
    exact soundsLike_dressed (n := n) rfl isFirst (congrArg (min · maxData) hvalue) rfl ⟨rfl, rfl, rfl⟩
  · have hunnamed : track = Symbols.percussionTrack →
        Symbols.percussionName? (sounding (2 ^ power) isFirst n).value = none := by
      intro htrack
      rw [hvalue]
      exact Option.not_isSome_iff_eq_none.mp fun hs => hnamed ⟨htrack, hs⟩
    have hle : (sounding (2 ^ power) isFirst n).value ≤ maxData := hvalue ▸ hn.note
    have htone : (Spelling.ofTone _ (some (Spelling.octaveOf _ hle))).tone
        (NoteContext.usual key : NoteContext Rat) = n.note + key.alteration n.note :=
      (Spelling.tone_placed key hle).trans (by rw [hvalue])
    rw [if_neg hnamed]
    refine ⟨_, .common rfl rfl hunnamed rfl hle, ?_⟩
    rw [ToneForm.read_spelled, htone]
    split
    · rename_i hrange
      have hcheck : checkRange .note (n.note + key.alteration n.note) 0 maxData =
          .ok (n.note + key.alteration n.note).toNat :=
        (checkRange_eq_ok_iff _ _ _ _ _).mpr ⟨by omega, by omega, by omega⟩
      rw [hcheck]
      exact .ok (soundsLike_dressed rfl isFirst rfl rfl ⟨rfl, rfl, rfl⟩)
    · rename_i hrange
      cases hcheck : checkRange .note (n.note + key.alteration n.note) 0 maxData with
      | ok value =>
        have hvalue := (checkRange_eq_ok_iff _ _ _ _ _).mp hcheck
        exact absurd ⟨by omega, by omega⟩ hrange
      | error e => exact .error e

theorem retold_note (hn : Playable n) (isFirst : Bool) : ∃ form : Form Rat,
    form.Spells track (.note (sounding (2 ^ power) isFirst n)) ∧
      Answers (fun m e => Event.Sounds (.note (sounding (2 ^ power) isFirst m))
          [Fragment.elementEvent (join (jointOf isFirst) e)])
        (tune? key track n) (form.read (.usual key)) := by
  obtain ⟨tone, htone, hread⟩ := retold_tone key track power hn isFirst
  refine ⟨.note tone _, htone.spells (regular_sounding n isFirst), hread.map fun m e hlike => ?_⟩
  exact .note hlike

/-- The notes of a group behind its first are read with it, as tuning has them. -/
theorem retold_links {ns : List SequencedNote} (hns : ∀ n ∈ ns, Playable n) :
    ∃ tail : List (Bool × Form Rat),
      List.Forall₂ (Linked track) (ns.map fun n => .note (sounding (2 ^ power) false n)) tail ∧
        Answers (fun ms es => Event.AllSound (ms.map fun m => .note (sounding (2 ^ power) false m))
            (es.map Fragment.elementEvent))
          (tuneNotes? key track ns) (Form.readTail (.usual key) tail) := by
  induction ns with
  | nil => exact ⟨[], .nil, .ok .nil⟩
  | cons n rest ih =>
    obtain ⟨hn, hrest⟩ := List.forall_mem_cons.mp hns
    obtain ⟨form, hspells, hread⟩ := retold_note key track power hn false
    obtain ⟨tail, htail, hreads⟩ := ih hrest
    refine ⟨(false, form) :: tail, .cons ⟨hspells, rfl, fun h => nomatch h⟩ htail, ?_⟩
    refine hread.bind fun m e hnote => ?_
    exact hreads.bind fun ms es hall => .ok (.cons hnote hall)

/-- The notes of a group are written as one fragment, and read as tuning has them. -/
theorem retold_notes {ns : List SequencedNote} (hns : ∀ n ∈ ns, Playable n) :
    Retold key track (noteEvents (2 ^ power) ns)
      ((tuneNotes? key track ns).map (noteEvents (2 ^ power))) := by
  cases ns with
  | nil => exact .nil key track
  | cons n rest =>
    obtain ⟨hn, hrest⟩ := List.forall_mem_cons.mp hns
    obtain ⟨form, hspells, hread⟩ := retold_note key track power hn true
    obtain ⟨tail, htail, hreads⟩ := retold_links key track power hrest
    have hgroup : Answers (fun ms es => Event.AllSound (noteEvents (2 ^ power) ms)
        (es.map Fragment.elementEvent)) (tuneNotes? key track (n :: rest))
        (Form.readGroup (.usual key) form tail) := by
      refine hread.bind fun m e hnote => hreads.bind fun ms es hall => .ok ?_
      rw [noteEvents_cons]
      exact .cons hnote hall
    have hscored := Scored.group ⟨hspells, rfl, rfl⟩ htail (.nil key track)
    rw [List.append_nil] at hscored
    rw [noteEvents_eq]
    exact ⟨_, _, _, hscored, hgroup.grouped⟩

theorem retold_rest (ticks : Nat) :
    let rest : Note Rat := { Note.rest (Tick.toBeats ticks (2 ^ power)) with isFirst := true }
    Retold key track [.note rest] (some [.note rest]) := by
  intro rest
  have hvelocity : usualVelocity ≤ maxData := by decide
  have hregular : rest.Regular :=
    ⟨hvelocity, hvelocity, fun _ => legible_toBeats ticks power, (fun h => nomatch h),
      fun _ => ⟨rfl, rfl⟩⟩
  have hlength : Length.reread (Tick.toBeats ticks (2 ^ power) : Rat) = Tick.toBeats ticks (2 ^ power) :=
    length_reread (legible_toBeats ticks power)
  have hspells : (Form.note .rest rest).Spells track (.note rest) :=
    NoteTone.spells (.rest rfl) hregular
  refine ⟨_, _, _, .group (e := .note rest) ⟨hspells, rfl, rfl⟩ .nil (.nil key track), .ok ?_⟩
  refine .cons (.note ?_) .nil
  simp [Note.SoundsLike, Note.dressed, rest, hlength, Note.rest, Note.withLength, Note.ofValue]

theorem retold_approach (cursor tick : Nat) :
    Retold key track (approach (2 ^ power) cursor tick) (some (approach (2 ^ power) cursor tick)) := by
  unfold approach
  split
  · exact retold_rest key track power (tick - cursor)
  · split
    · obtain ⟨hnonneg, places, hplaces⟩ := Tick.dyadic_toBeats tick power
      exact .single (.timeRequest (Fragment.legibleTime_dyadic hnonneg hplaces)) key track
    · exact .nil key track

/-- What is written of groups is read as tuning has them. -/
theorem retold_groups {gs : List Group} (hgs : ∀ g ∈ gs, g.Playable)
    (htold : ∀ g ∈ gs, ∀ e ∈ g.told, e.Notable) (cursor : Nat) :
    Retold key track (groupEvents (2 ^ power) cursor gs)
      ((tuneGroups? track key gs).map (groupEvents (2 ^ power) cursor)) := by
  induction gs generalizing key cursor with
  | nil => exact .nil key track
  | cons g rest ih =>
    obtain ⟨hg, hrest⟩ := List.forall_mem_cons.mp hgs
    obtain ⟨hnotable, htold⟩ := List.forall_mem_cons.mp htold
    obtain ⟨-, hkey, htrack⟩ := certain_approach key track (2 ^ power) cursor g.tick
    obtain ⟨-, htrack'⟩ := certain_still key track (still_told g)
    obtain ⟨hkey'', htrack''⟩ := afterAll_notes (Event.keyAfterAll key g.told) track (2 ^ power) g.notes
    have hnotes := retold_notes (Event.keyAfterAll key g.told) track power
      fun n hn => (hg.notes n hn).1
    have hmore := hnotes.append (by rw [hkey'', htrack'']; exact ih _ hrest htold g.finish)
    have htold' := (Retold.notable hnotable key track).append (by rw [htrack']; exact hmore)
    have hall := (retold_approach key track power cursor g.tick).append (by rw [hkey, htrack]; exact htold')
    rw [groupEvents_cons hg]
    convert hall using 1
    rw [tuneGroups?]
    cases hns : tuneNotes? (Event.keyAfterAll key g.told) track g.notes with
    | none => rfl
    | some ns =>
      obtain ⟨hplayable, hfinish⟩ := playable_tuned hg hns
      cases hrest : tuneGroups? track (Event.keyAfterAll key g.told) rest with
      | none => rfl
      | some more =>
        refine congrArg some ?_
        rw [groupEvents_cons hplayable, hfinish]
        rfl

end

end Replay

end ScoreText
