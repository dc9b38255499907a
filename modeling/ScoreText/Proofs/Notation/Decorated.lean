import ScoreText.Proofs.Notation.Leftovers
import ScoreText.Proofs.Notation.Naming
import ScoreText.Proofs.Number.Written

/-!
What is heard of notes when the chord that they form is named. The tones of two of them get into the notation that is
read back, with what these carry besides: behind the bass it does no harm, if it can be read at all, but behind the root
it keeps the name of the chord from being found.
-/

set_option autoImplicit false

namespace ScoreText

open NoteContext

namespace Chord

variable {R : Type}

/-- What chords are compared by. -/
def pitches (c : Chord R) : Nat × Intervals × Nat := (c.root.value, c.intervals, c.inversion)

theorem beq_iff_pitches [Scalar R] {c d : Chord R} : (c == d) = true ↔ c.pitches = d.pitches := by
  change (c.root.value == d.root.value && c.intervals == d.intervals && c.inversion == d.inversion) = true ↔ _
  simp [pitches, and_assoc]

/-- The root counts by its value alone. -/
theorem pitches_apply [Scalar R] (i : Inversion R) {m n : Note R} (h : m.value = n.value) (shape : Intervals)
    (name : Option Text) : (i.apply { root := m, intervals := shape, name := name }).pitches =
      (i.apply { root := n, intervals := shape, name := name }).pitches := by
  cases i with
  | count k => simp only [Inversion.apply, withInversion, pitches, h]
  | bass b =>
    have hdegree := degreeWithClass?_congr (c := { root := m, intervals := shape, name := name })
      (d := { root := n, intervals := shape, name := name }) h rfl b.value
    simp only [Inversion.apply, withBass, pitches, h, hdegree]

end Chord

namespace ChordReader

variable {R : Type} [Scalar R] {d : Dialect R} {t : Text}

/-- The pitches of the chord that a reading gives, if it gives one. -/
def told? (x : Except Error (Chord R)) : Option (Nat × Intervals × Nat) := x.toOption.map Chord.pitches

theorem told_eq_none {R : Type} {x : Except Error (Chord R)} : told? x = none ↔ ∃ e, x = .error e := by
  cases x with
  | error e => exact ⟨fun _ => ⟨e, rfl⟩, fun _ => rfl⟩
  | ok c =>
    refine ⟨fun h => absurd h (Option.some_ne_none _), fun h => ?_⟩
    obtain ⟨e, h⟩ := h
    cases h

theorem told_of_none (h : (d.noteContext.readElement (Text.upper t) (Text.upper t)).toOption = none) :
    told? (read d t) = none := by
  rw [read, NoteContext.read, readJoined]
  cases hread : d.noteContext.readElement (Text.upper t) (Text.upper t) with
  | error e => rfl
  | ok p =>
    rw [hread] at h
    cases h

/-- A text that starts with a note is no chord. -/
theorem told_of_note {n : Note R} {s : Text}
    (h : d.noteContext.readElement (Text.upper t) (Text.upper t) = .ok (.note n, s)) : told? (read d t) = none := by
  rw [read, NoteContext.read, readJoined, h]
  cases hjoint : readJoint? s with
  | none => simp only [bind, Except.bind, hjoint]; rfl
  | some link =>
    simp only [bind, Except.bind, hjoint]
    cases d.noteContext.readJoined (Text.upper t) (Text.upper t).length link.1 link.2 <;> rfl

/-- A chord alone is told when nothing is left of the text behind it. -/
theorem told_of_chord {c : Chord R} {s : Text}
    (h : d.noteContext.readElement (Text.upper t) (Text.upper t) = .ok (.chord c, s))
    (hs : ∀ c ∈ s.head?, c ≠ '+' ∧ c ≠ '_') : told? (read d t) = if s = [] then some c.pitches else none := by
  have hjoint : readJoint? s = none := by
    unfold readJoint?
    split
    · rename_i c e r
      obtain ⟨hplus, hlow⟩ := hs c rfl
      rw [if_neg hplus, if_neg hlow, ite_self]
    · rfl
  rw [read, NoteContext.read, readJoined, h]
  simp only [bind, Except.bind, hjoint]
  cases s <;> rfl

/-- A chord over an inversion is told when what stands behind can be read to its end, whatever that is. -/
theorem told_of_suffix {root : Note R} (hroot : root.isRest = false) {inversion : Inversion R} {shape : Intervals}
    {name s : Text} (hread : (d.noteContext.readElement (Text.upper t) (Text.upper t)).toOption =
      (readSuffix (Text.upper t) root s).toOption.map fun q =>
        (.chord (inversion.apply { root := q.1, intervals := shape, name := some name }), q.2))
    (hs : ∀ left ∈ leftover? R s, ∀ c ∈ left.head?, c ≠ '+' ∧ c ≠ '_') :
    told? (read d t) = if leftover? R s = some [] then
      some (inversion.apply { root := root, intervals := shape, name := some name }).pitches else none := by
  have hleft := readSuffix_leftover (Text.upper t) hroot s
  cases hsuffix : readSuffix (Text.upper t) root s with
  | error e =>
    rw [hsuffix] at hread hleft
    have hnone : leftover? R s = none := Option.map_eq_none_iff.mp hleft.symm
    rw [told_of_none hread, hnone, if_neg (by simp)]
  | ok q =>
    obtain ⟨n, left⟩ := q
    rw [hsuffix] at hread hleft
    obtain ⟨left', hleft', hpair⟩ := Option.map_eq_some_iff.mp hleft.symm
    obtain ⟨hvalue, rfl⟩ := Prod.mk.inj hpair
    rw [told_of_chord (ok_of_toOption hread) (hs _ hleft'), hleft', Chord.pitches_apply inversion hvalue.symm]
    simp only [Option.some_inj]

theorem leftover?_bracket (s : Text) : leftover? R ('[' :: s) = some ('[' :: s) := by
  cases s <;> rfl

/-- The name of a chord between a tone and an inversion makes a chord of both, when what stands behind them can be read
to its end. -/
theorem told_named (htable : d.chords.Apart) {h : Text} (hhead : d.noteContext.Head h)
    (hsounding : ∀ m ∈ d.noteContext.toneOf? h, m.isRest = false) {name : Text} {shape : Intervals}
    (known : (name, shape) ∈ d.chords.entries) {after s : Text} (hafter : ∀ c ∈ after.head?, c = '^')
    {inversion : Option (Inversion R)}
    (hinversion : ∀ text, (d.noteContext.readInversion text 0 after).toOption = inversion.map fun i => (i, s))
    (hs : ∀ left ∈ leftover? R s, ∀ c ∈ left.head?, c ≠ '+' ∧ c ≠ '_')
    (ht : Text.upper t = h ++ (name ++ after)) :
    told? (read d t) = if leftover? R s = some [] then
      (d.noteContext.rootOf? h).bind fun root => inversion.map fun i =>
        (i.apply { root := root, intervals := shape, name := some name }).pitches else none := by
  have hread : (d.noteContext.readElement (Text.upper t) (Text.upper t)).toOption =
      (d.noteContext.rootOf? h).bind fun root => inversion.bind fun i =>
        (readSuffix (Text.upper t) root s).toOption.map fun q =>
          (.chord (i.apply { root := q.1, intervals := shape, name := some name }), q.2) := by
    nth_rewrite 2 [ht]
    rw [toOption_readElement hhead hsounding htable known hafter, hinversion]
    cases inversion <;> rfl
  have hrest := isRest_of_rootOf? hsounding
  cases hroot : d.noteContext.rootOf? h with
  | none =>
    rw [hroot] at hread
    rw [told_of_none hread, Option.bind_none, ite_self]
  | some root =>
    rw [hroot] at hread
    cases inversion with
    | none => rw [told_of_none hread, Option.bind_some, Option.map_none, ite_self]
    | some i => exact told_of_suffix (hrest root hroot) hread hs

/-- A chord over a bass is told by the tones of its root and its bass, when what stands behind the bass can be read to
its end. -/
theorem told_over (htable : d.chords.Apart) {root bass : ToneForm} (hroot : root.isRest = false)
    (hbass : bass.isRest = false) {name s : Text} {shape : Intervals} (known : (name, shape) ∈ d.chords.entries)
    (hclear : Spelling.Clear s) (hplain : ∀ c ∈ s, c ≠ '+' ∧ c ≠ '_')
    (ht : Text.upper t = root.text ++ (name ++ '^' :: (bass.text ++ s))) :
    told? (read d t) = if leftover? R s = some [] then
      (d.noteContext.rootOf? root.text).bind fun r => (d.noteContext.bassOf? bass.text).map fun i =>
        (i.apply { root := r, intervals := shape, name := some name }).pitches else none := by
  obtain ⟨hhead, hsounding⟩ := head_form d.noteContext hroot
  have hcaret : ∀ c ∈ ('^' :: (bass.text ++ s)).head?, c = '^' := fun c hc => (Option.some.inj hc).symm
  rcases readInversion_form d.noteContext hbass with hinversion | ⟨hnone, left, hleft, hinversion⟩
  · exact told_named htable hhead hsounding known hcaret (fun text => hinversion text s hclear)
      (fun left hleft c hc => hplain c ((suffix_of_leftover? hleft).mem (List.mem_of_mem_head? hc))) ht
  · -- a name in brackets is left behind the caret, and so is all that stands behind it
    have hbracket : leftover? R (bass.text ++ s) = some ('[' :: (left ++ s)) := hleft ▸ leftover?_bracket (left ++ s)
    have hjoint : ∀ l ∈ leftover? R (bass.text ++ s), ∀ c ∈ l.head?, c ≠ '+' ∧ c ≠ '_' := by
      rw [hbracket]
      rintro l hl c hc
      obtain rfl := Option.some.inj hl
      obtain rfl := Option.some.inj hc
      decide
    have hcount : ∀ text, (d.noteContext.readInversion text 0 ('^' :: (bass.text ++ s))).toOption =
        (some (.count 1)).map fun i => (i, bass.text ++ s) := by
      intro text
      rw [hinversion]
      rfl
    rw [told_named htable hhead hsounding known hcaret hcount hjoint ht, hbracket, if_neg (by simp), hnone]
    cases d.noteContext.rootOf? root.text <;> simp

/-- What stands between a root and the name of a chord keeps the name from being found. -/
theorem told_of_decorated_root (htable : d.chords.Apart) {root : ToneForm} (hroot : root.isRest = false) {n : Note R}
    (hn : n.suffix ≠ []) {name : Text} {shape : Intervals} (known : (name, shape) ∈ d.chords.entries) {after : Text}
    (ht : Text.upper t = root.text ++ (Text.upper n.suffix ++ (name ++ after))) : told? (read d t) = none := by
  have hfollows : Follows (Text.upper n.suffix ++ (name ++ after)) := by
    refine Follows.suffix_append n (fun h => absurd h hn) ?_
    obtain ⟨c, r, rfl, -, hc⟩ := htable.starts _ known
    exact fun hu => hc (by rw [Option.some.inj hu]; decide)
  have htone := (head_form d.noteContext hroot).1 (Text.upper t) _ hfollows.clear
  cases htoneOf : d.noteContext.toneOf? root.text with
  | none =>
    rw [htoneOf] at htone
    refine told_of_none (toOption_readElement_of_none ?_)
    nth_rewrite 2 [ht]
    exact htone
  | some m =>
    rw [htoneOf] at htone
    have hnone : ∀ k : Note R, d.noteContext.matchChord? k (Text.upper n.suffix ++ (name ++ after)) = none := by
      intro k
      have hcalm : d.noteContext.chords.matchStart? (Text.upper n.suffix ++ (name ++ after)) = none :=
        htable.calm _ hfollows
      rw [matchChord?, hcalm]
      split <;> rfl
    have hread : d.noteContext.readElement (Text.upper t) (Text.upper t) =
        (readSuffix (Text.upper t)
          { m with attack := d.noteContext.settings.attack, decay := d.noteContext.settings.decay }
          (Text.upper n.suffix ++ (name ++ after))).map fun p => (.note p.1, p.2) := by
      nth_rewrite 2 [ht]
      rw [readElement, ok_of_toOption htone]
      simp only [bind, Except.bind, hnone]
      rfl
    cases hsuffix : readSuffix (Text.upper t)
        { m with attack := d.noteContext.settings.attack, decay := d.noteContext.settings.decay }
        (Text.upper n.suffix ++ (name ++ after)) with
    | error e => exact told_of_none (by rw [hread, hsuffix]; rfl)
    | ok p => exact told_of_note (n := p.1) (s := p.2) (by rw [hread, hsuffix]; rfl)

end ChordReader

namespace Note

variable {R : Type} [Scalar R]

/-- A note that sounds and is spelled, if it is, as a tone. -/
structure Voiced (n : Note R) : Prop where
  sounding : n.isRest = false
  le : n.value ≤ maxData
  spelled : ∀ t ∈ n.written, ∃ s : Spelling, Text.upper t = s.text

theorem Voiced.exists_form {n : Note R} (h : n.Voiced) :
    ∃ form : ToneForm, form.isRest = false ∧ Text.upper n.stripped.text = form.text := by
  have hcommon : ∃ form : ToneForm, form.isRest = false ∧ Text.upper (Tone.text n.value) = form.text :=
    ⟨.spelled (.ofTone n.value (some (Spelling.octaveOf n.value h.le))), rfl,
      Spelling.upper_octave n.value (some (Spelling.octaveOf n.value h.le))⟩
  rw [stripped_text, h.sounding, if_neg Bool.false_ne_true]
  split
  · rw [Tone.percussionText]
    split
    · rename_i name hname
      exact ⟨.named name n.value hname, rfl, upper_of_raised fun c hc => (percussion_plain hname c hc).1⟩
    · exact hcommon
  · cases hwritten : n.written with
    | none => exact hcommon
    | some t =>
      obtain ⟨s, hs⟩ := h.spelled t hwritten
      exact ⟨.spelled s, rfl, hs⟩

/-- The root as it stands before the name of a chord, without what it carries. -/
theorem Voiced.exists_rootForm {n : Note R} (h : n.Voiced) (narrow : Bool) : ∃ form : ToneForm, form.isRest = false ∧
    Text.upper (if narrow then n.stripped.text else Tone.name n.value) = form.text := by
  split
  · exact h.exists_form
  · exact ⟨.spelled (.ofTone n.value none), rfl, Spelling.upper_plain n.value⟩

theorem clear_suffix (n : Note R) : Spelling.Clear (Text.upper n.suffix) := by
  have hfollows : Follows (Text.upper n.suffix ++ []) := Follows.suffix_append n (fun _ => by simp [Follows]) (by simp)
  rw [List.append_nil] at hfollows
  exact hfollows.clear

/-- No other note can be read behind what is written after a tone. -/
theorem unjoined_suffix [Scalar.Written R] (n : Note R) : ∀ c ∈ Text.upper n.suffix, c ≠ '+' ∧ c ≠ '_' := by
  intro c hc
  rcases Text.isNumberChar_upper n.chars_suffix c hc with h | rfl
  · exact ⟨fun heq => absurd (heq ▸ h) (by decide), fun heq => absurd (heq ▸ h) (by decide)⟩
  · decide

end Note

namespace ChordReader

variable {R : Type} [Scalar R]

/-- What keeps a chord from being read from its notation: anything behind the tone of the root, if the notes lie within
an octave, and behind another bass what cannot be read to its end. -/
def Naming.Obstructed (w : Naming R) : Prop :=
  w.narrow = true ∧ w.root.suffix ≠ [] ∨
    w.root.value ≠ w.bass.value ∧ leftover? R (Text.upper w.bass.suffix) ≠ some []

instance (w : Naming R) : Decidable w.Obstructed := inferInstanceAs (Decidable (_ ∨ _))

/-- The inversion that the bass of a naming stands for, as its tone alone is read. -/
def Naming.inversion? (d : Dialect R) (w : Naming R) : Option (Inversion R) :=
  if w.root.value = w.bass.value then some (.count 0) else d.noteContext.bassOf? (Text.upper w.bass.stripped.text)

/-- The chord that a naming stands for, as the tones of its root and its bass alone are read. -/
def Naming.chord? (d : Dialect R) (w : Naming R) : Option (Chord R) := do
  let root ← d.noteContext.rootOf? (Text.upper (if w.narrow then w.root.stripped.text else Tone.name w.root.value))
  let inversion ← w.inversion? d
  some (inversion.apply { root := root, intervals := w.shape, name := some w.name })

/-- The pitches of the chord that is read from the notation of a naming, if there is one. -/
def Naming.heard? (d : Dialect R) (w : Naming R) : Option (Nat × Intervals × Nat) :=
  if w.Obstructed then none else (w.chord? d).map Chord.pitches

def Obstructed (table : ChordTable) (notes : List (Note R)) : Prop :=
  ∃ w, namingOf? table notes = some w ∧ w.Obstructed

/-- Both fail, or both are the same chord. -/
inductive Alike : Except Error (Chord R) → Except Error (Chord R) → Prop where
  | failed (e f : Error) : Alike (.error e) (.error f)
  | same {a b : Chord R} (h : (a == b) = true) : Alike (.ok a) (.ok b)

theorem alike_iff {x y : Except Error (Chord R)} : Alike x y ↔ told? x = told? y := by
  refine ⟨fun h => ?_, fun h => ?_⟩
  · cases h with
    | failed e f => rfl
    | same h => exact congrArg some (Chord.beq_iff_pitches.mp h)
  · cases x with
    | error e =>
      cases y with
      | error f => exact .failed e f
      | ok b => cases h
    | ok a =>
      cases y with
      | error f => cases h
      | ok b => exact .same (Chord.beq_iff_pitches.mpr (Option.some.inj h))

variable [Scalar.Written R] {d : Dialect R} {w : Naming R}

theorem upper_over {head name : Text} {root : ToneForm} (hhead : Text.upper head = root.text)
    (hname : Text.upper name = name) (tail : Text) :
    Text.upper (head ++ name ++ '^' :: tail) = root.text ++ (name ++ '^' :: Text.upper tail) := by
  have hcaret : Text.upper ('^' :: tail) = '^' :: Text.upper tail := by
    rw [← List.singleton_append, Text.upper_append]
    rfl
  rw [Text.upper_append, Text.upper_append, hhead, hname, hcaret, List.append_assoc]

/-- The notation of a naming is read as the chord that it stands for, unless what root and bass carry besides their
tones obstructs that. -/
theorem told_text (htable : d.chords.Apart) (hroot : w.root.Voiced) (hbass : w.bass.Voiced)
    (known : (w.name, w.shape) ∈ d.chords.entries) : told? (read d w.text) = w.heard? d := by
  have hname : Text.upper w.name = w.name := htable.upper _ known
  rw [Naming.heard?]
  by_cases hdecorated : w.narrow = true ∧ w.root.suffix ≠ []
  · obtain ⟨root, hrootRest, hrootText⟩ := hroot.exists_form
    have htext : Text.upper w.text = root.text ++ (Text.upper w.root.suffix ++ (w.name ++
        Text.upper (if w.root.value = w.bass.value then [] else '^' :: w.bass.text))) := by
      rw [Naming.text, if_pos hdecorated.1, w.root.text_stripped]
      simp only [Text.upper_append, hrootText, hname, List.append_assoc]
    rw [if_pos (.inl hdecorated)]
    exact told_of_decorated_root htable hrootRest hdecorated.2 known htext
  · have hhead : (if w.narrow then w.root.text else Tone.name w.root.value) =
        if w.narrow then w.root.stripped.text else Tone.name w.root.value := by
      split
      · rename_i hnarrow
        have hnil : w.root.suffix = [] := by_contra fun h => hdecorated ⟨hnarrow, h⟩
        rw [w.root.text_stripped, hnil, List.append_nil]
      · rfl
    obtain ⟨root, hrootRest, hrootText⟩ := hroot.exists_rootForm w.narrow
    obtain ⟨hform, hsounding⟩ := head_form d.noteContext hrootRest
    rw [Naming.text, hhead, Naming.chord?, hrootText]
    by_cases hvalue : w.root.value = w.bass.value
    · have htext : Text.upper ((if w.narrow then w.root.stripped.text else Tone.name w.root.value) ++ w.name ++ []) =
          root.text ++ (w.name ++ []) := by
        rw [List.append_nil, List.append_nil, Text.upper_append, hrootText, hname]
      have hleft : leftover? R [] = some [] := rfl
      have hcount : ∀ text, (d.noteContext.readInversion text 0 []).toOption =
          (some (.count 0)).map fun i => (i, []) := fun text => rfl
      have hclear : ¬ w.Obstructed := by simp [Naming.Obstructed, hdecorated, hvalue]
      have hinversion : w.inversion? d = some (.count 0) := if_pos hvalue
      rw [if_pos hvalue, hinversion, if_neg hclear,
        told_named htable hform hsounding known (by simp) hcount (by simp [hleft]) htext, if_pos hleft]
      cases d.noteContext.rootOf? root.text <;> rfl
    · obtain ⟨bass, hbassRest, hbassText⟩ := hbass.exists_form
      have htext : Text.upper w.bass.text = bass.text ++ Text.upper w.bass.suffix := by
        rw [w.bass.text_stripped, Text.upper_append, hbassText]
      have hover := (upper_over hrootText hname w.bass.text).trans (by rw [htext])
      have hobstructed : w.Obstructed ↔ ¬ leftover? R (Text.upper w.bass.suffix) = some [] := by
        simp [Naming.Obstructed, hdecorated, hvalue]
      have hinversion : w.inversion? d = d.noteContext.bassOf? bass.text := (if_neg hvalue).trans (by rw [hbassText])
      rw [if_neg hvalue, hinversion,
        told_over htable hrootRest hbassRest known w.bass.clear_suffix w.bass.unjoined_suffix hover]
      simp only [hobstructed, ite_not]
      congr 1
      cases d.noteContext.rootOf? root.text with
      | none => rfl
      | some r => cases d.noteContext.bassOf? bass.text <;> rfl

/-- Notes are identified as the chord that their naming stands for, unless what they carry obstructs that. -/
theorem told_ofNotes (htable : d.chords.Apart) {notes : List (Note R)} (hnotes : ∀ n ∈ notes, n.Voiced) :
    told? (ofNotes d notes) = (namingOf? d.chords notes).bind (Naming.heard? d) := by
  simp only [ofNotes, textOfNotes?_eq]
  cases hw : namingOf? d.chords notes with
  | none => rfl
  | some w =>
    obtain ⟨hroot, hbass, known⟩ := mem_of_namingOf? hw
    exact told_text htable (hnotes _ hroot) (hnotes _ hbass) known

end ChordReader

theorem Note.Voiced.stripped {R : Type} [Scalar R] {n : Note R} (h : n.Voiced) : n.stripped.Voiced :=
  ⟨h.sounding, h.le, h.spelled⟩

namespace ChordReader

variable {R : Type} [Scalar R]

/-- Whether notes form a chord that has a name only depends on their values. -/
theorem isSome_namingOf? {table : ChordTable} {notes others : List (Note R)} (hnotes : ∀ n ∈ notes, n.Voiced)
    (hothers : ∀ n ∈ others, n.Voiced) (hvalues : notes.map Note.value = others.map Note.value) :
    (namingOf? table notes).isSome = (namingOf? table others).isSome := by
  have htoned : ∀ l : List (Note R), (∀ n ∈ l, n.Voiced) →
      l.map Note.toned = (l.map Note.value).map fun v => { value := v, length := ((0 : Nat) : R) } := by
    intro l hl
    rw [List.map_map]
    refine List.map_congr_left fun n hn => ?_
    rw [Note.toned, (hl n hn).sounding]
    rfl
  have hnamed : ∀ l : List (Note R), (namingOf? table (l.map Note.toned)).isSome = (namingOf? table l).isSome := by
    intro l
    rw [namingOf?_map (f := Note.toned) (fun _ => rfl) (fun _ => rfl), Option.isSome_map]
  rw [← hnamed notes, ← hnamed others, htoned notes hnotes, htoned others hothers, hvalues]

theorem chord?_map_stripped (d : Dialect R) (w : Naming R) : (w.map Note.stripped).chord? d = w.chord? d := rfl

theorem heard?_map_stripped (d : Dialect R) (w : Naming R) :
    (w.map Note.stripped).heard? d = (w.chord? d).map Chord.pitches := by
  have hfree : ¬ (w.map Note.stripped).Obstructed := by
    rintro (⟨-, h⟩ | ⟨-, h⟩)
    · exact h rfl
    · exact h rfl
  rw [Naming.heard?, if_neg hfree, chord?_map_stripped]

variable [Scalar.Written R] {d : Dialect R} {notes others : List (Note R)}

/-- By their tones alone notes are identified as the chord that their naming stands for. -/
theorem told_stripped (htable : d.chords.Apart) (hnotes : ∀ n ∈ notes, n.Voiced) :
    told? (ofNotes d (notes.map Note.stripped)) =
      (namingOf? d.chords notes).bind fun w => (w.chord? d).map Chord.pitches := by
  have hstripped : ∀ n ∈ notes.map Note.stripped, n.Voiced := by
    intro n hn
    obtain ⟨m, hm, rfl⟩ := List.mem_map.mp hn
    exact (hnotes m hm).stripped
  rw [told_ofNotes htable hstripped, namingOf?_map (f := Note.stripped) (fun _ => rfl) (fun _ => rfl)]
  cases namingOf? d.chords notes with
  | none => rfl
  | some w => exact heard?_map_stripped d w

omit [Scalar.Written R] in
theorem chord?_congr {w w' : Naming R} (hw : namingOf? d.chords notes = some w)
    (hw' : namingOf? d.chords others = some w') (hsame : notes.map Note.stripped = others.map Note.stripped) :
    w.chord? d = w'.chord? d := by
  have hnamed : ∀ l : List (Note R), namingOf? d.chords (l.map Note.stripped) =
      (namingOf? d.chords l).map (Naming.map Note.stripped) :=
    namingOf?_map (f := Note.stripped) (fun _ => rfl) (fun _ => rfl) d.chords
  have heq := (hnamed notes).symm.trans ((congrArg _ hsame).trans (hnamed others))
  rw [hw, hw', Option.map_some, Option.map_some, Option.some_inj] at heq
  rw [← chord?_map_stripped, heq, chord?_map_stripped]

/-- Lists of notes of the same values are identified alike just when their namings are heard alike. That is so, if their
tones are also written alike, just when what else they carry obstructs the reading of both of their notations or of
neither, or when the tones form no chord. -/
theorem ofNotes_alike_iff (htable : d.chords.Apart) (hnotes : ∀ n ∈ notes, n.Voiced) (hothers : ∀ n ∈ others, n.Voiced)
    (hvalues : notes.map Note.value = others.map Note.value) :
    (Alike (ofNotes d notes) (ofNotes d others) ↔ ∀ w w', namingOf? d.chords notes = some w →
      namingOf? d.chords others = some w' → w.heard? d = w'.heard? d) ∧
    (notes.map Note.stripped = others.map Note.stripped →
      (Alike (ofNotes d notes) (ofNotes d others) ↔ (Obstructed d.chords notes ↔ Obstructed d.chords others) ∨
        ∃ e, ofNotes d (notes.map Note.stripped) = .error e)) := by
  have hsome : (namingOf? d.chords notes).isSome = (namingOf? d.chords others).isSome :=
    isSome_namingOf? hnotes hothers hvalues
  rw [alike_iff, told_ofNotes htable hnotes, told_ofNotes htable hothers, ← told_eq_none, told_stripped htable hnotes]
  cases hw : namingOf? d.chords notes with
  | none =>
    rw [hw, Option.isSome_none, eq_comm, Option.isSome_eq_false_iff, Option.isNone_iff_eq_none] at hsome
    simp [hsome]
  | some w =>
    rw [hw, Option.isSome_some, eq_comm, Option.isSome_iff_exists] at hsome
    obtain ⟨w', hw'⟩ := hsome
    refine ⟨by simp [hw'], fun hsame => ?_⟩
    have hchord := chord?_congr hw hw' hsame
    simp only [Obstructed, hw, hw', Option.bind_some, Naming.heard?, ← hchord, Option.some_inj, exists_eq_left']
    by_cases h : w.Obstructed <;> by_cases h' : w'.Obstructed <;> simp [h, h', eq_comm]

/-- C, E and G from middle C on. -/
def triad : List (Note Rat) := ofValues [60, 64, 67]

def quarterTriad : List (Note Rat) := triad.map fun n => n.withLength (1 / 4)

/-- The same notes, read from their names alone. -/
def namedTriad : List (Note Rat) := triad.map fun n => { n with written := some (Tone.name n.value) }

def triadNaming : Naming Rat :=
  ⟨Note.ofValue 60, Note.ofValue 60, "MAJ".toList, ⟨["1".toList, "3".toList, "5".toList]⟩, true⟩

theorem namingOf?_triad : namingOf? .standard triad = some triadNaming := by
  have hvalue : sortNotes Note.value triad = triad := List.mergeSort_of_pairwise (by decide)
  have hposition : sortNotes Note.position triad = triad := List.mergeSort_of_pairwise (by decide)
  have hrotations : rotations (classes triad) = [triad, ofValues [64, 67, 60], ofValues [67, 60, 64]] := rfl
  have hhead : triad.head? = some (Note.ofValue 60) := rfl
  have hlast : triad.getLast? = some (Note.ofValue 67) := rfl
  have hname : ChordTable.standard.nameOf? (Intervals.ofNotes triad) = some "MAJ".toList := by decide +kernel
  simp only [namingOf?, hvalue, hposition, hrotations, hhead, hlast, Option.bind_eq_bind, Option.bind_some,
    List.findSome?_cons, naming?, hname]
  rfl

/-- C, E and G from middle C on are C major there, but no chord as quarter notes, and C major an octave lower where they
are written without their octave. -/
theorem triad_not_alike :
    (∀ n ∈ triad, n.Voiced) ∧ (∀ n ∈ quarterTriad, n.Voiced) ∧ (∀ n ∈ namedTriad, n.Voiced) ∧
      triad.map Note.value = quarterTriad.map Note.value ∧ triad.map Note.value = namedTriad.map Note.value ∧
      ¬ Alike (ofNotes .standard triad) (ofNotes .standard quarterTriad) ∧
      ¬ Alike (ofNotes .standard triad) (ofNotes .standard namedTriad) := by
  have hchords : (Dialect.standard : Dialect Rat).chords = .standard := by
    simp only [Dialect.standard, Dialect.ofSettings]
  have htriad : ∀ n ∈ triad, n.Voiced := by
    intro n hn
    obtain ⟨v, hv, rfl⟩ := List.mem_map.mp hn
    refine ⟨rfl, Nat.min_le_right v maxData, fun t ht => ?_⟩
    cases ht
  have hquarters : ∀ n ∈ quarterTriad, n.Voiced := by
    intro n hn
    obtain ⟨m, hm, rfl⟩ := List.mem_map.mp hn
    exact ⟨(htriad m hm).sounding, (htriad m hm).le, (htriad m hm).spelled⟩
  have hnamedTriad : ∀ n ∈ namedTriad, n.Voiced := by
    intro n hn
    obtain ⟨m, hm, rfl⟩ := List.mem_map.mp hn
    refine ⟨(htriad m hm).sounding, (htriad m hm).le, fun t ht => ?_⟩
    obtain rfl := Option.some.inj ht
    exact ⟨.ofTone m.value none, Spelling.upper_plain m.value⟩
  have hnot : ∀ f : Note Rat → Note Rat, (∀ n, (f n).value = n.value) → (∀ n, (f n).position = n.position) →
      (∀ n ∈ triad.map f, n.Voiced) → triadNaming.heard? .standard ≠ (triadNaming.map f).heard? .standard →
      ¬ Alike (ofNotes .standard triad) (ofNotes .standard (triad.map f)) := by
    intro f hvalue hposition hvoiced hheard halike
    have hvalues : triad.map Note.value = (triad.map f).map Note.value := by
      rw [List.map_map]
      exact List.map_congr_left fun n _ => (hvalue n).symm
    have hnamed := namingOf?_map hvalue hposition .standard triad
    rw [namingOf?_triad] at hnamed
    have hiff := (ofNotes_alike_iff (hchords ▸ ChordTable.standard_apart) htriad hvoiced hvalues).1
    rw [hchords] at hiff
    exact hheard (hiff.mp halike _ _ namingOf?_triad hnamed)
  exact ⟨htriad, hquarters, hnamedTriad, rfl, rfl, hnot _ (fun _ => rfl) (fun _ => rfl) hquarters (by decide +kernel),
    hnot _ (fun _ => rfl) (fun _ => rfl) hnamedTriad (by decide +kernel)⟩

end ChordReader

end ScoreText
