import ScoreText.Proofs.Notation.Announced
import ScoreText.Proofs.Notation.Score
import ScoreText.Proofs.Notation.Written

/-!
Notes and chords that are written after they have been read: what is read of them again is like what
was written.
-/

set_option autoImplicit false

namespace ScoreText

open NoteContext

namespace Note

variable {R : Type}

/-- A note as a writer on a track leaves it: percussion notes go by their names there. -/
def onTrack (track : Nat) (n : Note R) : Note R :=
  if track = Symbols.percussionTrack ∧ n.isRest = false ∧
      (Symbols.percussionName? n.value).isSome = true then
    { n with octaveWritten := true, isPercussion := true, written := none }
  else n

/-- Where a note is written by the common name of its tone, the key adds nothing to that name. -/
def Certain (key : Key) (track : Nat) (n : Note R) : Prop :=
  n.isRest = false → (n.onTrack track).written = none → (n.onTrack track).isPercussion = false →
    key.alteration n.value = 0

/-- The tone of one note is that of another, and is spelled like it. -/
structure LikeTone (n m : Note R) : Prop where
  value : n.value = m.value
  isRest : n.isRest = m.isRest
  octaveWritten : n.octaveWritten = m.octaveWritten
  isPercussion : n.isPercussion = m.isPercussion
  written : sameSpelling n.written m.written = true

/-- The tone of one note is that of another, as it was written. -/
structure HasTone (n m : Note R) : Prop where
  value : n.value = m.value
  isRest : n.isRest = m.isRest
  octaveWritten : n.octaveWritten = m.octaveWritten
  isPercussion : n.isPercussion = m.isPercussion
  written : n.written = m.written

/-- A note that is not in a group yet. -/
structure Apart (n : Note R) : Prop where
  isFirst : n.isFirst = false
  isMelodic : n.isMelodic = false
  isHarmonic : n.isHarmonic = false

theorem sameSpelling_self (written : Option Text) : sameSpelling written written = true := by
  cases written with
  | none => rfl
  | some t => simp [sameSpelling, Text.sameIgnoringAsciiCase]

theorem HasTone.likeTone {n m : Note R} (h : n.HasTone m) : n.LikeTone m :=
  ⟨h.value, h.isRest, h.octaveWritten, h.isPercussion, h.written ▸ sameSpelling_self _⟩

theorem Suffixed.hasTone {m n : Note R} (h : m.Suffixed n) : n.HasTone m := by
  have hsame := h.same
  constructor <;> rw [hsame]

theorem Suffixed.apart {m n : Note R} (h : m.Suffixed n) (hm : m.Apart) : n.Apart := by
  have hsame := h.same
  constructor <;> rw [hsame]
  · exact hm.isFirst
  · exact hm.isMelodic
  · exact hm.isHarmonic

end Note

variable {R : Type} [Scalar R]

theorem value_ofValue {value : Nat} (h : value ≤ maxData) :
    (Note.ofValue value : Note R).value = value := Nat.min_eq_left h

theorem Spelling.value_note (s : Spelling) {value : Nat} (h : value ≤ maxData) :
    (s.note value : Note R).value = value := Nat.min_eq_left h

namespace ToneForm

variable {ctx : NoteContext R}

theorem read_apart {form : ToneForm} {m : Note R} (h : form.read ctx = .ok m) : m.Apart := by
  cases form with
  | rest =>
    cases h
    exact ⟨rfl, rfl, rfl⟩
  | named name value hn =>
    cases h
    exact ⟨rfl, rfl, rfl⟩
  | spelled s =>
    obtain ⟨value, -, rfl⟩ := ok_of_map h
    exact ⟨rfl, rfl, rfl⟩

theorem read_spelled_ok {s : Spelling} {value : Nat} (h : s.tone ctx = value) (hle : value ≤ maxData) :
    (spelled s).read ctx = .ok (s.note value) := by
  rw [read_spelled, h, (checkRange_eq_ok_iff _ _ _ _ _).mpr ⟨rfl, Nat.zero_le _, hle⟩]
  rfl

end ToneForm

/-- The common spelling of a tone in its octave has that tone, and what the key adds. -/
theorem Spelling.tone_placed (key : Key) {value : Nat} (hle : value ≤ maxData) :
    (Spelling.ofTone value (some (Spelling.octaveOf value hle))).tone
      (NoteContext.usual key : NoteContext R) = value + key.alteration value := by
  have hdiv : value / octaveSize * octaveSize + value % octaveSize = value := Nat.div_add_mod' _ _
  have hfollows : (NoteContext.usual key : NoteContext R).settings.followsKey = true := rfl
  rw [Spelling.ofTone_tone, hfollows, if_pos rfl]
  change ((value / octaveSize * octaveSize + value % octaveSize : Nat) : Int) + key.alteration value = _
  rw [hdiv]

namespace ToneRead

variable {key : Key} {m n : Note R}

theorem apart {ctx : NoteContext R} (h : ToneRead ctx m) : m.Apart := by
  cases h <;> exact ⟨rfl, rfl, rfl⟩

/-- A tone that was read is written so that it is read again. -/
theorem written (h : ToneRead (.usual key) m) (hn : n.HasTone m) {track : Nat}
    (hc : n.Certain key track) : ∃ (form : ToneForm) (m' : Note R), NoteTone track n form ∧
      form.read (.usual key) = .ok m' ∧ (n.onTrack track).LikeTone m' := by
  by_cases hnamed : track = Symbols.percussionTrack ∧ n.isRest = false ∧
      (Symbols.percussionName? n.value).isSome = true
  · obtain ⟨name, hname⟩ := Option.isSome_iff_exists.mp hnamed.2.2
    have hle : n.value ≤ maxData := by
      have := Symbols.percussionName?_le hname
      have : maxData = 127 := rfl
      omega
    refine ⟨.named name n.value hname, _, .named hnamed.2.1 hname (.inr hnamed.1), rfl, ?_⟩
    rw [Note.onTrack, if_pos hnamed]
    exact ⟨(value_ofValue (R := R) hle).symm, hnamed.2.1, rfl, rfl, rfl⟩
  · have htrack : n.onTrack track = n := if_neg hnamed
    have hunnamed : n.isRest = false → track = Symbols.percussionTrack →
        Symbols.percussionName? n.value = none := fun hr ht =>
      Option.not_isSome_iff_eq_none.mp fun hs => hnamed ⟨ht, hr, hs⟩
    rw [Note.Certain, htrack] at hc
    rw [htrack]
    cases h with
    | rest =>
      exact ⟨.rest, _, .rest hn.isRest, rfl, hn.likeTone⟩
    | spelled s value tone le =>
      exact ⟨.spelled s, _, .written hn.isRest hn.isPercussion (hunnamed hn.isRest) hn.written,
        ToneForm.read_spelled_ok tone le, hn.likeTone⟩
    | valued value byName le named =>
      have hvalue := hn.value.trans (value_ofValue (R := R) le)
      cases byName with
      | true =>
        obtain ⟨name, hname⟩ := named rfl
        rw [← hvalue] at hname
        refine ⟨.named name n.value hname, _, .named hn.isRest hname (.inl hn.isPercussion), rfl, ?_⟩
        rw [hvalue]
        exact hn.likeTone
      | false =>
        have hle : n.value ≤ maxData := hvalue ▸ le
        have htone := Spelling.tone_placed (R := R) key hle
        rw [hc hn.isRest hn.written hn.isPercussion, Int.add_zero] at htone
        refine ⟨_, _, .common hn.isRest hn.isPercussion (hunnamed hn.isRest) hn.written hle,
          ToneForm.read_spelled_ok htone hle, ?_⟩
        refine ⟨(Spelling.value_note _ hle).symm, hn.isRest, ?_, hn.isPercussion, ?_⟩
        · rw [hn.octaveWritten, Spelling.note, Spelling.ofTone_octave]
          rfl
        · rw [hn.written]
          rfl

theorem rooted {root : Note R} (h : ToneRead (.usual key) m)
    (rooted : (NoteContext.usual key).chordRoot m = .ok root) : root.value ≤ maxData ∧
      (root.isPercussion = true → ∃ name, Symbols.percussionName? root.value = some name) := by
  cases ho : m.octaveWritten with
  | true =>
    rw [chordRoot, if_pos ho] at rooted
    obtain rfl := Except.ok.inj rooted
    cases h with
    | rest => cases ho
    | spelled s value tone le => exact ⟨(s.value_note le).trans_le le, fun hp => nomatch hp⟩
    | valued value byName le named =>
      have hvalue := value_ofValue (R := R) le
      refine ⟨hvalue.trans_le le, fun hp => ?_⟩
      change ∃ name, Symbols.percussionName? (Note.ofValue value : Note R).value = some name
      rw [hvalue]
      exact named hp
  | false =>
    rw [chordRoot, if_neg (ho ▸ Bool.false_ne_true)] at rooted
    obtain ⟨value, hvalue, heq⟩ := ok_of_bind rooted
    obtain rfl := Except.ok.inj heq
    refine ⟨((checkRange_eq_ok_iff _ _ _ _ _).mp hvalue).2.2, fun hp => ?_⟩
    cases h with
    | rest => cases hp
    | spelled s value tone le => cases hp
    | valued value byName le named => cases ho

theorem apart_root {ctx : NoteContext R} {root : Note R} (h : ToneRead ctx m)
    (rooted : ctx.chordRoot m = .ok root) : root.Apart := by
  rw [chordRoot_same rooted]
  exact ⟨h.apart.isFirst, h.apart.isMelodic, h.apart.isHarmonic⟩

/-- A tone of the fourth octave that is written without one is read in the fifth, and brought down when it is
the root of a chord. -/
theorem chordRoot_free (key : Key) {value : Nat} (hle : value ≤ maxData) (hoctave : value / octaveSize = 4)
    (certain : key.alteration value = 0) :
    ∃ tone : Note R, (ToneForm.spelled (.ofTone value none)).read (.usual key) = .ok tone ∧
      (NoteContext.usual key).chordRoot tone = .ok { tone with value := value } ∧ tone.Apart := by
  have hmax : maxData = 127 := rfl
  have hsize : octaveSize = 12 := rfl
  have hlt : value % octaveSize < 12 := Nat.mod_lt _ (by decide)
  have hdiv := Nat.div_add_mod value octaveSize
  rw [hoctave] at hdiv
  have htone : (Spelling.ofTone value none).tone (NoteContext.usual key : NoteContext R) =
      (value + octaveSize : Nat) := by
    have hfollows : (NoteContext.usual key : NoteContext R).settings.followsKey = true := rfl
    rw [Spelling.ofTone_tone, hfollows, if_pos rfl]
    change ((60 + value % octaveSize : Nat) : Int) + key.alteration value = _
    rw [certain]
    omega
  have hup : value + octaveSize ≤ maxData := by omega
  let tone : Note R := (Spelling.ofTone value none).note (value + octaveSize)
  have hvalue : tone.value = value + octaveSize := Spelling.value_note _ hup
  have hdown : checkRange .note ((tone.value : Int) + ((4 : Nat) - (5 : Nat) : Int) * octaveSize)
      0 maxData = .ok value := by
    refine (checkRange_eq_ok_iff _ _ _ _ _).mpr ⟨?_, Nat.zero_le _, hle⟩
    omega
  have hfree : tone.octaveWritten = false := congrArg Option.isSome (Spelling.ofTone_octave _ _)
  refine ⟨tone, ToneForm.read_spelled_ok htone hup, ?_, rfl, rfl, rfl⟩
  rw [chordRoot, if_neg (hfree ▸ Bool.false_ne_true)]
  change (checkRange .note ((tone.value : Int) + ((4 : Nat) - (5 : Nat) : Int) * octaveSize)
    0 maxData >>= fun value => Except.ok { tone with value := value }) = _
  rw [hdown]
  rfl

/-- The root of a chord that was read is written so that it is read again. -/
theorem rootWritten {root : Note R} (h : ToneRead (.usual key) m)
    (rooted : (NoteContext.usual key).chordRoot m = .ok root) (hn : n.HasTone root)
    (certain : n.isPercussion = false → key.alteration n.value = 0)
    (placed : n.octaveWritten = false → n.octave = (NoteSettings.standard : NoteSettings R).chordOctave) :
    ∃ (form : ToneForm) (m' root' : Note R), RootTone n form ∧ form.read (.usual key) = .ok m' ∧
      (NoteContext.usual key).chordRoot m' = .ok root' ∧ root'.value = n.value ∧ root'.Apart := by
  obtain ⟨hle, hnamed⟩ := h.rooted rooted
  have hvalue : n.value ≤ maxData := hn.value ▸ hle
  cases hp : n.isPercussion with
  | true =>
    obtain ⟨name, hname⟩ := hnamed (hn.isPercussion ▸ hp)
    rw [← hn.value] at hname
    exact ⟨_, _, _, .named hp hname, rfl, rfl, value_ofValue (R := R) hvalue, rfl, rfl, rfl⟩
  | false =>
    cases ho : n.octaveWritten with
    | true =>
      have htone := Spelling.tone_placed (R := R) key hvalue
      rw [certain hp, Int.add_zero] at htone
      let spelling := Spelling.ofTone n.value (some (Spelling.octaveOf n.value hvalue))
      refine ⟨_, _, spelling.note n.value, .placed hp ho hvalue, ToneForm.read_spelled_ok htone hvalue,
        ?_, spelling.value_note hvalue, rfl, rfl, rfl⟩
      rw [chordRoot, if_pos]
      rw [Spelling.note, Spelling.ofTone_octave]
      rfl
    | false =>
      obtain ⟨tone, hread, hroot, hapart⟩ := chordRoot_free (R := R) key hvalue (placed ho) (certain hp)
      exact ⟨_, tone, _, .free hp ho, hread, hroot, rfl, hapart.isFirst, hapart.isMelodic,
        hapart.isHarmonic⟩

end ToneRead

/-- The place of a note in its group, as its joint says. -/
def Joint.mark {R : Type} (joint : Joint) (n : Note R) : Note R :=
  match joint with
  | .opening => { n with isFirst := true }
  | .harmonic => { n with isHarmonic := true }
  | .melodic => { n with isMelodic := true }

namespace Joint

theorem hasTone_mark {R : Type} (joint : Joint) {n m : Note R} (h : n.HasTone m) :
    (joint.mark n).HasTone m := by
  cases joint <;> exact ⟨h.value, h.isRest, h.octaveWritten, h.isPercussion, h.written⟩

theorem regular_mark (joint : Joint) {m n : Note R} (h : m.Suffixed n)
    (legible : (joint.mark n).lengthWritten = true → Length.Legible (joint.mark n).length) :
    (joint.mark n).Regular := by
  cases joint <;> exact ⟨h.attack_le, h.decay_le, legible, h.tied, h.restless⟩

end Joint

namespace Note

theorem onTrack_eq {R : Type} (track : Nat) (n : Note R) : ∃ octave percussion written,
    n.onTrack track =
      { n with octaveWritten := octave, isPercussion := percussion, written := written } := by
  unfold onTrack
  split
  · exact ⟨_, _, _, rfl⟩
  · exact ⟨_, _, _, rfl⟩

theorem beq_iff (a b : Note R) : (a == b) = true ↔ sameSpelling a.written b.written = true ∧
    a.value = b.value ∧ (a.length == b.length) = true ∧ a.octaveWritten = b.octaveWritten ∧
    a.lengthWritten = b.lengthWritten ∧ a.attack = b.attack ∧ a.decay = b.decay ∧
    a.isRest = b.isRest ∧ a.isFirst = b.isFirst ∧ a.isMelodic = b.isMelodic ∧
    a.isHarmonic = b.isHarmonic ∧ a.isPercussion = b.isPercussion ∧ a.startsTie = b.startsTie ∧
    a.endsTie = b.endsTie := by
  change (sameSpelling a.written b.written && a.value == b.value && a.length == b.length
    && a.octaveWritten == b.octaveWritten && a.lengthWritten == b.lengthWritten
    && a.attack == b.attack && a.decay == b.decay && a.isRest == b.isRest
    && a.isFirst == b.isFirst && a.isMelodic == b.isMelodic && a.isHarmonic == b.isHarmonic
    && a.isPercussion == b.isPercussion && a.startsTie == b.startsTie && a.endsTie == b.endsTie)
    = true ↔ _
  simp only [Bool.and_eq_true, beq_iff_eq, and_assoc]

variable {joint : Joint} {m n m' : Note R}

theorem length_dressed (zero : (((0 : Nat) : R) == ((0 : Nat) : R)) = true) (hm : m.Bare)
    (hm' : m'.Bare) (h : m.Suffixed n) (hn : (joint.mark n).Regular) :
    ((joint.mark n).length == (m'.dressed (joint.mark n)).length) = true := by
  have hlength : (joint.mark n).length = n.length := by cases joint <;> rfl
  have hwritten : (joint.mark n).lengthWritten = n.lengthWritten := by cases joint <;> rfl
  cases hw : n.lengthWritten with
  | true =>
    have hreread := (hn.legible (hwritten.trans hw)).beq_reread
    rwa [dressed, hwritten, hw, if_pos rfl]
  | false =>
    rw [dressed, hwritten, hw, if_neg Bool.false_ne_true, hlength, h.unwritten hw, hm.length, hm'.length]
    exact zero

/-- A tone that is like another one stays like it with the length, the velocities, the ties and the
place of the other. -/
theorem LikeTone.beq {track : Nat} (h : ((joint.mark n).onTrack track).LikeTone m') (hn : n.Apart)
    (hm' : m'.Apart)
    (length : ((joint.mark n).length == (m'.dressed (joint.mark n)).length) = true) :
    (((joint.mark n).onTrack track == joint.mark (m'.dressed (joint.mark n))) : Bool) = true := by
  obtain ⟨octave, percussion, spelling, heq⟩ := onTrack_eq track (joint.mark n)
  rw [heq] at h ⊢
  obtain ⟨value, isRest, octaveWritten, isPercussion, written⟩ := h
  obtain ⟨hfirst, hmelodic, hharmonic⟩ := hn
  obtain ⟨hfirst', hmelodic', hharmonic'⟩ := hm'
  rw [beq_iff]
  cases joint <;>
    exact ⟨written, value, length, octaveWritten, rfl, rfl, rfl, isRest, by simp [Joint.mark, dressed, *],
      by simp [Joint.mark, dressed, *], by simp [Joint.mark, dressed, *], isPercussion, rfl, rfl⟩

end Note

/-- What is written of a chord is read as its root, and its carets as carets: the key adds nothing to
the name of the root, which is in the octave for chords where it has none of its own, and no velocity
follows a caret. -/
structure Chord.Certain (key : Key) (c : Chord R) : Prop where
  root : c.root.isPercussion = false → key.alteration c.root.value = 0
  placed : c.root.octaveWritten = false →
    c.root.octave = (NoteSettings.standard : NoteSettings R).chordOctave
  closed : c.inversion = 0 ∨ c.root.endsTie = true ∨ c.root.lengthWritten = true ∨
    c.root.velocityText = []

instance (key : Key) (track : Nat) (n : Note R) : Decidable (n.Certain key track) :=
  inferInstanceAs (Decidable (_ → _ → _ → _))

instance (key : Key) (c : Chord R) : Decidable (c.Certain key) :=
  decidable_of_iff ((c.root.isPercussion = false → key.alteration c.root.value = 0) ∧
      (c.root.octaveWritten = false →
        c.root.octave = (NoteSettings.standard : NoteSettings R).chordOctave) ∧
      (c.inversion = 0 ∨ c.root.endsTie = true ∨ c.root.lengthWritten = true ∨
        c.root.velocityText = []))
    ⟨fun h => ⟨h.1, h.2.1, h.2.2⟩, fun h => ⟨h.root, h.placed, h.closed⟩⟩

namespace Event

def onTrack {R : Type} (track : Nat) : Event R → Event R
  | .note n => .note (n.onTrack track)
  | e => e

/-- What is written of a note or a chord on a track has one reading in a key. -/
def Certain (key : Key) (track : Nat) : Event R → Prop
  | .note n => n.Certain key track
  | .chord c => c.Certain key
  | _ => True

/-- The numbers of an event that have a fraction are written so that they are read again. -/
def Legible : Event R → Prop
  | .note n => n.lengthWritten = true → Length.Legible n.length
  | .chord c => c.root.lengthWritten = true → Length.Legible c.root.length
  | .timeRequest time => Fragment.LegibleTime time
  | _ => True

instance (key : Key) (t : Nat) (e : Event R) : Decidable (e.Certain key t) :=
  match e with
  | .note n => inferInstanceAs (Decidable (n.Certain key t))
  | .chord c => inferInstanceAs (Decidable (c.Certain key))
  | .parsingStarts | .parsingEnds | .track _ | .layer _ | .instrument _ | .tempo _
  | .keySignature _ _ | .timeSignature _ _ | .barLine _ | .bookmark _ | .bookmarkRequest _
  | .timeRequest _
  | .pitchWheel _ _ | .channelPressure _ | .polyPressure _ _ | .systemExclusive _ | .controller _ _
  | .lyric _ | .marker _ | .call _ _ | .notePressed _ | .noteReleased _ => isTrue trivial

instance (e : Event R) : Decidable e.Legible :=
  match e with
  | .note n => inferInstanceAs (Decidable (n.lengthWritten = true → Length.Legible n.length))
  | .chord c => inferInstanceAs (Decidable (c.root.lengthWritten = true → Length.Legible c.root.length))
  | .timeRequest time => inferInstanceAs (Decidable (Fragment.LegibleTime time))
  | .parsingStarts | .parsingEnds | .track _ | .layer _ | .instrument _ | .tempo _
  | .keySignature _ _ | .timeSignature _ _ | .barLine _ | .bookmark _ | .bookmarkRequest _
  | .pitchWheel _ _ | .channelPressure _ | .polyPressure _ _ | .systemExclusive _ | .controller _ _
  | .lyric _ | .marker _ | .call _ _ | .notePressed _ | .noteReleased _ => isTrue trivial

/-- An event that is heard again: the same, but for times and lengths that equal each other, and for
the spelling of tones and the names of chords. -/
inductive Alike : Event R → Event R → Prop where
  | same (e : Event R) : Alike e e
  | time {time time' : R} (h : (time == time') = true) : Alike (.timeRequest time) (.timeRequest time')
  | note {n n' : Note R} (h : (n == n') = true) : Alike (.note n) (.note n')
  | chord {c c' : Chord R} (h : (c == c') = true) (length : (c.root.length == c'.root.length) = true)
    (attack : c.root.attack = c'.root.attack) (decay : c.root.decay = c'.root.decay)
    (startsTie : c.root.startsTie = c'.root.startsTie) (endsTie : c.root.endsTie = c'.root.endsTie) :
    Alike (.chord c) (.chord c')

end Event

theorem Chord.beq_iff {R : Type} (a b : Chord R) : (a == b) = true ↔
    a.root.value = b.root.value ∧ a.intervals = b.intervals ∧ a.inversion = b.inversion := by
  change (a.root.value == b.root.value && a.intervals == b.intervals && a.inversion == b.inversion)
    = true ↔ _
  simp only [Bool.and_eq_true, beq_iff_eq, and_assoc]

namespace ElementRead

variable {key : Key} {e : Element R}

/-- A note or a chord that was read is written so that something like it is read. -/
theorem again (zero : (((0 : Nat) : R) == ((0 : Nat) : R)) = true) (h : ElementRead (.usual key) e)
    (joint : Joint) {track : Nat} (legible : (Fragment.elementEvent (join joint e)).Legible)
    (certain : (Fragment.elementEvent (join joint e)).Certain key track) :
    ∃ (form : Form R) (e' : Element R), form.Spells track (join joint e) ∧
      form.read (.usual key) = .ok e' ∧
      ((Fragment.elementEvent (join joint e)).onTrack track).Alike
        (Fragment.elementEvent (join joint e')) := by
  cases h with
  | @note m n tone suffixed =>
    have hregular := joint.regular_mark suffixed legible
    obtain ⟨form, m', hform, hread, hlike⟩ :=
      tone.written (joint.hasTone_mark suffixed.hasTone) certain
    have hlength := Note.length_dressed zero tone.bare (ToneForm.read_bare hread).1 suffixed hregular
    refine ⟨.note form (joint.mark n), .note (m'.dressed (joint.mark n)), hform.spells hregular, ?_, ?_⟩
    · rw [Form.read, hread]
      rfl
    · exact .note (hlike.beq (suffixed.apart tone.apart) (ToneForm.read_apart hread) hlength)
  | @chord m root n name shape inversion tone sounding rooted suffixed known =>
    have hregular := joint.regular_mark suffixed legible
    have hroot := Form.chordRoot_bare tone.bare rooted
    have hsounding : (joint.mark n).isRest = false := by
      rw [(joint.hasTone_mark suffixed.hasTone).isRest, hroot.2, sounding]
    obtain ⟨form, m', root', hform, hread, hrooted, hvalue, hapart⟩ :=
      tone.rootWritten rooted (joint.hasTone_mark suffixed.hasTone) certain.root certain.placed
    have hbare := Form.chordRoot_bare (ToneForm.read_bare hread).1 hrooted
    have hlength := Note.length_dressed zero hroot.1 hbare.1 suffixed hregular
    let c : Chord R := ⟨joint.mark n, shape, inversion, some name⟩
    refine ⟨.chord form name shape inversion (joint.mark n),
      .chord ⟨root'.dressed (joint.mark n), shape, inversion, some name⟩,
      RootTone.spells (c := c) hform hregular hsounding rfl known certain.closed, ?_, ?_⟩
    · rw [Form.read, hread]
      simp only [bind, Except.bind, hrooted, pure, Except.pure]
    · have hvalue' : (joint.mark n).value = (joint.mark (root'.dressed (joint.mark n))).value := by
        rw [← hvalue]
        cases joint <;> rfl
      refine .chord ((Chord.beq_iff _ _).mpr ⟨hvalue', rfl, rfl⟩) ?_ ?_ ?_ ?_ ?_ <;>
        cases joint <;> first | exact hlength | rfl

end ElementRead

end ScoreText
