import ScoreText.Proofs.Notation.Identifying
import ScoreText.Proofs.Notation.Progress

/-!
Chords beside the octave for notes. A chord root without an octave belongs into the octave for chords, and a bass only
counts by its pitch class; both are looked at in the octave for notes first, where the lowest and the highest of them
have no place if that octave is the lowest or the highest there is.
-/

set_option autoImplicit false

namespace ScoreText

namespace NoteContext

variable {R : Type}

/-- The same context with another octave for notes. -/
def withOctave (ctx : NoteContext R) (octave : Nat) : NoteContext R :=
  { ctx with settings := { ctx.settings with octave := octave } }

/-- A tone that a text spells without an octave and that has no place in the octave of the context. -/
structure Outside (ctx : NoteContext R) (text : Text) (s : Spelling) : Prop where
  octaveless : s.octave = none
  written : s.text <:+: text
  range : s.tone ctx < 0 ∨ (maxData : Int) < s.tone ctx

/-- What is read with a property, or not at all for the sake of a tone out of range. -/
inductive Survives {α : Type} (ctx : NoteContext R) (text : Text) (P : α → Prop) : Except Error α → Prop where
  | read {a : α} (h : P a) : Survives ctx text P (.ok a)
  | outside {s : Spelling} (h : ctx.Outside text s) :
    Survives ctx text P (.error (.outOfRange .note (s.tone ctx) 0 maxData))

namespace Survives

variable {α β : Type} {ctx : NoteContext R} {s t : Text} {P : α → Prop} {Q : β → Prop}

theorem bind {x : Except Error α} (hx : Survives ctx s P x) {f : α → Except Error β}
    (hf : ∀ a, P a → Survives ctx s Q (f a)) : Survives ctx s Q (x >>= f) := by
  cases hx with
  | read h => exact hf _ h
  | outside h => exact .outside h

theorem mono {x : Except Error α} (hx : Survives ctx s P x) (h : s <:+ t) : Survives ctx t P x := by
  cases hx with
  | read ha => exact .read ha
  | outside hs => exact .outside ⟨hs.octaveless, hs.written.trans h.isInfix, hs.range⟩

theorem eq_ok {x : Except Error α} {a : α} (h : x = .ok a) (ha : P a) : Survives ctx s P x := h ▸ .read ha

end Survives

theorem shift_le {R : Type} (ctx : NoteContext R) (s : Spelling) :
    -1 ≤ s.sign.shift (if ctx.settings.followsKey then ctx.key.accidental s.letter else 0) ∧
      s.sign.shift (if ctx.settings.followsKey then ctx.key.accidental s.letter else 0) ≤ 1 := by
  have hkey : -1 ≤ ctx.key.accidental s.letter ∧ ctx.key.accidental s.letter ≤ 1 := by
    unfold Key.accidental
    split
    · decide
    · split <;> decide
  cases s.sign with
  | bare =>
    rw [Sign.shift]
    split
    · exact hkey
    · decide
  | sharp | flat | natural => simp [Sign.shift]

/-- Only in the lowest octave and in those from the highest on is a tone out of range. -/
theorem Outside.octave {ctx : NoteContext R} {text : Text} {s : Spelling} (h : ctx.Outside text s) :
    ctx.settings.octave = 0 ∧ s.tone ctx = -1 ∨ 10 ≤ ctx.settings.octave ∧ (maxData : Int) < s.tone ctx := by
  have hposition := Tone.ofLetter?_lt _ _ s.isLetter
  obtain ⟨hlow, hhigh⟩ := ctx.shift_le s
  have hrange := h.range
  rw [Spelling.tone, h.octaveless, Option.map_none, Option.getD_none] at hrange ⊢
  generalize s.sign.shift _ = shift at *
  simp only [octaveSize, maxData] at *
  omega

variable [Scalar R] {ctx : NoteContext R} {text s rest : Text} {octave : Nat}

/-- Which spelling a text starts with has nothing to do with the octave. -/
theorem readLetter_spelled (ctx : NoteContext R) (text s : Text) :
    (∃ e, ∀ octave, (ctx.withOctave octave).readLetter text s = .error e) ∨
      ∃ (spelling : Spelling) (rest : Text), s = spelling.text ++ rest ∧
        ∀ octave, (ctx.withOctave octave).readLetter text s =
          (checkRange .note (spelling.tone (ctx.withOctave octave)) 0 maxData).map fun v =>
            (spelling.note v, rest) := by
  cases s with
  | nil => exact .inl ⟨_, fun _ => rfl⟩
  | cons letter r =>
    cases hl : Tone.ofLetter? letter with
    | none => exact .inl ⟨.malformed .expectedLetter text, fun _ => by simp only [readLetter, hl]⟩
    | some position =>
      obtain ⟨⟨shift, after⟩, hacc⟩ : ∃ p, ctx.readAccidental letter r = p := ⟨_, rfl⟩
      obtain ⟨⟨octave, rest⟩, hoct⟩ : ∃ p, readOctave after = p := ⟨_, rfl⟩
      obtain ⟨sign, hr, hshift⟩ := Spelling.readAccidental_eq hacc
      obtain ⟨o, rfl, hafter⟩ := Spelling.readOctave_eq hoct
      let spelling : Spelling := ⟨letter, position, hl, sign, o⟩
      have htext : letter :: r = spelling.text ++ rest := by
        rw [hr, hafter]
        cases o <;> simp [spelling, Spelling.text, Spelling.octaveText]
      have hwritten : (letter :: r).take (r.length + 1 - rest.length) = spelling.text := by
        have hlength := congrArg List.length htext
        simp only [List.length_cons, List.length_append] at hlength
        rw [show r.length + 1 - rest.length = spelling.text.length by omega, htext, List.take_left]
      refine .inr ⟨spelling, rest, htext, fun octave' => ?_⟩
      have hsame : (ctx.withOctave octave').readAccidental letter r = (shift, after) := hacc
      have htone : (((o.map fun o => o.val).getD (ctx.withOctave octave').settings.octave : Nat) : Int) * octaveSize +
          position + shift = spelling.tone (ctx.withOctave octave') := by
        rw [hshift]
        rfl
      simp only [readLetter, hl, hsame, hoct, htone, hwritten, Option.isSome_map]
      cases checkRange .note (spelling.tone (ctx.withOctave octave')) 0 maxData <;> rfl

theorem tone_withOctave {R : Type} (ctx : NoteContext R) (octave : Nat) (s : Spelling) :
    s.tone (ctx.withOctave octave) =
      s.tone ctx + if s.octave.isSome then 0 else ((octave : Int) - ctx.settings.octave) * octaveSize := by
  have hsign : s.sign.shift (if (ctx.withOctave octave).settings.followsKey then
      (ctx.withOctave octave).key.accidental s.letter else 0) =
        s.sign.shift (if ctx.settings.followsKey then ctx.key.accidental s.letter else 0) := rfl
  have hoctave : (ctx.withOctave octave).settings.octave = octave := rfl
  rw [Spelling.tone, Spelling.tone, hsign, hoctave]
  cases s.octave with
  | some o => simp
  | none =>
    simp only [Option.map_none, Option.getD_none, Option.isSome_none, Bool.false_eq_true, if_false, octaveSize]
    omega

/-- A tone read in one octave and in another, which lie as far apart as the octaves when it names none. -/
inductive Moved {R : Type} (ctx : NoteContext R) (octave : Nat) (n : Note R) : Note R → Prop where
  | shift {value : Nat} (h : (value : Int) =
      n.value + if n.octaveWritten then 0 else ((octave : Int) - ctx.settings.octave) * octaveSize) :
    Moved ctx octave n { n with value := value }

omit [Scalar R] in
theorem Moved.of_written {n : Note R} (h : n.octaveWritten = true) : ctx.Moved octave n n := by
  refine @shift R ctx octave n n.value ?_
  rw [h, if_pos rfl, Int.add_zero]

theorem Moved.of_note {s : Spelling} {value moved : Nat} (hvalue : value ≤ maxData) (hmoved : moved ≤ maxData)
    (h : (moved : Int) = value + if s.octave.isSome then 0 else ((octave : Int) - ctx.settings.octave) * octaveSize) :
    ctx.Moved octave (s.note value) (s.note moved) := by
  have hsame : (s.note moved : Note R) = { (s.note value : Note R) with value := moved } := by
    rw [Spelling.note, Note.ofValue, Nat.min_eq_left hmoved]
    rfl
  have hread : (s.note value : Note R).value = value := Nat.min_eq_left hvalue
  rw [hsame]
  exact .shift (by rw [hread]; exact h)

theorem survives_readLetter {n : Note R} (h : ctx.readLetter text s = .ok (n, rest)) (octave : Nat) :
    Survives (ctx.withOctave octave) s (fun p => ctx.Moved octave n p.1 ∧ p.2 = rest)
      ((ctx.withOctave octave).readLetter text s) := by
  have h : (ctx.withOctave ctx.settings.octave).readLetter text s = .ok (n, rest) := h
  rcases ctx.readLetter_spelled text s with ⟨e, he⟩ | ⟨spelling, left, hs, hread⟩
  · rw [he] at h
    cases h
  · rw [hread] at h
    obtain ⟨value, hvalue, heq⟩ := ok_of_map h
    cases heq
    obtain ⟨htone, -, hle⟩ := (checkRange_eq_ok_iff _ _ _ _ _).mp hvalue
    have htone : spelling.tone ctx = value := htone
    have hmoved := ctx.tone_withOctave octave spelling
    rw [hread, checkRange]
    split
    · rename_i hrange
      refine .outside ⟨?_, hs ▸ (List.prefix_append _ _).isInfix, hrange⟩
      cases ho : spelling.octave with
      | none => rfl
      | some o =>
        rw [hmoved, htone, ho, Option.isSome_some, if_pos rfl] at hrange
        omega
    · rename_i hrange
      refine .read ⟨.of_note hle (by omega) ?_, rfl⟩
      rw [← htone, Int.toNat_of_nonneg (by omega)]
      exact hmoved

theorem octaveWritten_of_readBracketed {n : Note R} (h : ctx.readBracketed text s = .ok (n, rest)) :
    n.octaveWritten = true := by
  obtain ⟨inner, value, -, -, rfl⟩ := NoteContext.readBracketed_eq_ok h
  rfl

theorem survives_readTone {n : Note R} (h : ctx.readTone text s = .ok (n, rest)) (hn : n.isRest = false)
    (octave : Nat) : Survives (ctx.withOctave octave) s (fun p => ctx.Moved octave n p.1 ∧ p.2 = rest)
      ((ctx.withOctave octave).readTone text s) := by
  unfold readTone at h ⊢
  split at h
  · cases h
  · cases h
    cases hn
  · exact .eq_ok h ⟨.of_written (octaveWritten_of_readBracketed h), rfl⟩
  · split at h
    · rename_i hdigit
      rw [if_pos hdigit]
      refine .eq_ok h ⟨.of_written ?_, rfl⟩
      obtain ⟨value, -, heq⟩ := ok_of_bind h
      cases heq
      rfl
    · rename_i hdigit
      rw [if_neg hdigit]
      exact survives_readLetter h octave

theorem Moved.velocities {R : Type} {ctx : NoteContext R} {octave : Nat} {n n' : Note R} (h : ctx.Moved octave n n')
    (attack decay : Nat) : ctx.Moved octave { n with attack := attack, decay := decay }
      { n' with attack := attack, decay := decay } := by
  cases h with
  | shift hvalue => exact .shift hvalue

theorem Moved.matchChord? {R : Type} {ctx : NoteContext R} {octave : Nat} {n n' : Note R} (h : ctx.Moved octave n n')
    (s : Text) : (ctx.withOctave octave).matchChord? n' s = ctx.matchChord? n s := by
  cases h with
  | shift => rfl

/-- The root of a chord is in the octave for chords, wherever it was read. -/
theorem Moved.chordRoot {R : Type} {ctx : NoteContext R} {octave : Nat} {n n' root : Note R}
    (h : ctx.Moved octave n n') (hroot : ctx.chordRoot n = .ok root) :
    (ctx.withOctave octave).chordRoot n' = .ok root := by
  cases h with
  | @shift moved hmoved =>
    unfold NoteContext.chordRoot at hroot ⊢
    split at hroot
    · rename_i hw
      rw [if_pos hw] at hmoved ⊢
      rw [show moved = n.value by omega]
      exact hroot
    · rename_i hw
      rw [if_neg hw] at hmoved ⊢
      have hshift : (moved : Int) + ((ctx.settings.chordOctave : Int) - octave) * octaveSize =
          n.value + ((ctx.settings.chordOctave : Int) - ctx.settings.octave) * octaveSize := by
        simp only [octaveSize] at *
        omega
      obtain ⟨value, hvalue, heq⟩ := ok_of_bind hroot
      cases heq
      simp only [withOctave, hshift, hvalue, bind, Except.bind, pure, Except.pure]

/-- A bass counts by its pitch class, which is the same in every octave. -/
theorem Moved.withBass {R : Type} {ctx : NoteContext R} {octave : Nat} {n n' : Note R} (h : ctx.Moved octave n n')
    (c : Chord R) : c.withBass n' = c.withBass n := by
  cases h with
  | @shift moved hmoved =>
    have hclass : (moved : Int) % octaveSize = (n.value : Int) % octaveSize := by
      simp only [octaveSize] at *
      split at hmoved <;> omega
    rw [Chord.withBass, Chord.withBass, Chord.degreeWithClass?, Chord.degreeWithClass?, hclass]

theorem survives_readInversion {count : Nat} {inversion : Inversion R}
    (h : ctx.readInversion text count s = .ok (inversion, rest)) (octave : Nat) :
    Survives (ctx.withOctave octave) s (fun p => (∀ c : Chord R, p.1.apply c = inversion.apply c) ∧ p.2 = rest)
      ((ctx.withOctave octave).readInversion text count s) := by
  fun_induction ctx.readInversion text count s with
  | case1 count r position hletter =>
    obtain ⟨⟨bass, left⟩, hbass, heq⟩ := ok_of_bind h
    cases heq
    have hread := (survives_readLetter hbass octave).mono (List.suffix_cons '^' r)
    rw [readInversion, hletter]
    refine hread.bind fun p hp => .read ⟨fun c => ?_, hp.2⟩
    exact hp.1.withBass c
  | case2 count r hnone ih =>
    rw [readInversion, hnone]
    exact (ih h).mono (List.suffix_cons '^' r)
  | case3 count s hcaret =>
    cases h
    rw [readInversion]
    · exact .read ⟨fun _ => rfl, rfl⟩
    · exact hcaret

theorem isRest_of_matchChord? {R : Type} {ctx : NoteContext R} {n : Note R} {found : Text × Intervals}
    (h : ctx.matchChord? n s = some found) : n.isRest = false := by
  unfold matchChord? at h
  split at h
  · cases h
  · exact Bool.eq_false_iff.mpr ‹_›

/-- A chord is read as it is in the other octave, or not at all. -/
theorem survives_readElement {c : Chord R} (h : ctx.readElement text s = .ok (.chord c, rest)) (octave : Nat) :
    Survives (ctx.withOctave octave) s (· = (.chord c, rest)) ((ctx.withOctave octave).readElement text s) := by
  obtain ⟨⟨tone, afterTone⟩, htone, h⟩ := ok_of_bind h
  have hafter : afterTone <:+ s := ((ctx.keeps_readTone text s).suffix _ _ htone).trans (List.tail_suffix s)
  dsimp only at h
  split at h
  · obtain ⟨⟨note, left⟩, -, heq⟩ := ok_of_bind h
    cases heq
  · rename_i name shape hmatch
    obtain ⟨root, hroot, h⟩ := ok_of_bind h
    obtain ⟨⟨inversion, afterInversion⟩, hinversion, h⟩ := ok_of_bind h
    obtain ⟨⟨dressed, left⟩, hsuffix, heq⟩ := ok_of_bind h
    refine (survives_readTone htone (isRest_of_matchChord? hmatch) octave).bind fun ⟨tone', after'⟩ htone' => ?_
    obtain ⟨hmoved, rfl⟩ := htone'
    have hmoved := hmoved.velocities ctx.settings.attack ctx.settings.decay
    have hmatch' := (hmoved.matchChord? after').trans hmatch
    have hroot' := hmoved.chordRoot hroot
    have hinversion' := (survives_readInversion hinversion octave).mono ((List.drop_suffix _ _).trans hafter)
    simp only [withOctave] at hmatch' hroot' hinversion' ⊢
    simp only [hmatch', hroot']
    refine hinversion'.bind fun ⟨inversion', after''⟩ ⟨happly, hleft⟩ => ?_
    subst hleft
    have hchord := happly { root := dressed, intervals := shape, name := some name }
    dsimp only at hsuffix hchord
    simp only [hsuffix, bind, Except.bind]
    cases heq
    refine .read (Prod.ext ?_ rfl)
    cases inversion' <;> cases inversion <;> exact congrArg Element.chord hchord

/-- Joined chords are read as they are in the other octave, or not at all. -/
theorem survives_readJoined {fuel : Nat} {joint : Joint} {es : List (Element R)}
    (h : ctx.readJoined text fuel joint s = .ok (es, rest)) (hchords : ∀ e ∈ es, ∃ c, e = .chord c) (octave : Nat) :
    Survives (ctx.withOctave octave) s (· = (es, rest)) ((ctx.withOctave octave).readJoined text fuel joint s) := by
  induction fuel generalizing joint s es with
  | zero => exact .eq_ok h rfl
  | succ fuel ih =>
    obtain ⟨⟨e, left⟩, he, h⟩ := ok_of_bind h
    have hchord : ∀ members, es = join joint e :: members → ∃ c, e = .chord c := by
      rintro members rfl
      obtain ⟨c, hc⟩ := hchords _ List.mem_cons_self
      cases e with
      | note n => cases hc
      | chord c => exact ⟨c, rfl⟩
    have hleft : left <:+ s := ((ctx.keeps_readElement text s).suffix _ _ he).trans (List.tail_suffix s)
    dsimp only at h
    rw [readJoined]
    split at h
    · rename_i hjoint
      cases h
      obtain ⟨c, rfl⟩ := hchord _ rfl
      refine (survives_readElement he octave).bind fun p hp => ?_
      subst hp
      simp only [hjoint]
      exact .read rfl
    · rename_i next after hjoint
      obtain ⟨⟨more, last⟩, hmore, h⟩ := ok_of_bind h
      cases h
      obtain ⟨c, rfl⟩ := hchord _ rfl
      refine (survives_readElement he octave).bind fun p hp => ?_
      subst hp
      simp only [hjoint]
      have hrest := ih hmore fun e he => hchords e (List.mem_cons_of_mem _ he)
      refine (hrest.mono ((suffix_of_readJoint? hjoint).trans hleft)).bind fun q hq => ?_
      subst hq
      exact .read rfl

/-- Where a text is read as chords, the octave for notes changes nothing about them, unless a root or a bass without
an octave is out of range in it: flat of the lowest C in the lowest octave, or above the highest G from octave ten. -/
theorem read_chords_withOctave {es : List (Element R)} (h : ctx.read text = .ok (es, rest))
    (hchords : ∀ e ∈ es, ∃ c, e = .chord c) (octave : Nat) :
    (ctx.withOctave octave).read text = .ok (es, rest) ∨
      ∃ s : Spelling, s.octave = none ∧ s.text <:+: text ∧
        (octave = 0 ∧ s.tone (ctx.withOctave octave) = -1 ∨
          10 ≤ octave ∧ (maxData : Int) < s.tone (ctx.withOctave octave)) ∧
        (ctx.withOctave octave).read text = .error (.outOfRange .note (s.tone (ctx.withOctave octave)) 0 maxData) := by
  have hread : Survives (ctx.withOctave octave) text (· = (es, rest)) ((ctx.withOctave octave).read text) :=
    survives_readJoined h hchords octave
  generalize (ctx.withOctave octave).read text = reading at *
  cases hread with
  | read heq => exact .inl (congrArg Except.ok heq)
  | outside hs => exact .inr ⟨_, hs.octaveless, hs.written, hs.octave, rfl⟩

/-- A major over E is the same from any octave for notes but the tenth, where the A on the way is out of range. -/
theorem read_chords_withOctave_tenth : ∃ es : List (Element Rat),
    (usual .cMajor).read "AMAJ^E".toList = .ok (es, []) ∧ (∀ e ∈ es, ∃ c, e = .chord c) ∧
      ((usual .cMajor).withOctave 7).read "AMAJ^E".toList = .ok (es, []) ∧
      ((usual .cMajor : NoteContext Rat).withOctave 10).read "AMAJ^E".toList =
        .error (.outOfRange .note 129 0 maxData) := by
  obtain ⟨es, hread, hchords⟩ : ∃ es : List (Element Rat),
      (usual .cMajor).read "AMAJ^E".toList = .ok (es, []) ∧ ∀ e ∈ es, ∃ c, e = .chord c :=
    ⟨_, rfl, List.forall_mem_singleton.mpr ⟨_, rfl⟩⟩
  refine ⟨es, hread, hchords, (read_chords_withOctave hread hchords 7).resolve_right ?_, rfl⟩
  rintro ⟨s, -, -, ⟨hoctave, -⟩ | ⟨hoctave, -⟩, -⟩ <;> exact absurd hoctave (by decide)

end NoteContext

end ScoreText
