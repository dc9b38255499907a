import ScoreText.Proofs.Notation.Signs

/-!
What a writer writes of notes and chords, as forms of a notation.
-/

set_option autoImplicit false

namespace ScoreText

open NoteContext

variable {R : Type} [Scalar R]

theorem plain_of_isDigit {c : Char} (h : c.isDigit = true) : Expansion.plainChar c = true ∧ c ≠ ':' := by
  refine ⟨(isRaised_spec (isRaised_of_isDigit h)).1, ?_⟩
  rintro rfl
  exact absurd h (by decide)

theorem plain_of_isAlphanum {c : Char} (h : c.isAlphanum = true) :
    Expansion.plainChar c = true ∧ c ≠ ':' := by
  have hlt : c.toNat < 128 := Text.lt_of_isAlphanum h
  have hall : ∀ n < 128, (Char.ofNat n).isAlphanum = true →
      Expansion.plainChar (Char.ofNat n) = true ∧ Char.ofNat n ≠ ':' := by
    decide
  exact Expansion.forall_ascii
    (P := fun c => c.isAlphanum = true → Expansion.plainChar c = true ∧ c ≠ ':') hall hlt h

/-- Nothing that is written after a tone means anything to expansion. -/
theorem Note.Spelled.plain_suffix {n : Note R} (h : n.Spelled) :
    ∀ c ∈ n.suffix, Expansion.plainChar c = true ∧ c ≠ ':' := by
  have hone : ∀ (b : Bool) (c : Char), c ∈ (if b then ['-'] else []) →
      Expansion.plainChar c = true ∧ c ≠ ':' := by
    intro b c hc
    cases b with
    | false => cases hc
    | true =>
      rw [List.mem_singleton.mp hc]
      decide
  have hvelocity : ∀ (sign : Char) (v : Nat) (c : Char), sign ∈ ['a', 'd'] →
      c ∈ (if v = usualVelocity then [] else sign :: Text.ofNat v) →
        Expansion.plainChar c = true ∧ c ≠ ':' := by
    intro sign v c hsign hc
    split at hc
    · cases hc
    · rcases List.mem_cons.mp hc with rfl | hc
      · exact (by decide : ∀ c ∈ ['a', 'd'], Expansion.plainChar c = true ∧ c ≠ ':') c hsign
      · exact plain_of_isDigit (Text.isDigit_of_mem_ofNat hc)
  intro c hc
  simp only [Note.suffix, Note.velocityText, List.mem_append] at hc
  rcases hc with ((hc | hc) | hc) | hc | hc
  · exact hone _ c hc
  · split at hc
    · rename_i hw
      rcases (h.readable hw).chars c hc with hc | rfl | rfl
      · exact plain_of_isAlphanum hc
      · decide
      · decide
    · cases hc
  · exact hone _ c hc
  · exact hvelocity 'a' _ c (by simp) hc
  · exact hvelocity 'd' _ c (by simp) hc

namespace Spelling

theorem raised_text (s : Spelling) : ∀ c ∈ s.text, isRaised c = true ∧ c ≠ ':' := by
  intro c hc
  rw [Spelling.text, List.mem_cons, List.mem_append] at hc
  rcases hc with rfl | hc | hc
  · have hall : ∀ c ∈ ['C', 'D', 'E', 'F', 'G', 'A', 'B'], isRaised c = true ∧ c ≠ ':' := by decide
    exact hall _ s.letter_cases
  · have hall : ∀ (sign : Sign) (c : Char), c ∈ sign.text → isRaised c = true ∧ c ≠ ':' := by
      intro sign c hc
      cases sign <;> simp only [Sign.text, List.mem_singleton, List.not_mem_nil] at hc <;>
        rw [hc] <;> decide
    exact hall _ c hc
  · unfold octaveText at hc
    split at hc
    · have hd := Text.isDigit_of_mem_ofNat hc
      exact ⟨isRaised_of_isDigit hd, (plain_of_isDigit hd).2⟩
    · cases hc

theorem plain_name (value : Nat) : ∀ c ∈ Tone.name value, Expansion.plainChar c = true ∧ c ≠ ':' := by
  have hall : ∀ p < 12, ∀ c ∈ Tone.name p, Expansion.plainChar c = true ∧ c ≠ ':' := by
    decide +kernel
  rw [← name_mod]
  exact hall _ (Nat.mod_lt _ (by decide))

theorem plain_text (value : Nat) : ∀ c ∈ Tone.text value, Expansion.plainChar c = true ∧ c ≠ ':' := by
  intro c hc
  rcases List.mem_append.mp hc with hc | hc
  · exact plain_name _ c hc
  · exact plain_of_isDigit (Text.isDigit_of_mem_ofNat hc)

/-- The octave of a tone as the octave of a spelling. -/
def octaveOf (value : Nat) (h : value ≤ maxData) : Fin 11 :=
  ⟨Tone.octave value, by
    have : maxData = 127 := rfl
    simp only [Tone.octave, octaveSize]
    omega⟩

theorem upper_octave (value : Nat) (octave : Option (Fin 11)) :
    Text.upper (Tone.name value ++ (match octave with | some o => Text.ofNat o.val | none => [])) =
      (ofTone value octave).text := by
  rw [Text.upper_append, upper_name value octave, Spelling.text, octaveText, ofTone_octave,
    List.cons_append]
  cases octave with
  | none => rfl
  | some o => rw [Text.upper_ofNat]

theorem upper_plain (value : Nat) : Text.upper (Tone.name value) = (ofTone value none).text := by
  rw [← upper_octave, List.append_nil]

end Spelling

/-- How the tone of a note stands in a notation written on a track. -/
inductive NoteTone (track : Nat) (n : Note R) : ToneForm → Prop where
  | rest (silent : n.isRest = true) : NoteTone track n .rest
  | named {name : Text} (sounding : n.isRest = false)
    (known : Symbols.percussionName? n.value = some name)
    (percussive : n.isPercussion = true ∨ track = Symbols.percussionTrack) :
    NoteTone track n (.named name n.value known)
  | written {s : Spelling} (sounding : n.isRest = false) (tonal : n.isPercussion = false)
    (unnamed : track = Symbols.percussionTrack → Symbols.percussionName? n.value = none)
    (written : n.written = some s.text) : NoteTone track n (.spelled s)
  | common (sounding : n.isRest = false) (tonal : n.isPercussion = false)
    (unnamed : track = Symbols.percussionTrack → Symbols.percussionName? n.value = none)
    (unwritten : n.written = none) (le : n.value ≤ maxData) :
    NoteTone track n (.spelled (.ofTone n.value (some (Spelling.octaveOf n.value le))))

theorem percussion_plain {value : Nat} {name : Text} (h : Symbols.percussionName? value = some name) :
    ∀ c ∈ '[' :: (name ++ [']']), isRaised c = true ∧ c ≠ ':' := by
  intro c hc
  simp only [List.mem_cons, List.mem_append, List.not_mem_nil, or_false] at hc
  rcases hc with rfl | hc | rfl
  · decide
  · have hs := Symbols.isSymbolChar_of_mem (Symbols.mem_percussion h) c hc
    exact ⟨isRaised_of_isSymbolChar hs, (Symbols.isSymbolChar_spec hs).2.2.2.2⟩
  · decide

theorem percussionText_of_known {value : Nat} {name : Text}
    (h : Symbols.percussionName? value = some name) : Tone.percussionText value = '[' :: (name ++ [']']) := by
  rw [Tone.percussionText, h]
  rfl

theorem plain_of_raised {t : Text} (h : ∀ c ∈ t, isRaised c = true ∧ c ≠ ':') :
    ∀ c ∈ t, Expansion.plainChar c = true ∧ c ≠ ':' :=
  fun c hc => ⟨(isRaised_spec (h c hc).1).1, (h c hc).2⟩

/-- On the track of percussion a note without a name there is written as on every other. -/
theorem text_of_unnamed {track : Nat} {n : Note R}
    (unnamed : track = Symbols.percussionTrack → Symbols.percussionName? n.value = none) :
    Element.text track (.note n) = n.text := by
  rw [Element.text, Note.percussionText]
  split
  · rename_i htrack
    rw [if_pos (.inr (unnamed htrack))]
  · rfl

theorem spells_of_text {track : Nat} {n : Note R} (hn : n.Regular) {tone : ToneForm} {t : Text}
    (htext : Element.text track (.note n) = t ++ n.suffix) (hupper : Text.upper t = tone.text)
    (hplain : ∀ c ∈ t, Expansion.plainChar c = true ∧ c ≠ ':') (hrest : tone.isRest = n.isRest) :
    (Form.note tone n).Spells track (.note n) := by
  refine ⟨.note hn hrest, ?_, fun c hc => ?_⟩
  · rw [htext, Text.upper_append, hupper]
    rfl
  · rw [htext, List.mem_append] at hc
    rcases hc with hc | hc
    · exact hplain c hc
    · exact hn.spelled.plain_suffix c hc

/-- What is written of a note is its tone and what follows a tone. -/
theorem NoteTone.spells {track : Nat} {n : Note R} {tone : ToneForm} (h : NoteTone track n tone)
    (hn : n.Regular) : (Form.note tone n).Spells track (.note n) := by
  cases h with
  | rest silent =>
    refine spells_of_text hn (t := ['R']) ?_ (by decide) (by decide) silent.symm
    rw [Element.text, Note.percussionText]
    simp [Note.text, silent]
  | @named name sounding known percussive =>
    refine spells_of_text hn (t := '[' :: (name ++ [']'])) ?_ ?_ (plain_of_raised (percussion_plain known))
      sounding.symm
    · have hname := percussionText_of_known known
      rw [Element.text, Note.percussionText]
      rcases percussive with hp | rfl
      · simp [Note.text, sounding, hp, hname, known]
      · simp [sounding, hname, known]
    · exact upper_of_raised fun c hc => (percussion_plain known c hc).1
  | @written s sounding tonal unnamed written =>
    have htext : n.text = s.text ++ n.suffix := by simp [Note.text, sounding, tonal, written]
    exact spells_of_text hn ((text_of_unnamed unnamed).trans htext)
      (upper_of_raised fun c hc => (s.raised_text c hc).1) (plain_of_raised s.raised_text) sounding.symm
  | common sounding tonal unnamed unwritten le =>
    have htext : n.text = Tone.text n.value ++ n.suffix := by
      simp [Note.text, sounding, tonal, unwritten]
    exact spells_of_text hn ((text_of_unnamed unnamed).trans htext)
      (Spelling.upper_octave n.value (some (Spelling.octaveOf n.value le)))
      (Spelling.plain_text n.value) sounding.symm

theorem ChordTable.raised_of_mem {name : Text} {shape : Intervals} (h : (name, shape) ∈ standard.entries) :
    ∀ c ∈ name, isRaised c = true ∧ c ≠ ':' := by
  intro c hc
  rcases (starts_of_mem h).2.2 c hc with hu | hd | rfl
  · have hs : Symbols.isSymbolChar c = true := by simp [Symbols.isSymbolChar, hu]
    exact ⟨isRaised_of_isSymbolChar hs, (Symbols.isSymbolChar_spec hs).2.2.2.2⟩
  · exact ⟨isRaised_of_isDigit hd, (plain_of_isDigit hd).2⟩
  · decide

/-- How the root of a chord stands in a notation. -/
inductive RootTone (n : Note R) : ToneForm → Prop where
  | named {name : Text} (percussive : n.isPercussion = true)
    (known : Symbols.percussionName? n.value = some name) : RootTone n (.named name n.value known)
  | placed (tonal : n.isPercussion = false) (octave : n.octaveWritten = true) (le : n.value ≤ maxData) :
    RootTone n (.spelled (.ofTone n.value (some (Spelling.octaveOf n.value le))))
  | free (tonal : n.isPercussion = false) (octave : n.octaveWritten = false) :
    RootTone n (.spelled (.ofTone n.value none))

theorem RootTone.isRest {R : Type} {n : Note R} {tone : ToneForm} (h : RootTone n tone) : tone.isRest = false := by
  cases h <;> rfl

/-- The root of a chord is written as its tone, in characters that no stage before the reading of
notes takes for its own. -/
theorem RootTone.text {R : Type} {n : Note R} {tone : ToneForm} (h : RootTone n tone) (sounding : n.isRest = false) :
    Text.upper (if n.isPercussion then Tone.percussionText n.value else n.toneName) = tone.text ∧
      ∀ d ∈ (if n.isPercussion then Tone.percussionText n.value else n.toneName),
        Expansion.plainChar d = true ∧ d ≠ ':' := by
  cases h with
  | @named name percussive hk =>
    rw [percussive, if_pos rfl, percussionText_of_known hk]
    exact ⟨upper_of_raised fun d hd => (percussion_plain hk d hd).1,
      plain_of_raised (percussion_plain hk)⟩
  | placed tonal octave le =>
    have htone : n.toneName = Tone.text n.value := by
      simp [Note.toneName, Note.octave, Tone.text, sounding, octave]
    rw [tonal, if_neg Bool.false_ne_true, htone]
    exact ⟨Spelling.upper_octave n.value (some (Spelling.octaveOf n.value le)),
      Spelling.plain_text n.value⟩
  | free tonal octave =>
    have htone : n.toneName = Tone.name n.value := by
      simp [Note.toneName, sounding, octave]
    rw [tonal, if_neg Bool.false_ne_true, htone]
    exact ⟨Spelling.upper_plain n.value, Spelling.plain_name n.value⟩

/-- What is written of a chord is its root, its name, carets and what follows a tone. -/
theorem RootTone.spells {track : Nat} {c : Chord R} {tone : ToneForm} (h : RootTone c.root tone)
    (hn : c.root.Regular) (sounding : c.root.isRest = false) {name : Text} (hname : c.name = some name)
    (known : (name, c.intervals) ∈ ChordTable.standard.entries)
    (closed : c.inversion = 0 ∨ c.root.endsTie = true ∨ c.root.lengthWritten = true ∨
      c.root.velocityText = []) :
    (Form.chord tone name c.intervals c.inversion c.root).Spells track (.chord c) := by
  obtain ⟨hupper, hplain⟩ := h.text sounding
  have hsymbol : ∀ d ∈ name, isRaised d = true ∧ d ≠ ':' := ChordTable.raised_of_mem known
  have hcaret : ∀ d ∈ List.replicate c.inversion '^', isRaised d = true ∧ d ≠ ':' := by
    intro d hd
    rw [List.eq_of_mem_replicate hd]
    decide
  have hfull : Element.text track (.chord c) =
      (if c.root.isPercussion then Tone.percussionText c.root.value else c.root.toneName) ++
        (name ++ (List.replicate c.inversion '^' ++ c.root.suffix)) := by
    simp [Element.text, Chord.text, Chord.type?, hname]
  refine ⟨.chord hn h.isRest sounding known closed, ?_, fun d hd => ?_⟩
  · rw [hfull, Text.upper_append, Text.upper_append, Text.upper_append, hupper,
      upper_of_raised fun d hd => (hsymbol d hd).1, upper_of_raised fun d hd => (hcaret d hd).1]
    rfl
  · rw [hfull, List.mem_append, List.mem_append, List.mem_append] at hd
    rcases hd with hd | hd | hd | hd
    · exact hplain d hd
    · exact plain_of_raised hsymbol d hd
    · exact plain_of_raised hcaret d hd
    · exact hn.spelled.plain_suffix d hd

end ScoreText
