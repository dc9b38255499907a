import ScoreText.Notation.NoteReader
import ScoreText.Proofs.Text.Numerals

/-!
Spelled tones: a letter, an accidental and an octave. What is spelled is what is read, and only what
is spelled is.
-/

set_option autoImplicit false

namespace ScoreText

open NoteContext

theorem ok_of_bind {ε α β : Type} {x : Except ε α} {f : α → Except ε β} {b : β}
    (h : x >>= f = .ok b) : ∃ a, x = .ok a ∧ f a = .ok b := by
  cases x with
  | error e => cases h
  | ok a => exact ⟨a, rfl, h⟩

theorem ok_of_map {ε α β : Type} {x : Except ε α} {f : α → β} {b : β} (h : x.map f = .ok b) :
    ∃ a, x = .ok a ∧ f a = b := by
  cases x with
  | error e => cases h
  | ok a => exact ⟨a, rfl, Except.ok.inj h⟩

/-- An accidental, which may be left to the key. -/
inductive Sign where
  | bare | sharp | flat | natural
  deriving DecidableEq, Repr

def Sign.text : Sign → Text
  | .bare => []
  | .sharp => ['#']
  | .flat => ['B']
  | .natural => ['N']

/-- Semitones that the sign adds, where the key adds so many to a bare letter. -/
def Sign.shift (byKey : Int) : Sign → Int
  | .bare => byKey
  | .sharp => 1
  | .flat => -1
  | .natural => 0

/-- A tone as a notation spells it. -/
structure Spelling where
  letter : Char
  position : Nat
  isLetter : Tone.ofLetter? letter = some position
  sign : Sign
  octave : Option (Fin 11)

namespace Spelling

def octaveText (s : Spelling) : Text :=
  match s.octave with
  | some o => Text.ofNat o.val
  | none => []

def text (s : Spelling) : Text := s.letter :: (s.sign.text ++ s.octaveText)

variable {R : Type}

/-- The tone that the spelling has under the settings and the key of a context. -/
def tone (ctx : NoteContext R) (s : Spelling) : Int :=
  ((s.octave.map fun o => o.val).getD ctx.settings.octave : Nat) * octaveSize + s.position
    + s.sign.shift (if ctx.settings.followsKey then ctx.key.accidental s.letter else 0)

/-- The note that the spelling is read as when its tone is this value. -/
def note [Scalar R] (s : Spelling) (value : Nat) : Note R :=
  { (Note.ofValue value : Note R) with
    octaveWritten := s.octave.isSome, written := some s.text }

/-- What may follow a spelling: nothing that it could take in. -/
def Clear (rest : Text) : Prop := ∀ c ∈ rest.head?, ¬ c.isDigit ∧ c ≠ '#' ∧ c ≠ 'B' ∧ c ≠ 'N'

theorem Clear.ends {rest : Text} (h : Clear rest) : Numeral.Ends rest := fun c hc => (h c hc).1

theorem readOctave_of_ends {rest : Text} (h : Numeral.Ends rest) : readOctave rest = (none, rest) := by
  cases rest with
  | nil => rfl
  | cons c r =>
    have hc : ¬ c.isDigit := h c rfl
    unfold readOctave
    split
    · rename_i heq
      cases heq
      exact absurd rfl hc
    · rename_i heq
      cases heq
      rw [if_neg hc]
    · rename_i heq
      cases heq

theorem readOctave_ofNat (o : Fin 11) {rest : Text} (h : Numeral.Ends rest) :
    readOctave (Text.ofNat o.val ++ rest) = (some o.val, rest) := by
  have hone : ∀ r : Text, Numeral.Ends r → readOctave ('1' :: r) = (some 1, r) := by
    intro r hr
    unfold readOctave
    split
    · rename_i heq
      cases heq
      exact absurd rfl (hr '0' rfl)
    · rename_i heq
      cases heq
      rfl
    · rename_i heq
      cases heq
  have hdigits : ∀ o : Fin 11, Text.ofNat o.val =
      if o.val = 10 then ['1', '0'] else [Char.ofNat (48 + o.val)] := by
    decide +kernel
  rw [hdigits o]
  match o with
  | ⟨1, _⟩ => exact hone rest h
  | ⟨0, _⟩ | ⟨2, _⟩ | ⟨3, _⟩ | ⟨4, _⟩ | ⟨5, _⟩ | ⟨6, _⟩ | ⟨7, _⟩ | ⟨8, _⟩ | ⟨9, _⟩ | ⟨10, _⟩ => rfl

theorem readOctave_octaveText (s : Spelling) {rest : Text} (h : Numeral.Ends rest) :
    readOctave (s.octaveText ++ rest) = (s.octave.map fun o => o.val, rest) := by
  obtain ⟨letter, position, hl, sign, octave⟩ := s
  cases octave with
  | none => exact readOctave_of_ends h
  | some o => exact readOctave_ofNat o h

theorem readAccidental_bare (ctx : NoteContext R) (letter : Char) {s : Text}
    (h : ∀ c ∈ s.head?, c ≠ '#' ∧ c ≠ 'B' ∧ c ≠ 'N') :
    ctx.readAccidental letter s =
      (if ctx.settings.followsKey then ctx.key.accidental letter else 0, s) := by
  unfold readAccidental
  split
  · exact absurd rfl (h '#' rfl).1
  · exact absurd rfl (h 'B' rfl).2.1
  · exact absurd rfl (h 'N' rfl).2.2
  · rfl

theorem readAccidental_text (ctx : NoteContext R) (s : Spelling) {rest : Text} (h : Clear rest) :
    ctx.readAccidental s.letter (s.sign.text ++ (s.octaveText ++ rest)) =
      (s.sign.shift (if ctx.settings.followsKey then ctx.key.accidental s.letter else 0),
        s.octaveText ++ rest) := by
  cases hs : s.sign with
  | sharp => rfl
  | flat => rfl
  | natural => rfl
  | bare =>
    refine readAccidental_bare ctx s.letter fun c hc => ?_
    unfold octaveText at hc
    cases ho : s.octave with
    | none =>
      rw [ho] at hc
      exact (h c hc).2
    | some o =>
      have hd : c.isDigit := by
        rw [ho] at hc
        cases hn : Text.ofNat o.val with
        | nil => exact absurd hn (Text.ofNat_ne_nil _)
        | cons d r =>
          simp only [Sign.text, List.nil_append, hn, List.cons_append, List.head?_cons,
            Option.mem_some_iff] at hc
          exact hc ▸ Text.isDigit_of_mem_ofNat (n := o.val) (by rw [hn]; exact List.mem_cons_self)
      exact ⟨fun h => absurd (h ▸ hd) (by decide), fun h => absurd (h ▸ hd) (by decide),
        fun h => absurd (h ▸ hd) (by decide)⟩

theorem readAccidental_eq {ctx : NoteContext R} {letter : Char} {s rest : Text} {shift : Int}
    (h : ctx.readAccidental letter s = (shift, rest)) :
    ∃ sign : Sign, s = sign.text ++ rest ∧
      shift = sign.shift (if ctx.settings.followsKey then ctx.key.accidental letter else 0) := by
  unfold readAccidental at h
  split at h <;> cases h
  · exact ⟨.sharp, rfl, rfl⟩
  · exact ⟨.flat, rfl, rfl⟩
  · exact ⟨.natural, rfl, rfl⟩
  · exact ⟨.bare, rfl, rfl⟩

variable [Scalar R]

/-- A spelling is read as the tone that it has, if there is such a tone. -/
theorem readLetter_text (ctx : NoteContext R) (text : Text) (s : Spelling) {rest : Text}
    (h : Clear rest) :
    ctx.readLetter text (s.text ++ rest) =
      (checkRange .note (s.tone ctx) 0 maxData).map fun value => (s.note value, rest) := by
  have hwritten : (s.letter :: (s.sign.text ++ (s.octaveText ++ rest))).take
      ((s.sign.text ++ (s.octaveText ++ rest)).length + 1 - rest.length) = s.text := by
    have hlen : (s.sign.text ++ (s.octaveText ++ rest)).length + 1 - rest.length = s.text.length := by
      simp only [Spelling.text, List.length_append, List.length_cons]
      omega
    have happ : s.letter :: (s.sign.text ++ (s.octaveText ++ rest)) = s.text ++ rest := by
      simp [Spelling.text]
    rw [hlen, happ, List.take_left]
  have htext : s.text ++ rest = s.letter :: (s.sign.text ++ (s.octaveText ++ rest)) := by
    simp [Spelling.text]
  rw [htext]
  simp only [readLetter, s.isLetter, readAccidental_text ctx s h, readOctave_octaveText s h.ends,
    hwritten]
  unfold Spelling.tone
  cases ho : s.octave with
  | none =>
    simp only [Option.map_none, Option.getD_none]
    cases checkRange .note _ 0 maxData with
    | error e => rfl
    | ok value => simp [bind, Except.bind, pure, Except.pure, Except.map, Spelling.note, ho]
  | some o =>
    simp only [Option.map_some, Option.getD_some]
    cases checkRange .note _ 0 maxData with
    | error e => rfl
    | ok value => simp [bind, Except.bind, pure, Except.pure, Except.map, Spelling.note, ho]

theorem readOctave_eq {s rest : Text} {octave : Option Nat} (h : readOctave s = (octave, rest)) :
    ∃ o : Option (Fin 11), octave = o.map (fun o => o.val) ∧
      s = (match o with | some o => Text.ofNat o.val | none => []) ++ rest := by
  unfold readOctave at h
  split at h
  · cases h
    have hten : Text.ofNat 10 = ['1', '0'] := by decide +kernel
    refine ⟨some 10, rfl, ?_⟩
    change _ = Text.ofNat 10 ++ _
    rw [hten]
    rfl
  · rename_i c r _
    split at h
    · rename_i hc
      obtain ⟨hlo, hhi⟩ := Text.toNat_of_isDigit hc
      have hzero : '0'.toNat = 48 := rfl
      have hnine : '9'.toNat = 57 := rfl
      have hdigit : ∀ n < 10, Text.ofNat n = [Char.ofNat (48 + n)] := by decide +kernel
      cases h
      refine ⟨some ⟨c.toNat - '0'.toNat, by omega⟩, rfl, ?_⟩
      have hsum : 48 + (c.toNat - '0'.toNat) = c.toNat := by omega
      simp only [hdigit (c.toNat - '0'.toNat) (by omega), hsum, Char.ofNat_toNat, List.cons_append,
        List.nil_append]
    · cases h
      exact ⟨none, rfl, rfl⟩
  · cases h
    exact ⟨none, rfl, rfl⟩

/-- What is read after a letter is a spelling. -/
theorem readLetter_eq_ok {ctx : NoteContext R} {text s rest : Text} {n : Note R}
    (h : ctx.readLetter text s = .ok (n, rest)) :
    ∃ (spelling : Spelling) (value : Nat), s = spelling.text ++ rest ∧ spelling.tone ctx = value ∧
      value ≤ maxData ∧ n = spelling.note value := by
  unfold readLetter at h
  split at h
  · cases h
  · rename_i letter r
    split at h
    · cases h
    · rename_i position hl
      obtain ⟨⟨shift, after⟩, hacc⟩ : ∃ p, ctx.readAccidental letter r = p := ⟨_, rfl⟩
      obtain ⟨⟨octave, left⟩, hoct⟩ : ∃ p, readOctave after = p := ⟨_, rfl⟩
      obtain ⟨sign, hr, hshift⟩ := readAccidental_eq hacc
      obtain ⟨o, ho, hafter⟩ := readOctave_eq hoct
      simp only [hacc, hoct] at h
      obtain ⟨value, hvalue, heq⟩ := ok_of_bind h
      cases heq
      rw [checkRange_eq_ok_iff] at hvalue
      let spelling : Spelling := ⟨letter, position, hl, sign, o⟩
      have htext : letter :: r = spelling.text ++ rest := by
        rw [hr, hafter]
        cases o <;> simp [spelling, Spelling.text, octaveText]
      have hwritten : (letter :: r).take (r.length + 1 - rest.length) = spelling.text := by
        have hlen : r.length + 1 - rest.length = spelling.text.length := by
          have := congrArg List.length htext
          simp only [List.length_cons, List.length_append] at this
          omega
        rw [hlen, htext, List.take_left]
      refine ⟨spelling, value, htext, ?_, hvalue.2.2, ?_⟩
      · rw [← hvalue.1, hshift, ho]
        rfl
      · rw [hwritten, ho]
        cases o <;> rfl

end Spelling

end ScoreText
