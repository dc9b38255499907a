import Mathlib.Tactic.IntervalCases
import ScoreText.Proofs.Notation.Spelling
import ScoreText.Proofs.Symbols.Standard
import ScoreText.Proofs.Text.Cutting

/-!
Tones in a notation: a rest, a percussion name in brackets, or a spelled tone.
-/

set_option autoImplicit false

namespace ScoreText

open NoteContext

/-- What a key adds to the name of a tone, which it does where the name has no accidental. -/
def Key.alteration (k : Key) (value : Nat) : Int :=
  match Tone.name value with
  | [letter] => k.accidental letter
  | _ => 0

namespace Spelling

/-- The common spelling of a tone, in an octave or in none. -/
def ofTone (value : Nat) (octave : Option (Fin 11)) : Spelling :=
  match value % octaveSize with
  | 0 => ⟨'C', 0, rfl, .bare, octave⟩
  | 1 => ⟨'C', 0, rfl, .sharp, octave⟩
  | 2 => ⟨'D', 2, rfl, .bare, octave⟩
  | 3 => ⟨'E', 4, rfl, .flat, octave⟩
  | 4 => ⟨'E', 4, rfl, .bare, octave⟩
  | 5 => ⟨'F', 5, rfl, .bare, octave⟩
  | 6 => ⟨'F', 5, rfl, .sharp, octave⟩
  | 7 => ⟨'G', 7, rfl, .bare, octave⟩
  | 8 => ⟨'G', 7, rfl, .sharp, octave⟩
  | 9 => ⟨'A', 9, rfl, .bare, octave⟩
  | 10 => ⟨'B', 11, rfl, .flat, octave⟩
  | _ => ⟨'B', 11, rfl, .bare, octave⟩

theorem ofTone_octave (value : Nat) (octave : Option (Fin 11)) :
    (ofTone value octave).octave = octave := by
  unfold ofTone
  split <;> rfl

theorem ofTone_mod (value : Nat) (octave : Option (Fin 11)) :
    ofTone (value % octaveSize) octave = ofTone value octave := by
  unfold ofTone
  rw [Nat.mod_mod]

theorem name_mod (value : Nat) : Tone.name (value % octaveSize) = Tone.name value := by
  simp [Tone.name, Tone.nameIn, Tone.position]

theorem upper_name (value : Nat) (octave : Option (Fin 11)) :
    Text.upper (Tone.name value) = (ofTone value octave).letter :: (ofTone value octave).sign.text := by
  have hall : ∀ p < 12, Text.upper (Tone.name p) = (ofTone p none).letter :: (ofTone p none).sign.text := by
    decide +kernel
  have := hall (value % octaveSize) (Nat.mod_lt _ (by decide))
  rw [name_mod] at this
  rw [this, ← ofTone_mod value octave]
  unfold ofTone
  split <;> rfl

/-- The common spelling of a tone has that tone, but for what the key adds to it. -/
theorem ofTone_tone {R : Type} (ctx : NoteContext R) (value : Nat) (octave : Option (Fin 11)) :
    (ofTone value octave).tone ctx =
      (((octave.map fun o => o.val).getD ctx.settings.octave : Nat) * octaveSize + value % octaveSize
        : Nat) + (if ctx.settings.followsKey then ctx.key.alteration value else 0) := by
  have hmod : Tone.name value = Tone.name (value % octaveSize) := (name_mod value).symm
  have hlt : value % octaveSize < 12 := Nat.mod_lt _ (by decide)
  rw [← ofTone_mod, Key.alteration, hmod, tone, ofTone_octave]
  generalize value % octaveSize = p at hlt
  generalize (octave.map fun o => o.val).getD ctx.settings.octave = n
  have hname : ∀ p < 12, Tone.name p = (ofTone p none).letter ::
      ((ofTone p none).sign.text.map fun c => if c = 'B' then 'b' else c) := by
    decide +kernel
  rw [hname p hlt]
  interval_cases p <;> simp [ofTone, octaveSize, Sign.shift, Sign.text] <;> omega

theorem letter_cases (s : Spelling) : s.letter ∈ ['C', 'D', 'E', 'F', 'G', 'A', 'B'] := by
  have h := s.isLetter
  unfold Tone.ofLetter? at h
  split at h <;> first | exact absurd h (Option.some_ne_none _).symm | simp [*]

/-- A spelling is read as a letter, whatever the names of notes are. -/
theorem readTone_text {R : Type} [Scalar R] (ctx : NoteContext R) (text : Text) (s : Spelling) {rest : Text}
    (h : Clear rest) : ctx.readTone text (s.text ++ rest) =
      (checkRange .note (s.tone ctx) 0 maxData).map fun value => (s.note value, rest) := by
  have hletter : s.letter ≠ 'R' ∧ s.letter ≠ '[' ∧ s.letter.isDigit = false := by
    have := s.letter_cases
    simp only [List.mem_cons, List.not_mem_nil, or_false] at this
    rcases this with h | h | h | h | h | h | h <;> rw [h] <;> decide
  have hread : ctx.readTone text (s.text ++ rest) = ctx.readLetter text (s.text ++ rest) := by
    change ctx.readTone text (s.letter :: (s.sign.text ++ s.octaveText ++ rest)) = _
    unfold readTone
    split
    · rename_i heq
      cases heq
    · rename_i heq
      exact absurd (List.cons.inj heq).1 hletter.1
    · rename_i heq
      exact absurd (List.cons.inj heq).1 hletter.2.1
    · rename_i heq
      obtain ⟨rfl, rfl⟩ := List.cons.inj heq
      rw [if_neg (by rw [hletter.2.2]; exact Bool.false_ne_true)]
      rfl
  rw [hread, readLetter_text ctx text s h]

end Spelling

theorem readNumber_le {fault : Fault} {quantity : Quantity} {text digits : Text} {n : Nat}
    (h : readNumber fault quantity text digits = .ok n) : n ≤ maxData := by
  unfold readNumber at h
  split at h
  · exact ((checkRange_eq_ok_iff _ _ _ _ _).mp h).2.2
  · cases h

namespace NoteContext

variable {R : Type} {ctx : NoteContext R} {text inner s rest : Text}

/-- The value of a number or a name in brackets. -/
def bracketedValue {R : Type} (ctx : NoteContext R) (text inner : Text) : Except Error Nat :=
  if !inner.isEmpty && inner.all Char.isDigit then readNumber .badNoteNumber .note text inner
  else do
    let value ← ctx.symbols.require .note inner
    checkRange .note value 0 maxData

theorem bracketedValue_le {value : Nat} (h : ctx.bracketedValue text inner = .ok value) : value ≤ maxData := by
  unfold bracketedValue at h
  split at h
  · exact readNumber_le h
  · obtain ⟨named, -, h⟩ := ok_of_bind h
    exact ((checkRange_eq_ok_iff _ _ _ _ _).mp h).2.2

variable [Scalar R]

/-- The note of what is in brackets, from its value. -/
def bracketed (inner : Text) (value : Nat) : Note R :=
  { (Note.ofValue value : Note R) with
    octaveWritten := true, isPercussion := Symbols.percussionName? value == some inner }

theorem readBracketed_of_cut? (hcut : Text.cut? ']' s = some (inner, rest)) :
    ctx.readBracketed text s =
      ctx.bracketedValue text inner >>= fun value => .ok (bracketed inner value, rest) := by
  rw [readBracketed, hcut, bracketedValue]
  dsimp only
  split
  · rfl
  · cases ctx.symbols.require .note inner <;> rfl

theorem readBracketed_append (ctx : NoteContext R) (h : ']' ∉ inner) (text rest : Text) :
    ctx.readBracketed text (inner ++ ']' :: rest) =
      ctx.bracketedValue text inner >>= fun value => .ok (bracketed inner value, rest) :=
  readBracketed_of_cut? (Text.cut?_append h rest)

/-- A note in brackets is the one of its value, which is in range. -/
theorem readBracketed_eq_ok {n : Note R} (h : ctx.readBracketed text s = .ok (n, rest)) :
    ∃ inner value, ctx.bracketedValue text inner = .ok value ∧ value ≤ maxData ∧ n = bracketed inner value := by
  cases hcut : Text.cut? ']' s with
  | none =>
    rw [readBracketed, hcut] at h
    cases h
  | some p =>
    rw [readBracketed_of_cut? hcut] at h
    obtain ⟨value, hvalue, heq⟩ := ok_of_bind h
    cases heq
    exact ⟨p.1, value, hvalue, bracketedValue_le hvalue, rfl⟩

end NoteContext

/-- How the tone of a note stands in a notation. -/
inductive ToneForm where
  | rest
  | named (name : Text) (value : Nat) (isNamed : Symbols.percussionName? value = some name)
  | spelled (s : Spelling)

namespace ToneForm

def text : ToneForm → Text
  | .rest => ['R']
  | .named name _ _ => '[' :: (name ++ [']'])
  | .spelled s => s.text

variable {R : Type} [Scalar R]

/-- The note that a tone is read as. -/
def read (ctx : NoteContext R) : ToneForm → Except Error (Note R)
  | .rest => .ok { (Note.ofValue 0 : Note R) with isRest := true, written := some ['R'] }
  | .named _ value _ =>
    .ok { (Note.ofValue value : Note R) with octaveWritten := true, isPercussion := true }
  | .spelled s => (checkRange .note (s.tone ctx) 0 maxData).map s.note

theorem read_spelled (ctx : NoteContext R) (s : Spelling) :
    (spelled s).read ctx = (checkRange .note (s.tone ctx) 0 maxData).map s.note := rfl

theorem readBracketed_name {ctx : NoteContext R} (hs : ctx.symbols = .standard) (text : Text)
    {name rest : Text} {value : Nat} (hn : Symbols.percussionName? value = some name) :
    ctx.readBracketed text (name ++ ']' :: rest) =
      .ok ({ (Note.ofValue value : Note R) with octaveWritten := true, isPercussion := true },
        rest) := by
  have hmem := Symbols.mem_percussion hn
  have hchars := Symbols.isSymbolChar_of_mem hmem
  have hbracket : ']' ∉ name := fun h => (Symbols.isSymbolChar_spec (hchars ']' h)).2.2.1 rfl
  have hletter : (!name.isEmpty && name.all Char.isDigit) = false := by
    obtain ⟨c, hc, hupper⟩ := Symbols.exists_isUpper_of_mem hmem
    have hd : c.isDigit = false := by
      rw [Bool.eq_false_iff]
      intro hd
      have hbetween := (Text.toNat_of_isUpper hupper).1.trans (Text.toNat_of_isDigit hd).2
      exact absurd hbetween (by decide)
    have : name.all Char.isDigit = false := List.all_eq_false.mpr ⟨c, hc, by simp [hd]⟩
    rw [this, Bool.and_false]
  have hrange : checkRange .note (value : Int) 0 maxData = .ok value :=
    (checkRange_eq_ok_iff _ _ _ _ _).mpr ⟨rfl, Nat.zero_le _, by
      have := Symbols.percussionName?_le hn
      have : maxData = 127 := rfl
      omega⟩
  simp only [ctx.readBracketed_append hbracket, bracketedValue, bracketed, hletter, Bool.false_eq_true,
    if_false, hs, Symbols.require, Symbols.find?_of_mem hmem, bind, Except.bind, hrange, hn,
    beq_self_eq_true]

theorem readTone_text {ctx : NoteContext R} (hs : ctx.symbols = .standard) (text : Text)
    (form : ToneForm) {rest : Text} (h : Spelling.Clear rest) :
    ctx.readTone text (form.text ++ rest) = (form.read ctx).map fun n => (n, rest) := by
  cases form with
  | rest => rfl
  | named name value hn =>
    have htext : (ToneForm.named name value hn).text ++ rest = '[' :: (name ++ ']' :: rest) := by
      simp [ToneForm.text]
    rw [htext]
    exact readBracketed_name hs text hn
  | spelled s =>
    rw [ToneForm.text, s.readTone_text ctx text h, read_spelled]
    cases checkRange .note (s.tone ctx) 0 maxData <;> rfl

end ToneForm

/-- The notes that tones are read as. -/
inductive ToneRead {R : Type} [Scalar R] (ctx : NoteContext R) : Note R → Prop where
  | rest : ToneRead ctx { (Note.ofValue 0 : Note R) with isRest := true, written := some ['R'] }
  | spelled (s : Spelling) (value : Nat) (tone : s.tone ctx = value) (le : value ≤ maxData) :
    ToneRead ctx (s.note value)
  | valued (value : Nat) (byName : Bool) (le : value ≤ maxData)
    (named : byName = true → ∃ name, Symbols.percussionName? value = some name) :
    ToneRead ctx
      { (Note.ofValue value : Note R) with octaveWritten := true, isPercussion := byName }

section

variable {R : Type} [Scalar R] {ctx : NoteContext R} {fault : Fault} {quantity : Quantity}
  {text digits s rest : Text}

theorem toneRead_of_readBracketed {n : Note R} (h : ctx.readBracketed text s = .ok (n, rest)) :
    ToneRead ctx n := by
  obtain ⟨inner, value, -, hle, rfl⟩ := NoteContext.readBracketed_eq_ok h
  exact .valued value _ hle fun hb => ⟨inner, by simpa using hb⟩

theorem readTone_eq_ok {n : Note R} (h : ctx.readTone text s = .ok (n, rest)) : ToneRead ctx n := by
  unfold readTone at h
  split at h
  · cases h
  · cases h
    exact .rest
  · exact toneRead_of_readBracketed h
  · split at h
    · obtain ⟨value, hvalue, heq⟩ := ok_of_bind h
      cases heq
      exact .valued value false (readNumber_le hvalue) fun hf => nomatch hf
    · obtain ⟨spelling, value, -, htone, hle, rfl⟩ := Spelling.readLetter_eq_ok h
      exact .spelled spelling value htone hle

end

end ScoreText
