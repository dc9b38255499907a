import Mathlib.Algebra.Order.Field.Rat
import ScoreText.Proofs.Notation.Groups

/-!
Lines of notes and rests in every spelling that there is for one: any length in letters, ties, and velocities whether
they are usual or not. A line is read note by note as it is written, or fails for the sake of a tone out of range.
-/

set_option autoImplicit false

namespace ScoreText

open NoteContext

/-- A letter of a length with its dots. -/
structure DottedLetter where
  halvings : Fin Length.letters.length
  dots : Nat

namespace DottedLetter

def letter (d : DottedLetter) : Char := Length.letters[d.halvings]

def text (d : DottedLetter) : Text := d.letter :: List.replicate d.dots '.'

/-- The fraction of a whole note that the letter stands for, half as long again for each dot. -/
def value (d : DottedLetter) : Rat := (1 / 2) ^ d.halvings.val * (3 / 2) ^ d.dots

theorem letter_mem (d : DottedLetter) : d.letter ∈ Length.letters := List.getElem_mem _

theorem ofLetter?_letter (d : DottedLetter) :
    (Length.ofLetter? d.letter : Option Rat) = some ((1 / 2) ^ d.halvings.val) := by
  have hindex : ∀ i : Fin Length.letters.length, Length.letters.idxOf? Length.letters[i] = some i.val := by
    decide
  have hhalved : (Length.halved d.halvings.val : Rat) = ((1 : Nat) : Rat) / ((2 ^ d.halvings.val : Nat) : Rat) := rfl
  rw [Length.ofLetter?, letter, hindex, Option.map_some, hhalved]
  push_cast
  rw [one_div_pow]

theorem follows (d : DottedLetter) {s : Text} (h : s.head? ≠ some 'U') : Follows (d.text ++ s) := by
  refine Follows.lengthLetter d.letter_mem fun hc => ?_
  cases hdots : d.dots with
  | zero =>
    rw [hdots] at hc
    exact h hc
  | succ n =>
    rw [hdots] at hc
    exact absurd (Option.some.inj hc) (by decide)

end DottedLetter

namespace Length

theorem readDots_replicate (length : Rat) (dots : Nat) {s : Text} (h : s.head? ≠ some '.') :
    readDots length (List.replicate dots '.' ++ s) = (length * (3 / 2) ^ dots, s) := by
  induction dots generalizing length with
  | zero =>
    rw [List.replicate_zero, List.nil_append, pow_zero, mul_one]
    unfold readDots
    split
    · exact absurd rfl h
    · rfl
  | succ dots ih =>
    have hdot : (length * dot : Rat) = length * (3 / 2) := rfl
    rw [List.replicate_succ, List.cons_append, readDots, ih, hdot, pow_succ', mul_assoc]

/-- What stands behind a dotted letter of a length: another one, or what ends the length. -/
theorem head_letters (parts : List DottedLetter) {rest : Text} (h : Stop rest) :
    ∀ c ∈ (parts.flatMap DottedLetter.text ++ rest).head?, c ∈ letters ++ ['-', 'A', 'D', '+', '_'] := by
  intro c hc
  cases parts with
  | nil => exact List.mem_append_right _ (h c hc)
  | cons d more =>
    obtain rfl := Option.some.inj hc
    exact List.mem_append_left _ d.letter_mem

theorem readLengthLetters_step (d : DottedLetter) (sum : Option Rat) (fuel : Nat) {s : Text}
    (h : ∀ c ∈ s.head?, c ∈ letters ++ ['-', 'A', 'D', '+', '_']) :
    readLengthLetters (fuel + 1) sum (d.text ++ s) = readLengthLetters fuel (some (sum.getD 0 + d.value)) s := by
  have hall : ∀ c ∈ letters ++ ['-', 'A', 'D', '+', '_'], ¬ c.isDigit = true ∧ c ≠ '.' := by decide
  have hends : Numeral.Ends (List.replicate d.dots '.' ++ s) := by
    intro c hc
    cases hdots : d.dots with
    | zero =>
      rw [hdots] at hc
      exact (hall c (h c hc)).1
    | succ n =>
      rw [hdots] at hc
      exact Option.some.inj hc ▸ by decide
  have hdigits : Numeral.takeDigits (List.replicate d.dots '.' ++ s) = ([], List.replicate d.dots '.' ++ s) :=
    @Numeral.takeDigits_append_of_ends [] _ (by simp) hends
  have hdot : s.head? ≠ some '.' := fun hc => (hall '.' (h '.' hc)).2 rfl
  have hnone : Numeral.value? 10 [] = none := rfl
  rw [DottedLetter.text, List.cons_append, readLengthLetters, d.ofLetter?_letter]
  simp only [hdigits, hnone, readDots_replicate _ _ hdot]
  rfl

theorem length_le_flatMap (parts : List DottedLetter) :
    parts.length ≤ (parts.flatMap DottedLetter.text).length := by
  induction parts with
  | nil => exact Nat.le_refl 0
  | cons d more ih =>
    simp only [List.flatMap_cons, DottedLetter.text, List.length_append, List.length_cons]
    omega

/-- Letters add what they stand for to the sum. -/
theorem readLengthLetters_letters {rest : Text} (h : Stop rest) (parts : List DottedLetter) (sum : Rat) {fuel : Nat}
    (hfuel : parts.length ≤ fuel) :
    readLengthLetters fuel (some sum) (parts.flatMap DottedLetter.text ++ rest) =
      (some (sum + (parts.map DottedLetter.value).sum), rest) := by
  induction parts generalizing sum fuel with
  | nil =>
    rw [List.map_nil, List.sum_nil, add_zero]
    exact readLengthLetters_stop h fuel _
  | cons d more ih =>
    obtain ⟨fuel, rfl⟩ : ∃ k, fuel = k + 1 := ⟨fuel - 1, by simp at hfuel; omega⟩
    rw [List.flatMap_cons, List.append_assoc, readLengthLetters_step d _ fuel (head_letters more h),
      ih _ (Nat.le_of_succ_le_succ hfuel), List.map_cons, List.sum_cons, Option.getD_some, add_assoc]

end Length

/-- Letters of which each adds its own length, one at least. -/
structure LetteredLength where
  first : DottedLetter
  more : List DottedLetter

namespace LetteredLength

def letters (l : LetteredLength) : List DottedLetter := l.first :: l.more

def text (l : LetteredLength) : Text := l.letters.flatMap DottedLetter.text

def total (l : LetteredLength) : Rat := (l.letters.map DottedLetter.value).sum

theorem text_eq (l : LetteredLength) : l.text = l.first.text ++ l.more.flatMap DottedLetter.text := rfl

theorem readLength?_text (text : Text) (l : LetteredLength) {rest : Text} (h : Stop rest) :
    readLength? text (l.text ++ rest) = .ok (some l.total, rest) := by
  have hslash : (l.text ++ rest).head? ≠ some '/' := by
    have hall : ∀ c ∈ Length.letters, some c ≠ some '/' := by decide
    exact hall _ l.first.letter_mem
  have hlength : (l.text ++ rest).length = l.first.dots + (l.more.flatMap DottedLetter.text ++ rest).length + 1 := by
    simp only [text_eq, DottedLetter.text, List.length_append, List.length_cons, List.length_replicate]
    omega
  have hmore := Length.length_le_flatMap l.more
  rw [Length.readLength?_letters text hslash, hlength, text_eq, List.append_assoc,
    Length.readLengthLetters_step l.first none _ (Length.head_letters l.more h),
    Length.readLengthLetters_letters h l.more _ (by simp only [List.length_append]; omega), Option.getD_none, zero_add,
    total, letters, List.map_cons, List.sum_cons]

end LetteredLength

/-- A note or a rest as a notation has it. A length may be followed by the mark of a tie. -/
inductive WrittenNote where
  | rest (length : Option LetteredLength)
  | tone (spelling : Spelling) (endsTie : Bool) (length : Option (LetteredLength × Bool))
    (attack decay : Option (Fin 128))

namespace WrittenNote

def tieMark (tie : Bool) : Text := if tie then ['-'] else []

def lengthText (length : Option (LetteredLength × Bool)) : Text :=
  length.elim [] fun l => l.1.text ++ tieMark l.2

/-- What stands behind the tone of a note. -/
def suffixText (endsTie : Bool) (length : Option (LetteredLength × Bool)) (attack decay : Option Nat) : Text :=
  tieMark endsTie ++ (lengthText length ++ Note.velocityMarks attack decay)

def text : WrittenNote → Text
  | rest length => 'R' :: length.elim [] LetteredLength.text
  | tone spelling endsTie length attack decay =>
    spelling.text ++ suffixText endsTie length (attack.map Fin.val) (decay.map Fin.val)

/-- Whether there is such a tone under the settings and the key of a context. -/
def InRange (ctx : NoteContext Rat) : WrittenNote → Prop
  | rest _ => True
  | tone spelling .. => 0 ≤ spelling.tone ctx ∧ spelling.tone ctx ≤ maxData

instance (ctx : NoteContext Rat) : DecidablePred (InRange ctx)
  | rest _ => inferInstanceAs (Decidable True)
  | tone .. => inferInstanceAs (Decidable (_ ∧ _))

/-- The note that is meant, outside any group. -/
def toNote (ctx : NoteContext Rat) : WrittenNote → Note Rat
  | rest length =>
    { value := 0
      length := (length.map LetteredLength.total).getD 0
      attack := ctx.settings.attack
      decay := ctx.settings.decay
      isRest := true
      lengthWritten := length.isSome
      written := some ['R'] }
  | tone spelling endsTie length attack decay =>
    { value := (spelling.tone ctx).toNat
      length := (length.map fun l => l.1.total).getD 0
      attack := (attack.map Fin.val).getD ctx.settings.attack
      decay := (decay.map Fin.val).getD ctx.settings.decay
      octaveWritten := spelling.octave.isSome
      lengthWritten := length.isSome
      startsTie := length.any Prod.snd
      endsTie := endsTie
      written := some spelling.text }

/-- The note that is meant, if there is its tone. -/
def read (ctx : NoteContext Rat) : WrittenNote → Except Error (Element Rat)
  | rest length => .ok (.note ((rest length).toNote ctx))
  | tone spelling endsTie length attack decay =>
    (checkRange .note (spelling.tone ctx) 0 maxData).map fun _ =>
      .note ((tone spelling endsTie length attack decay).toNote ctx)

theorem follows_length {length : Option (LetteredLength × Bool)} {s : Text} (h : Follows s)
    (hu : s.head? ≠ some 'U') : Follows (lengthText length ++ s) := by
  cases length with
  | none => exact h
  | some l =>
    have hnext : ((l.1.more.flatMap DottedLetter.text) ++ (tieMark l.2 ++ s)).head? ≠ some 'U' := by
      cases l.1.more with
      | nil =>
        cases l.2 with
        | false => exact hu
        | true => exact fun hc => absurd (Option.some.inj hc) (by decide)
      | cons d more =>
        intro hc
        have hall : ∀ c ∈ Length.letters, c ≠ 'U' := by decide
        exact hall _ d.letter_mem (Option.some.inj hc)
    have htext : lengthText (some l) ++ s =
        l.1.first.text ++ (l.1.more.flatMap DottedLetter.text ++ (tieMark l.2 ++ s)) := by
      simp [lengthText, LetteredLength.text_eq]
    exact htext ▸ l.1.first.follows hnext

/-- A note reads the ties and the length that are written for it; a rest can have no ties. -/
theorem readTiesAndLength_text (text : Text) {m : Note Rat} (hlength : m.length = 0)
    (hwritten : m.lengthWritten = false) (hstarts : m.startsTie = false) (endsTie : Bool)
    (length : Option (LetteredLength × Bool))
    (hrest : m.isRest = true → endsTie = false ∧ length.any Prod.snd = false) {s : Text} (hstop : Stop s)
    (hdash : s.head? ≠ some '-') :
    readTiesAndLength text m (tieMark endsTie ++ (lengthText length ++ s)) =
      .ok ({ m with
        endsTie := endsTie
        length := (length.map fun l => l.1.total).getD 0
        lengthWritten := length.isSome
        startsTie := length.any Prod.snd }, s) := by
  have htie : ∀ (tie : Bool) {r : Text}, r.head? ≠ some '-' → (m.isRest = true → tie = false) →
      readTie m.isRest (tieMark tie ++ r) = (tie, r) := by
    intro tie r hr hfalse
    cases tie with
    | false => exact Note.readTie_of_head hr
    | true =>
      have hsounding : m.isRest = false := by
        rw [Bool.eq_false_iff]
        exact fun h => absurd (hfalse h) (by decide)
      rw [hsounding]
      rfl
  cases length with
  | none =>
    simp only [readTiesAndLength, lengthText, Option.elim_none, List.nil_append,
      htie endsTie hdash fun h => (hrest h).1, bind, Except.bind, Length.readLength?_none hstop, pure, Except.pure]
    rw [hstarts, hwritten, hlength]
    rfl
  | some l =>
    have htext : lengthText (some l) ++ s = l.1.text ++ (tieMark l.2 ++ s) := List.append_assoc _ _ _
    have hhead : (l.1.text ++ (tieMark l.2 ++ s)).head? ≠ some '-' := by
      intro hc
      have hall : ∀ c ∈ Length.letters, c ≠ '-' := by decide
      exact hall _ l.1.first.letter_mem (Option.some.inj hc)
    have hstop' : Stop (tieMark l.2 ++ s) := by
      cases l.2 with
      | false => exact hstop
      | true => exact fun c hc => Option.some.inj hc ▸ by decide
    simp only [readTiesAndLength, htext, htie endsTie hhead fun h => (hrest h).1, bind, Except.bind,
      LetteredLength.readLength?_text text l.1 hstop']
    split
    · rename_i heq
      exact absurd heq (hstop'.ne (by decide) _)
    · simp only [pure, Except.pure, htie l.2 hdash fun h => (hrest h).2]
      rfl

theorem follows_suffix (endsTie : Bool) (length : Option (LetteredLength × Bool)) (attack decay : Option Nat)
    {rest : Text} (h : Seam rest) : Follows (suffixText endsTie length attack decay ++ rest) := by
  simp only [suffixText, List.append_assoc]
  cases endsTie with
  | true => exact Follows.of_head (by decide) (by decide)
  | false =>
    have hstop := Note.stop_marks attack decay h
    have hfollows := Follows.marks attack decay fun _ => Follows.seam h
    exact follows_length hfollows fun hc => absurd (hstop 'U' hc) (by decide)

theorem readSuffix_text (text : Text) {m : Note Rat} (hlength : m.length = 0) (hwritten : m.lengthWritten = false)
    (hstarts : m.startsTie = false) (endsTie : Bool) (length : Option (LetteredLength × Bool))
    (hrest : m.isRest = true → endsTie = false ∧ length.any Prod.snd = false) {attack decay : Option Nat}
    (hattack : ∀ v ∈ attack, v ≤ maxData) (hdecay : ∀ v ∈ decay, v ≤ maxData) {rest : Text} (h : Seam rest) :
    readSuffix text m (suffixText endsTie length attack decay ++ rest) =
      .ok ({ m with
        endsTie := endsTie
        length := (length.map fun l => l.1.total).getD 0
        lengthWritten := length.isSome
        startsTie := length.any Prod.snd
        attack := attack.getD m.attack
        decay := decay.getD m.decay }, rest) := by
  simp only [suffixText, List.append_assoc]
  simp only [readSuffix, readTiesAndLength_text text hlength hwritten hstarts endsTie length hrest
    (Note.stop_marks attack decay h) (Note.head?_marks attack decay h), bind, Except.bind,
    Note.readVelocities_marks text _ hattack hdecay h (Nat.le_refl _)]

theorem read_of_inRange {ctx : NoteContext Rat} {n : WrittenNote} (h : n.InRange ctx) :
    n.read ctx = .ok (.note (n.toNote ctx)) := by
  cases n with
  | rest length => rfl
  | tone spelling endsTie length attack decay =>
    have hrange : ¬ (spelling.tone ctx < (0 : Nat) ∨ (maxData : Int) < spelling.tone ctx) := by
      have := h.1
      have := h.2
      omega
    rw [read, checkRange, if_neg hrange]
    rfl

theorem read_of_not_inRange {ctx : NoteContext Rat} {n : WrittenNote} (h : ¬ n.InRange ctx) :
    ∃ value, n.read ctx = .error (.outOfRange .note value 0 maxData) := by
  cases n with
  | rest length => exact absurd trivial h
  | tone spelling endsTie length attack decay =>
    have hrange : spelling.tone ctx < (0 : Nat) ∨ (maxData : Int) < spelling.tone ctx := by
      unfold InRange at h
      omega
    refine ⟨spelling.tone ctx, ?_⟩
    rw [read, checkRange, if_pos hrange]
    rfl

/-- What stands behind a tone is not taken for the name of a chord. -/
theorem matchChord?_suffix {ctx : NoteContext Rat} (hchords : ctx.chords = .standard) (m : Note Rat) (endsTie : Bool)
    (length : Option (LetteredLength × Bool)) (attack decay : Option Nat) {rest : Text} (h : Seam rest) :
    ctx.matchChord? m (suffixText endsTie length attack decay ++ rest) = none := by
  rw [matchChord?, hchords, ChordTable.matchStart?_none (follows_suffix endsTie length attack decay h).calm]
  split <;> rfl

/-- Any note is read as it is written, wherever it stands in a line. -/
theorem readsAs {ctx : NoteContext Rat} (hchords : ctx.chords = .standard) (n : WrittenNote) :
    ReadsAs ctx n.text (n.read ctx) where
  starts := by
    cases n with
    | rest length => exact ⟨'R', _, rfl, by decide⟩
    | tone spelling endsTie length attack decay =>
      have hall : ∀ c ∈ ['C', 'D', 'E', 'F', 'G', 'A', 'B'], startsNote c = true := by decide
      exact ⟨spelling.letter, _, rfl, hall _ spelling.letter_cases⟩
  element text rest h := by
    cases n with
    | rest length =>
      have htext : (WrittenNote.rest length).text ++ rest =
          'R' :: (suffixText false (length.map fun l => (l, false)) none none ++ rest) := by
        cases length <;> simp [WrittenNote.text, suffixText, tieMark, lengthText, Note.velocityMarks]
      have htie : (length.map fun l => (l, false)).any Prod.snd = false := by
        cases length <;> rfl
      rw [htext, readElement]
      simp only [readTone, bind, Except.bind, matchChord?_suffix hchords _ _ _ _ _ h]
      rw [readSuffix_text text rfl rfl rfl false (length.map fun l => (l, false)) (fun _ => ⟨rfl, htie⟩)
        (by simp) (by simp) h, htie]
      cases length <;> rfl
    | tone spelling endsTie length attack decay =>
      have hle : ∀ {v : Option (Fin 128)}, ∀ w ∈ v.map Fin.val, w ≤ maxData := by
        intro v w hw
        obtain ⟨i, -, rfl⟩ := Option.mem_map.mp hw
        exact Nat.le_of_lt_succ i.isLt
      have hclear := (follows_suffix endsTie length (attack.map Fin.val) (decay.map Fin.val) h).clear
      have htext : (tone spelling endsTie length attack decay).text ++ rest = spelling.text ++
          (suffixText endsTie length (attack.map Fin.val) (decay.map Fin.val) ++ rest) := List.append_assoc _ _ _
      rw [htext, readElement, spelling.readTone_text ctx text hclear, read]
      cases htone : checkRange .note (spelling.tone ctx) 0 maxData with
      | error e => rfl
      | ok value =>
        obtain ⟨hvalue, -, hmax⟩ := (checkRange_eq_ok_iff _ _ _ _ _).mp htone
        simp only [Except.map, bind, Except.bind, matchChord?_suffix hchords _ _ _ _ _ h]
        rw [readSuffix_text text rfl rfl rfl endsTie length (fun hf => absurd hf Bool.false_ne_true) hle hle h]
        simp only [toNote, hvalue, Int.toNat_natCast, pure, Except.pure, Spelling.note, Note.ofValue,
          Nat.min_eq_left hmax]

theorem readLinks_of_inRange {ctx : NoteContext Rat} {tail : List (Bool × WrittenNote)}
    (h : ∀ link ∈ tail, link.2.InRange ctx) :
    readLinks (read ctx) tail =
      .ok (tail.map fun link => join (linkJoint link.1) (.note (link.2.toNote ctx))) := by
  induction tail with
  | nil => rfl
  | cons link rest ih =>
    have hlink := read_of_inRange (h link List.mem_cons_self)
    have hrest := ih fun l hl => h l (List.mem_cons_of_mem _ hl)
    simp only [readLinks, hlink, hrest, bind, Except.bind, pure, Except.pure, List.map_cons]

theorem readLinks_of_not_inRange {ctx : NoteContext Rat} {tail : List (Bool × WrittenNote)}
    (h : ∃ link ∈ tail, ¬ link.2.InRange ctx) :
    ∃ value, readLinks (read ctx) tail = .error (.outOfRange .note value 0 maxData) := by
  induction tail with
  | nil =>
    obtain ⟨link, hlink, -⟩ := h
    cases hlink
  | cons link rest ih =>
    by_cases hlink : link.2.InRange ctx
    · obtain ⟨other, hother, hnot⟩ := h
      have hrest : other ∈ rest := (List.mem_cons.mp hother).resolve_left fun heq => hnot (heq ▸ hlink)
      obtain ⟨value, hvalue⟩ := ih ⟨other, hrest, hnot⟩
      refine ⟨value, ?_⟩
      simp only [readLinks, read_of_inRange hlink, hvalue, bind, Except.bind]
    · obtain ⟨value, hvalue⟩ := read_of_not_inRange hlink
      refine ⟨value, ?_⟩
      simp only [readLinks, hvalue, bind, Except.bind]

/-- A line of notes cannot be read just when a tone in it is out of range; else it is read to its end, as the notes that
are written, the first of them opening the group and the others joined to it as the signs say. -/
theorem read_line {ctx : NoteContext Rat} (hchords : ctx.chords = .standard) (first : WrittenNote)
    (more : List (Bool × WrittenNote)) :
    ((∃ value, ctx.read (first.text ++ linksText text more) = .error (.outOfRange .note value 0 maxData)) ↔
      ∃ n ∈ first :: more.map Prod.snd, ¬ n.InRange ctx) ∧
    ((∀ n ∈ first :: more.map Prod.snd, n.InRange ctx) →
      ctx.read (first.text ++ linksText text more) =
        .ok (join .opening (.note (first.toNote ctx)) ::
          more.map fun link => join (linkJoint link.1) (.note (link.2.toNote ctx)), [])) := by
  have hread := read_links (readsAs hchords first) fun link (_ : link ∈ more) => readsAs hchords link.2
  have hok : (∀ n ∈ first :: more.map Prod.snd, n.InRange ctx) →
      ctx.read (first.text ++ linksText text more) =
        .ok (join .opening (.note (first.toNote ctx)) ::
          more.map fun link => join (linkJoint link.1) (.note (link.2.toNote ctx)), []) := by
    intro h
    rw [List.forall_mem_cons, List.forall_mem_map] at h
    simp only [hread, read_of_inRange h.1, readLinks_of_inRange h.2, bind, Except.bind, pure, Except.pure]
  refine ⟨⟨fun ⟨value, herror⟩ => ?_, fun ⟨n, hn, hnot⟩ => ?_⟩, hok⟩
  · by_contra hall
    push Not at hall
    rw [hok hall] at herror
    cases herror
  · by_cases hfirst : first.InRange ctx
    · have hmem : n ∈ more.map Prod.snd := (List.mem_cons.mp hn).resolve_left fun heq => hnot (heq ▸ hfirst)
      obtain ⟨link, hlink, rfl⟩ := List.mem_map.mp hmem
      obtain ⟨value, hvalue⟩ := readLinks_of_not_inRange ⟨link, hlink, hnot⟩
      refine ⟨value, ?_⟩
      simp only [hread, read_of_inRange hfirst, hvalue, bind, Except.bind]
    · obtain ⟨value, hvalue⟩ := read_of_not_inRange hfirst
      refine ⟨value, ?_⟩
      simp only [hread, hvalue, bind, Except.bind]

/-- In D major a bare F is sharp, and a written sign holds against the key. -/
theorem read_line_joined :
    NoteContext.read (⟨.standard, .ofSignature 2 .major, .standard, .standard⟩ : NoteContext Rat)
      "F+CB6-QI.-A80_RH..".toList =
    .ok ([.note { value := 66, length := 0, isFirst := true, written := some ['F'] },
      .note { value := 71, length := 7 / 16, attack := 80, octaveWritten := true, lengthWritten := true,
              isHarmonic := true, startsTie := true, endsTie := true, written := some ['C', 'B', '6'] },
      .note { value := 0, length := 9 / 8, isRest := true, lengthWritten := true, isMelodic := true,
              written := some ['R'] }], []) := by
  have hchords : NoteContext.chords (⟨.standard, .ofSignature 2 .major, .standard, .standard⟩ : NoteContext Rat) =
      .standard := rfl
  have hline := (read_line hchords (tone ⟨'F', 5, rfl, .bare, none⟩ false none none none)
    [(false, tone ⟨'C', 0, rfl, .flat, some 6⟩ true
        (some (⟨⟨⟨2, by decide⟩, 0⟩, [⟨⟨3, by decide⟩, 1⟩]⟩, true)) (some 80) none),
      (true, rest (some ⟨⟨⟨1, by decide⟩, 2⟩, []⟩))]).2 (by decide)
  have hfirst : DottedLetter.value ⟨⟨2, by decide⟩, 0⟩ + DottedLetter.value ⟨⟨3, by decide⟩, 1⟩ = 7 / 16 := by
    norm_num [DottedLetter.value]
  have hsecond : DottedLetter.value ⟨⟨1, by decide⟩, 2⟩ = 9 / 8 := by
    norm_num [DottedLetter.value]
  simp only [List.map_cons, List.map_nil, toNote, Option.map_some, Option.getD_some, LetteredLength.total,
    LetteredLength.letters, List.sum_cons, List.sum_nil, add_zero, hfirst, hsecond] at hline
  exact hline

end WrittenNote

end ScoreText
