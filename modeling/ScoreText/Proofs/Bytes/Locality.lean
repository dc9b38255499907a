import ScoreText.Proofs.Bytes.Scanner
import ScoreText.Proofs.Text.Cutting

/-!
Reading is local. A reader looks ahead to see where a number, a name or a note ends, but what it makes of the front
of a text never depends on what it then leaves there: cut off where the reader has come to, or anywhere after that,
the text is read the same.
-/

set_option autoImplicit false

namespace ScoreText

/-- A reader of the front of a text, which returns the rest; the first text is the whole, for what an error says. -/
abbrev Reader (α : Type) := Text → Text → Except Error (α × Text)

/-- What is taken from the front of a text is taken the same, in whatever whole, where less of what was left
follows. -/
def ReadsLocally {α : Type} (read : Reader α) (s : Text) : Prop :=
  ∀ text a left, read text s = .ok (a, left) →
    ∃ taken, s = taken ++ left ∧ ∀ whole front, front <+: left → read whole (taken ++ front) = .ok (a, front)

namespace ReadsLocally

variable {α β : Type} {s : Text}

theorem ok (a : α) : ReadsLocally (fun _ s => .ok (a, s)) s := by
  rintro text _ _ ⟨⟩
  exact ⟨[], rfl, fun whole front _ => rfl⟩

theorem error {f : Reader α} (h : ∀ text, ∃ e, f text s = .error e) : ReadsLocally f s := by
  intro text a left hok
  obtain ⟨e, he⟩ := h text
  exact nomatch he.symm.trans hok

/-- What is read after something is read as it is read by itself. -/
theorem after {f g : Reader α} (u : Text) (hg : ReadsLocally g s) (hfrom : ∀ text, f text (u ++ s) = g text s)
    (hto : ∀ text front p, front <+: s → g text front = .ok p → f text (u ++ front) = .ok p) :
    ReadsLocally f (u ++ s) := by
  intro text a left h
  obtain ⟨taken, rfl, htaken⟩ := hg text a left ((hfrom text).symm.trans h)
  refine ⟨u ++ taken, (List.append_assoc u taken left).symm, fun whole front hfront => ?_⟩
  rw [List.append_assoc]
  exact hto whole _ _ ((List.prefix_append_right_inj taken).mpr hfront) (htaken whole front hfront)

theorem skip {f g : Reader α} (u : Text) (hg : ReadsLocally g s)
    (h : ∀ text front, front <+: s → f text (u ++ front) = g text front) : ReadsLocally f (u ++ s) :=
  hg.after u (fun text => h text s List.prefix_rfl) fun text front _ hfront => (h text front hfront).trans

theorem congr {f g : Reader α} (hg : ReadsLocally g s)
    (h : ∀ text front, front <+: s → f text front = g text front) : ReadsLocally f s := hg.skip [] h

theorem bind {f : Reader α} {g : α → Reader β} (hf : ReadsLocally f s)
    (hg : ∀ a left, left <:+ s → ReadsLocally (g a) left) :
    ReadsLocally (fun text s => f text s >>= fun p => g p.1 text p.2) s := by
  intro text b left h
  obtain ⟨⟨a, middle⟩, ha, hb⟩ := ok_of_bind h
  obtain ⟨taken, rfl, htaken⟩ := hf text a middle ha
  obtain ⟨more, rfl, hmore⟩ := hg a middle (List.suffix_append taken middle) text b left hb
  refine ⟨taken ++ more, (List.append_assoc taken more left).symm, fun whole front hfront => ?_⟩
  -- What the second reader takes is left by the first, and so is all that comes after it.
  have hfirst : f whole (taken ++ (more ++ front)) = .ok (a, more ++ front) :=
    htaken whole _ ((List.prefix_append_right_inj more).mpr hfront)
  rw [List.append_assoc]
  dsimp only
  rw [hfirst]
  exact hmore whole front hfront

/-- Nothing is taken where nothing is taken of less. -/
theorem stays {f : Reader α} {c : Char} {r : Text} {a : α} (hnil : ∀ text, f text [] = .ok (a, []))
    (hcons : ∀ text front, front <+: r → f text (c :: front) = .ok (a, c :: front)) : ReadsLocally f (c :: r) := by
  refine (ok a).congr fun text front h => ?_
  rcases List.prefix_cons_iff.mp h with rfl | ⟨front, rfl, hfront⟩
  · exact hnil text
  · exact hcons text front hfront

theorem nil {f : Reader α} {a : α} (h : ∀ text, f text [] = .ok (a, [])) : ReadsLocally f [] :=
  (ok a).congr fun text front hfront => by rw [List.prefix_nil.mp hfront, h]

/-- What is computed before a reading goes on does not look at the text. -/
theorem bind_value {x : Text → Except Error α} {g : α → Reader β}
    (hx : ∀ text a, x text = .ok a → ∀ whole, x whole = .ok a) (hg : ∀ a, ReadsLocally (g a) s) :
    ReadsLocally (fun text s => x text >>= fun a => g a text s) s := by
  intro text b left h
  obtain ⟨a, ha, hb⟩ := ok_of_bind h
  obtain ⟨taken, rfl, htaken⟩ := hg a text b left hb
  refine ⟨taken, rfl, fun whole front hfront => ?_⟩
  dsimp only
  rw [hx text a ha whole]
  exact htaken whole front hfront

/-- A value is made of what is taken. -/
theorem of_value {f : Reader β} (u : Text) (x : Text → Except Error α) (b : α → β)
    (hx : ∀ text a, x text = .ok a → ∀ whole, x whole = .ok a)
    (h : ∀ text front, front <+: s → f text (u ++ front) = x text >>= fun a => .ok (b a, front)) :
    ReadsLocally f (u ++ s) := by
  have hvalue : ReadsLocally (fun text s => x text >>= fun a => .ok (b a, s)) s := .bind_value hx fun a => .ok (b a)
  exact hvalue.skip u h

end ReadsLocally

namespace Text

/-- A run ends where it did, or where the text does. -/
theorem run_append {p : Char → Bool} {s front : Text} (h : front <+: s.dropWhile p) :
    (s.takeWhile p ++ front).takeWhile p = s.takeWhile p ∧ (s.takeWhile p ++ front).dropWhile p = front := by
  have hrun : ∀ c ∈ s.takeWhile p, p c = true := fun c hc => List.mem_takeWhile_imp hc
  have hends : front.takeWhile p = [] ∧ front.dropWhile p = front := by
    cases front with
    | nil => exact ⟨rfl, rfl⟩
    | cons c r =>
      obtain ⟨more, hmore⟩ := h
      have hc : p c = false := by
        have hhead := List.head?_dropWhile_not p s
        rwa [← hmore] at hhead
      exact ⟨List.takeWhile_cons_of_neg (by simp [hc]), List.dropWhile_cons_of_neg (by simp [hc])⟩
  rw [List.takeWhile_append_of_pos hrun, List.dropWhile_append_of_pos hrun, hends.1, hends.2]
  exact ⟨List.append_nil _, rfl⟩

end Text

namespace NoteContext

open Text

variable {R : Type} [Scalar R] (ctx : NoteContext R)

theorem takeDigits_run {s front : Text} (h : front <+: (Numeral.takeDigits s).2) :
    Numeral.takeDigits ((Numeral.takeDigits s).1 ++ front) = ((Numeral.takeDigits s).1, front) :=
  Prod.ext (run_append h).1 (run_append h).2

theorem settled_readNumber {fault : Fault} {quantity : Quantity} {digits text : Text} {n : Nat}
    (h : readNumber fault quantity text digits = .ok n) (whole : Text) :
    readNumber fault quantity whole digits = .ok n := by
  unfold readNumber at h ⊢
  split at h
  · exact h
  · cases h

/-! ### Tones -/

theorem local_readAccidental {R : Type} (ctx : NoteContext R) (letter : Char) (s : Text) :
    ReadsLocally (fun _ s => .ok (ctx.readAccidental letter s)) s := by
  rcases s with _ | ⟨c, r⟩
  · exact .nil fun _ => rfl
  by_cases hc : c = '#' ∨ c = 'B' ∨ c = 'N'
  · rcases hc with rfl | rfl | rfl
    · exact (ReadsLocally.ok 1).skip ['#'] fun _ _ _ => rfl
    · exact (ReadsLocally.ok (-1)).skip ['B'] fun _ _ _ => rfl
    · exact (ReadsLocally.ok 0).skip ['N'] fun _ _ _ => rfl
  · refine .stays (fun _ => rfl) fun _ front _ => ?_
    unfold readAccidental
    split
    · exact absurd (.inl (List.cons.inj ‹_›).1) hc
    · exact absurd (.inr (.inl (List.cons.inj ‹_›).1)) hc
    · exact absurd (.inr (.inr (List.cons.inj ‹_›).1)) hc
    · rfl

theorem local_readOctave (s : Text) : ReadsLocally (fun _ s => .ok (readOctave s)) s := by
  rcases s with _ | ⟨c, r⟩
  · exact .nil fun _ => rfl
  by_cases hten : c = '1' ∧ ∃ t, r = '0' :: t
  · obtain ⟨rfl, t, rfl⟩ := hten
    exact (ReadsLocally.ok (some 10)).skip ['1', '0'] fun _ _ _ => rfl
  · have hone : ∀ front, front <+: r → readOctave (c :: front) =
        if c.isDigit then (some (c.toNat - '0'.toNat), front) else (none, c :: front) := by
      rintro front ⟨more, rfl⟩
      rw [readOctave]
      rintro t rfl rfl
      exact hten ⟨rfl, t ++ more, rfl⟩
    by_cases hdigit : c.isDigit = true
    · exact (ReadsLocally.ok (some (c.toNat - '0'.toNat))).skip [c] fun _ front h =>
        congrArg Except.ok ((hone front h).trans (if_pos hdigit))
    · exact .stays (fun _ => rfl) fun _ front h => congrArg Except.ok ((hone front h).trans (if_neg hdigit))

/-- The accidental and the octave of a letter. -/
def readPitch {R : Type} (ctx : NoteContext R) (letter : Char) (s : Text) : (Int × Option Nat) × Text :=
  let accidental := ctx.readAccidental letter s
  let octave := readOctave accidental.2
  ((accidental.1, octave.1), octave.2)

theorem local_readPitch {R : Type} (ctx : NoteContext R) (letter : Char) (s : Text) :
    ReadsLocally (fun _ s => .ok (ctx.readPitch letter s)) s :=
  (local_readAccidental ctx letter s).bind fun _ left _ => (local_readOctave left).bind fun _ _ _ => .ok _

/-- The note of a letter that is so far above its octave, from how it is written. -/
def pitched (position : Nat) (pitch : Int × Option Nat) (written : Text) : Except Error (Note R) := do
  let tone := (pitch.2.getD ctx.settings.octave : Int) * octaveSize + position + pitch.1
  let value ← checkRange .note tone 0 maxData
  return { (Note.ofValue value : Note R) with octaveWritten := pitch.2.isSome, written := some written }

/-- What a letter has written to it is what is taken after it. -/
theorem readLetter_append {letter : Char} {position : Nat} (h : Tone.ofLetter? letter = some position)
    {pitch : Int × Option Nat} {taken rest : Text} (hpitch : ctx.readPitch letter (taken ++ rest) = (pitch, rest))
    (text : Text) : ctx.readLetter text (letter :: (taken ++ rest)) =
      ctx.pitched position pitch (letter :: taken) >>= fun note => .ok (note, rest) := by
  have hwritten : (letter :: (taken ++ rest)).take ((taken ++ rest).length + 1 - rest.length) = letter :: taken := by
    rw [List.length_append, Nat.add_right_comm, Nat.add_sub_cancel, List.take_succ_cons, List.take_left]
  obtain ⟨rfl, hrest⟩ := Prod.mk.inj hpitch
  rw [readLetter, h, ← hwritten]
  dsimp only [pitched]
  rw [hrest]
  cases checkRange .note _ 0 maxData <;> rfl

theorem local_readLetter (s : Text) : ReadsLocally ctx.readLetter s := by
  cases s with
  | nil => exact .error fun text => ⟨_, rfl⟩
  | cons letter r =>
    cases hposition : Tone.ofLetter? letter with
    | none => exact .error fun text => ⟨_, by rw [readLetter, hposition]⟩
    | some position =>
      obtain ⟨taken, hr, htaken⟩ := local_readPitch ctx letter r [] _ _ rfl
      rw [hr]
      refine .of_value (letter :: taken) (fun _ => ctx.pitched position (ctx.readPitch letter r).1 (letter :: taken)) id
        (fun _ _ h _ => h) fun text front hfront => ?_
      exact ctx.readLetter_append hposition (Except.ok.inj (htaken [] front hfront)) text

theorem settled_bracketedValue {R : Type} {ctx : NoteContext R} {inner text : Text} {value : Nat}
    (h : ctx.bracketedValue text inner = .ok value) (whole : Text) : ctx.bracketedValue whole inner = .ok value := by
  unfold bracketedValue at h ⊢
  split at h
  · rw [if_pos ‹_›]
    exact settled_readNumber h whole
  · rw [if_neg ‹_›]
    exact h

theorem local_readBracketed (s : Text) : ReadsLocally ctx.readBracketed s := by
  rcases cut?_run ']' s with ⟨-, hnone⟩ | ⟨rest, hrest, -⟩
  · exact .error fun text => ⟨_, by rw [readBracketed, hnone]⟩
  · have hinner : ']' ∉ s.takeWhile (· != ']') := fun hmem => by simpa using List.mem_takeWhile_imp hmem
    have hs : s = (s.takeWhile (· != ']') ++ [']']) ++ rest := by
      rw [List.append_assoc, List.singleton_append, ← hrest, List.takeWhile_append_dropWhile]
    generalize s.takeWhile (· != ']') = inner at hinner hs
    rw [hs]
    refine .of_value _ (ctx.bracketedValue · inner) (bracketed inner) (fun _ _ => settled_bracketedValue)
      fun text front _ => ?_
    rw [List.append_assoc]
    exact ctx.readBracketed_append hinner text front

/-- The note of a number. -/
def numbered (value : Nat) : Note R := { (Note.ofValue value : Note R) with octaveWritten := true }

theorem local_readTone (s : Text) : ReadsLocally ctx.readTone s := by
  cases s with
  | nil => exact .error fun text => ⟨_, rfl⟩
  | cons c r =>
    by_cases hrest : c = 'R'
    · subst hrest
      exact (ReadsLocally.ok _).skip ['R'] fun _ _ _ => rfl
    by_cases hbracket : c = '['
    · subst hbracket
      exact (ctx.local_readBracketed r).skip ['['] fun _ _ _ => rfl
    have hread : ∀ text rest : Text, ctx.readTone text (c :: rest) =
        if c.isDigit then readNumber .badNoteNumber .note text (Numeral.takeDigits (c :: rest)).1 >>= fun value =>
          .ok (numbered value, (Numeral.takeDigits (c :: rest)).2)
        else ctx.readLetter text (c :: rest) := by
      intro text rest
      unfold readTone
      split
      · rename_i heq
        cases heq
      · exact absurd (List.cons.inj ‹_›).1 hrest
      · exact absurd (List.cons.inj ‹_›).1 hbracket
      · rename_i heq
        cases heq
        rfl
    by_cases hdigit : c.isDigit = true
    · have hdigits : c :: r = (Numeral.takeDigits (c :: r)).1 ++ (Numeral.takeDigits (c :: r)).2 :=
        (Numeral.takeDigits_append _).symm
      rw [hdigits]
      refine .of_value _ (readNumber .badNoteNumber .note · (Numeral.takeDigits (c :: r)).1) numbered
        (fun _ _ => settled_readNumber) fun text front hfront => ?_
      have htake := takeDigits_run hfront
      have hcons : (Numeral.takeDigits (c :: r)).1 = c :: r.takeWhile Char.isDigit :=
        List.takeWhile_cons_of_pos hdigit
      rw [hcons] at htake ⊢
      rw [List.cons_append, hread, if_pos hdigit]
      rw [List.cons_append] at htake
      rw [htake]
    · refine (ctx.local_readLetter (c :: r)).congr fun text front h => ?_
      rcases List.prefix_cons_iff.mp h with rfl | ⟨front, rfl, -⟩
      · rfl
      · rw [hread, if_neg hdigit]

/-- A caret is a bass's only if the letter after it is read. -/
theorem local_readInversion (n : Nat) (s : Text) : ReadsLocally (fun text s => ctx.readInversion text n s) s := by
  have hnil : ∀ n text, ctx.readInversion text n [] = .ok (.count n, []) := by
    intro n text
    rw [readInversion]
    rintro r ⟨⟩
  induction s generalizing n with
  | nil => exact .nil (hnil n)
  | cons c r ih =>
    by_cases hcaret : c = '^'
    · subst hcaret
      cases hbass : r.head?.bind Tone.ofLetter? with
      | some position =>
        refine .after ['^'] (g := fun text s => ctx.readLetter text s >>= fun p => .ok (Inversion.bass p.1, p.2))
          ((ctx.local_readLetter r).bind fun note left _ => .ok (Inversion.bass note)) (fun text => ?_)
          fun text front p hfront h => ?_
        · rw [List.singleton_append, readInversion, hbass]
          rfl
        -- Where the text ends after the caret there is no bass to read.
        · cases front with
          | nil => cases h
          | cons d t =>
            obtain ⟨more, rfl⟩ := hfront
            rw [List.singleton_append, readInversion]
            dsimp only [List.cons_append, List.head?_cons] at hbass ⊢
            rw [hbass]
            exact h
      | none =>
        refine (ih (n + 1)).skip ['^'] fun text front hfront => ?_
        have hcount : front.head?.bind Tone.ofLetter? = none := by
          cases front with
          | nil => rfl
          | cons d t =>
            obtain ⟨more, rfl⟩ := hfront
            exact hbass
        rw [List.singleton_append, readInversion, hcount]
    · refine .stays (hnil n) fun text front _ => ?_
      rw [readInversion]
      rintro r heq
      exact hcaret (List.cons.inj heq).1

/-! ### What follows a tone -/

theorem local_readDots (length : R) (s : Text) : ReadsLocally (fun _ s => .ok (readDots length s)) s := by
  induction s generalizing length with
  | nil => exact .nil fun _ => rfl
  | cons c r ih =>
    by_cases hdot : c = '.'
    · subst hdot
      exact (ih (length * Length.dot)).skip ['.'] fun _ _ _ => rfl
    · refine .stays (fun _ => rfl) fun _ front _ => ?_
      rw [readDots]
      rintro r heq
      exact hdot (List.cons.inj heq).1

/-- With time enough, letters of length are read to the end of them. -/
theorem readLengthLetters_fuel {fuel limit : Nat} {s : Text} (hfuel : s.length ≤ fuel) (hlimit : s.length ≤ limit)
    (sum : Option R) : readLengthLetters fuel sum s = readLengthLetters limit sum s := by
  induction fuel generalizing limit sum s with
  | zero =>
    rw [List.eq_nil_of_length_eq_zero (Nat.le_zero.mp hfuel)]
    cases limit <;> rfl
  | succ fuel ih =>
    cases s with
    | nil => cases limit <;> rfl
    | cons c r =>
      obtain ⟨limit, rfl⟩ : ∃ n, limit = n + 1 := ⟨limit - 1, by rw [List.length_cons] at hlimit; omega⟩
      rw [readLengthLetters, readLengthLetters]
      split
      · rfl
      · have hdots : ∀ length : R, (readDots length (Numeral.takeDigits r).2).2.length ≤ r.length := fun length =>
          ((suffix_readDots length _).trans (suffix_takeDigits r)).length_le
        exact ih (Nat.le_trans (hdots _) (Nat.le_of_succ_le_succ hfuel))
          (Nat.le_trans (hdots _) (Nat.le_of_succ_le_succ hlimit)) _

/-- A length as often as it is counted, once where it is not. -/
def counted (base : R) (digits : Text) : R :=
  match Numeral.value? 10 digits with
  | some n => base * Scalar.scaled n 0
  | none => base

theorem local_readLengthLetters (sum : Option R) (s : Text) :
    ReadsLocally (fun _ s => .ok (readLengthLetters s.length sum s)) s := by
  cases s with
  | nil => exact .nil fun _ => rfl
  | cons c r =>
    cases hbase : (Length.ofLetter? c : Option R) with
    | none => exact .stays (fun _ => rfl) fun _ front _ => by rw [List.length_cons, readLengthLetters, hbase]
    | some base =>
      let length := counted base (Numeral.takeDigits r).1
      have hstep : ∀ front, front <+: (Numeral.takeDigits r).2 →
          readLengthLetters (c :: ((Numeral.takeDigits r).1 ++ front)).length sum
              (c :: ((Numeral.takeDigits r).1 ++ front)) =
            readLengthLetters (readDots length front).2.length
              (some (sum.getD ((0 : Nat) : R) + (readDots length front).1)) (readDots length front).2 := by
        intro front hfront
        rw [List.length_cons, readLengthLetters, hbase]
        dsimp only
        rw [takeDigits_run hfront]
        exact readLengthLetters_fuel ((suffix_readDots _ _).length_le.trans (by simp)) (Nat.le_refl _) _
      have hr : c :: r = (c :: (Numeral.takeDigits r).1) ++ (Numeral.takeDigits r).2 :=
        congrArg (c :: ·) (Numeral.takeDigits_append r).symm
      have hmore : ∀ (a : R) (left : Text), left <:+ (Numeral.takeDigits r).2 →
          ReadsLocally (fun _ s => .ok (readLengthLetters s.length (some (sum.getD ((0 : Nat) : R) + a)) s)) left := by
        intro a left hleft
        exact local_readLengthLetters _ left
      rw [hr]
      refine ReadsLocally.skip _ ((local_readDots length _).bind hmore) fun text front hfront => ?_
      exact congrArg Except.ok (hstep front hfront)
termination_by s.length
decreasing_by
  have hshorter := (hleft.trans (suffix_takeDigits r)).length_le
  simp only [List.length_cons]
  omega

theorem local_readLength? (s : Text) : ReadsLocally (readLength? : Reader (Option R)) s := by
  by_cases hslash : ∃ r, s = '/' :: r
  · obtain ⟨r, rfl⟩ := hslash
    let literal := fun c : Char => c.isDigit || c == '.'
    have hr : '/' :: r = ('/' :: r.takeWhile literal) ++ r.dropWhile literal :=
      congrArg ('/' :: ·) List.takeWhile_append_dropWhile.symm
    rw [hr]
    cases hd : Decimal.ofText? (r.takeWhile literal) with
    | some d =>
      refine (ReadsLocally.ok (some (Scalar.ofDecimal d))).skip _ fun text front hfront => ?_
      obtain ⟨htake, hdrop⟩ := run_append hfront
      simp only [List.cons_append, readLength?, literal] at htake hdrop hd ⊢
      rw [htake, hdrop, hd]
    | none =>
      refine .error fun text => ⟨.malformed .badDuration text, ?_⟩
      rw [← hr, readLength?, hd]
  · refine (local_readLengthLetters none s).congr fun text front hfront => ?_
    rw [readLength?]
    rintro r rfl
    obtain ⟨more, rfl⟩ := hfront
    exact hslash ⟨r ++ more, rfl⟩

/-- The ratio of a tuplet after its first number. -/
def readRatio (n : Nat) (text : Text) : Text → Except Error (R × Text)
  | ':' :: r =>
    match Numeral.value? 10 (Numeral.takeDigits r).1 with
    | none => .error (.malformed .badTuplet text)
    | some m =>
      if n = 0 then .error (.malformed .badTuplet text)
      else .ok ((Scalar.scaled m 0 : R) / Scalar.scaled n 0, (Numeral.takeDigits r).2)
  | _ => .error (.malformed .tupletNeedsRatio text)

theorem local_readRatio (n : Nat) (s : Text) : ReadsLocally (readRatio n : Reader R) s := by
  by_cases hcolon : ∃ r, s = ':' :: r
  · obtain ⟨r, rfl⟩ := hcolon
    have hr : ':' :: r = (':' :: (Numeral.takeDigits r).1) ++ (Numeral.takeDigits r).2 :=
      congrArg (':' :: ·) (Numeral.takeDigits_append r).symm
    cases hm : Numeral.value? 10 (Numeral.takeDigits r).1 with
    | none => exact .error fun text => ⟨.malformed .badTuplet text, by rw [readRatio, hm]⟩
    | some m =>
      by_cases hn : n = 0
      · exact .error fun text => ⟨.malformed .badTuplet text, by rw [readRatio, hm]; exact if_pos hn⟩
      · rw [hr]
        refine (ReadsLocally.ok ((Scalar.scaled m 0 : R) / Scalar.scaled n 0)).skip _ fun text front hfront => ?_
        rw [List.cons_append, readRatio, takeDigits_run hfront, hm]
        exact if_neg hn
  · refine .error fun text => ⟨.malformed .tupletNeedsRatio text, ?_⟩
    rw [readRatio]
    exact fun r hr => hcolon ⟨r, hr⟩

theorem local_readTuplet (s : Text) : ReadsLocally (readTuplet : Reader R) s := by
  rw [← Numeral.takeDigits_append s]
  cases hn : Numeral.value? 10 (Numeral.takeDigits s).1 with
  | none =>
    refine (ReadsLocally.ok (((2 : Nat) : R) / ((3 : Nat) : R))).skip _ fun text front hfront => ?_
    rw [readTuplet, takeDigits_run hfront]
    dsimp only
    rw [hn]
  | some n =>
    refine (local_readRatio n _).skip _ fun text front hfront => ?_
    rw [readTuplet, takeDigits_run hfront]
    dsimp only
    rw [hn]
    rfl

theorem local_readTie (isRest : Bool) (s : Text) : ReadsLocally (fun _ s => .ok (readTie isRest s)) s := by
  rcases s with _ | ⟨c, r⟩
  · exact .nil fun _ => rfl
  by_cases hdash : c = '-'
  · subst hdash
    cases isRest with
    | true => exact .stays (fun _ => rfl) fun _ _ _ => rfl
    | false => exact (ReadsLocally.ok true).skip ['-'] fun _ _ _ => rfl
  · refine .stays (fun _ => rfl) fun _ front _ => ?_
    rw [readTie]
    rintro r heq
    exact hdash (List.cons.inj heq).1

/-- The ratio of a tuplet, where there is a star. -/
def readScaled (length : R) (text : Text) : Text → Except Error (R × Text)
  | '*' :: r => readTuplet text r >>= fun p => .ok (length * p.1, p.2)
  | s => .ok (length, s)

theorem local_readScaled (length : R) (s : Text) : ReadsLocally (readScaled length) s := by
  rcases s with _ | ⟨c, r⟩
  · exact .nil fun _ => rfl
  by_cases hstar : c = '*'
  · subst hstar
    have hratio : ReadsLocally (fun text s => readTuplet text s >>= fun p => .ok (length * p.1, p.2)) r :=
      (local_readTuplet r).bind fun ratio _ _ => .ok (length * ratio)
    exact hratio.skip ['*'] fun _ _ _ => rfl
  · refine .stays (fun _ => rfl) fun text front _ => ?_
    rw [readScaled]
    rintro r heq
    exact hstar (List.cons.inj heq).1

/-- What a length that has been read, or its absence, makes of a note and of what comes after it. -/
def readLengthened (note : Note R) : Option R → Text → Text → Except Error (Note R × Text)
  | none, _, s => .ok (note, s)
  | some length, text, s => readScaled length text s >>= fun p =>
    let tie := readTie note.isRest p.2
    .ok ({ note.withLength p.1 with startsTie := tie.1 }, tie.2)

theorem local_readLengthened (note : Note R) (length? : Option R) (s : Text) :
    ReadsLocally (readLengthened note length?) s := by
  cases length? with
  | none => exact .ok note
  | some length =>
    exact (local_readScaled length s).bind fun scaled rest _ =>
      (local_readTie note.isRest rest).bind fun tie _ _ => .ok { note.withLength scaled with startsTie := tie }

theorem readTiesAndLength_eq (note : Note R) (text s : Text) :
    readTiesAndLength text note s = readLength? text (readTie note.isRest s).2 >>= fun p =>
      readLengthened { note with endsTie := (readTie note.isRest s).1 } p.1 text p.2 := by
  rw [readTiesAndLength]
  refine bind_congr fun p => ?_
  obtain ⟨length?, rest⟩ := p
  cases length? with
  | none => rfl
  | some length =>
    dsimp only [readLengthened]
    split
    · rename_i r
      rw [readScaled]
      cases (readTuplet text r : Except Error (R × Text)) <;> rfl
    · rw [readScaled]
      · rfl
      · assumption

theorem local_readTiesAndLength (note : Note R) (s : Text) :
    ReadsLocally (fun text s => readTiesAndLength text note s) s := by
  have hparts : ReadsLocally (fun text s => (.ok (readTie note.isRest s) : Except Error (Bool × Text)) >>= fun tie =>
      readLength? text tie.2 >>= fun p => readLengthened { note with endsTie := tie.1 } p.1 text p.2) s :=
    (local_readTie note.isRest s).bind fun tie rest _ =>
      (local_readLength? rest).bind fun length? left _ =>
        local_readLengthened { note with endsTie := tie } length? left
  exact hparts.congr fun text front _ => readTiesAndLength_eq note text front

/-- With time enough, velocities are read to the end of them. -/
theorem readVelocities_fuel {R : Type} {fuel limit : Nat} {s : Text} (hfuel : s.length ≤ fuel)
    (hlimit : s.length ≤ limit) (text : Text) (note : Note R) :
    readVelocities text fuel note s = readVelocities text limit note s := by
  induction fuel generalizing limit note s with
  | zero =>
    rw [List.eq_nil_of_length_eq_zero (Nat.le_zero.mp hfuel)]
    cases limit <;> rfl
  | succ fuel ih =>
    match s with
    | [] => cases limit <;> rfl
    | [c] => cases limit <;> rfl
    | c :: d :: r =>
      obtain ⟨limit, rfl⟩ : ∃ n, limit = n + 1 := ⟨limit - 1, by rw [List.length_cons] at hlimit; omega⟩
      have hshorter := (suffix_takeDigits (d :: r)).length_le
      rw [List.length_cons] at hfuel hlimit
      rw [readVelocities, readVelocities]
      split
      · dsimp only
        exact bind_congr fun value => ih (by omega) (by omega) _
      · rfl

theorem local_readVelocities {R : Type} (note : Note R) (s : Text) :
    ReadsLocally (fun text s => readVelocities text s.length note s) s := by
  match s with
  | [] => exact .nil fun _ => rfl
  | [c] => exact .stays (fun _ => rfl) fun _ front h => by rw [List.prefix_nil.mp h]; rfl
  | c :: d :: r =>
    by_cases hvelocity : (c = 'A' ∨ c = 'D') ∧ d.isDigit = true
    · have hs : c :: d :: r = (c :: (Numeral.takeDigits (d :: r)).1) ++ (Numeral.takeDigits (d :: r)).2 :=
        congrArg (c :: ·) (Numeral.takeDigits_append (d :: r)).symm
      let value := fun text => readNumber .badVelocity .velocity text (Numeral.takeDigits (d :: r)).1
      have hdigits : (Numeral.takeDigits (d :: r)).1 = d :: r.takeWhile Char.isDigit :=
        List.takeWhile_cons_of_pos hvelocity.2
      have hmore : ReadsLocally (fun text s => value text >>= fun v => readVelocities text s.length
          (if c = 'A' then { note with attack := v } else { note with decay := v }) s) (Numeral.takeDigits (d :: r)).2 :=
        .bind_value (fun _ _ => settled_readNumber) fun v => local_readVelocities _ _
      rw [hs]
      refine hmore.skip _ fun text front hfront => ?_
      have htake := takeDigits_run hfront
      rw [hdigits] at htake ⊢
      rw [List.cons_append] at htake
      simp only [List.cons_append, List.length_cons, readVelocities, if_pos hvelocity, htake]
      have henough : front.length ≤ (r.takeWhile Char.isDigit ++ front).length + 1 := by
        rw [List.length_append]
        omega
      simp only [value, hdigits]
      exact bind_congr fun v => readVelocities_fuel henough (Nat.le_refl _) text _
    · refine .stays (fun _ => rfl) fun text front hfront => ?_
      rcases List.prefix_cons_iff.mp hfront with rfl | ⟨front, rfl, -⟩
      · rfl
      · exact if_neg hvelocity
termination_by s.length
decreasing_by
  have hshorter := (suffix_takeDigits (d :: r)).length_le
  simp only [List.length_cons] at hshorter ⊢
  omega

theorem local_readSuffix (note : Note R) (s : Text) : ReadsLocally (fun text s => readSuffix text note s) s :=
  (local_readTiesAndLength note s).bind fun note left _ => local_readVelocities note left

end NoteContext

end ScoreText
