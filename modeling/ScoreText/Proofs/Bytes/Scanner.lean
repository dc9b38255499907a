import ScoreText.Proofs.Bytes.Places
import ScoreText.Proofs.Notation.Progress

/-!
Reading notes byte by byte. A scanner looks at one byte at a place, goes on by so many bytes, and cuts
texts out between places it has come to; a cut inside a character, or a loop that does not end, is not a
failure to read but a breakdown. The scanner reads what the reader of notes reads from the characters, and
never breaks down.
-/

set_option autoImplicit false

namespace ScoreText

/-- How work on bytes comes to a halt. -/
inductive Halt where
  | failed (e : Error)
  /-- A text was to be cut inside a character. -/
  | torn
  /-- A loop did not end in the time given to it. -/
  | spent

/-- A computation that looks at no places. -/
def Halt.lift {α : Type} : Except Error α → Except Halt α
  | .ok a => .ok a
  | .error e => .error (.failed e)

namespace Scanner

open Text NoteContext

def fail {α : Type} (fault : Fault) (text : Text) : Except Halt α := .error (.failed (.malformed fault text))

def cut (text : Text) (start stop : Nat) : Except Halt Text :=
  match between? text start stop with
  | some middle => .ok middle
  | none => .error .torn

/-- A run of bytes of a class, and the place after it. -/
def takeRun (p : Char → Bool) (text : Text) (place : Nat) : Except Halt (Text × Nat) := do
  let run ← cut text place (runEnd p text place)
  return (run, runEnd p text place)

variable {R : Type} [Scalar R] (ctx : NoteContext R) (text : Text)

def accidental (letter : Char) (place : Nat) : Int × Nat :=
  match seen? text place with
  | some '#' => (1, place + 1)
  | some 'B' => (-1, place + 1)
  | some 'N' => (0, place + 1)
  | _ => (if ctx.settings.followsKey then ctx.key.accidental letter else 0, place)

def octave (place : Nat) : Option Nat × Nat :=
  match seen? text place with
  | none => (none, place)
  | some c =>
    if c.isDigit then
      if c = '1' ∧ seen? text (place + 1) = some '0' then (some 10, place + 2)
      else (some (c.toNat - '0'.toNat), place + 1)
    else (none, place)

def letter (place : Nat) : Except Halt (Note R × Nat) :=
  match seen? text place with
  | none => fail .expectedNote text
  | some c =>
    match Tone.ofLetter? c with
    | none => fail .expectedLetter text
    | some position => do
      let (shift, afterAccidental) := accidental ctx text c (place + 1)
      let (octave, stop) := octave text afterAccidental
      let tone := (octave.getD ctx.settings.octave : Int) * octaveSize + position + shift
      let value ← Halt.lift (checkRange .note tone 0 maxData)
      let written ← cut text place stop
      return ({ (Note.ofValue value : Note R) with
        octaveWritten := octave.isSome, written := some written }, stop)

def bracketed (place : Nat) : Except Halt (Note R × Nat) := do
  let (inner, stop) ← takeRun (· != ']') text place
  if seen? text stop = some ']' then
    let value ←
      if !inner.isEmpty && inner.all Char.isDigit then Halt.lift (readNumber .badNoteNumber .note text inner)
      else do
        let value ← Halt.lift (ctx.symbols.require .note inner)
        Halt.lift (checkRange .note value 0 maxData)
    return ({ (Note.ofValue value : Note R) with
      octaveWritten := true
      isPercussion := Symbols.percussionName? value == some inner }, stop + 1)
  else fail .unclosedBracket text

def tone (place : Nat) : Except Halt (Note R × Nat) :=
  match seen? text place with
  | none => fail .expectedNote text
  | some c =>
    if c = 'R' then
      .ok ({ (Note.ofValue 0 : Note R) with isRest := true, written := some ['R'] }, place + 1)
    else if c = '[' then bracketed ctx text (place + 1)
    else if c.isDigit then do
      let (digits, stop) ← takeRun Char.isDigit text place
      let value ← Halt.lift (readNumber .badNoteNumber .note text digits)
      return ({ (Note.ofValue value : Note R) with octaveWritten := true }, stop)
    else letter ctx text place

def inversion : Nat → Nat → Nat → Except Halt (Inversion R × Nat)
  | 0, _, _ => .error .spent
  | fuel + 1, n, place =>
    if seen? text place = some '^' then
      match (seen? text (place + 1)).bind Tone.ofLetter? with
      | some _ => do
        let (bass, stop) ← letter ctx text (place + 1)
        return (.bass bass, stop)
      | none => inversion fuel (n + 1) (place + 1)
    else .ok (.count n, place)

def dots : Nat → R → Nat → Except Halt (R × Nat)
  | 0, _, _ => .error .spent
  | fuel + 1, length, place =>
    if seen? text place = some '.' then dots fuel (length * Length.dot) (place + 1)
    else .ok (length, place)

def lengthLetters : Nat → Option R → Nat → Except Halt (Option R × Nat)
  | 0, _, _ => .error .spent
  | fuel + 1, sum, place =>
    match (seen? text place).bind Length.ofLetter? with
    | none => .ok (sum, place)
    | some base => do
      let (digits, afterDigits) ← takeRun Char.isDigit text (place + 1)
      let counted :=
        match Numeral.value? 10 digits with
        | some n => base * Scalar.scaled n 0
        | none => base
      let (length, stop) ← dots text (byteSize text + 1) counted afterDigits
      lengthLetters fuel (some ((sum.getD ((0 : Nat) : R)) + length)) stop

def length? (place : Nat) : Except Halt (Option R × Nat) :=
  if seen? text place = some '/' then do
    let (literal, stop) ← takeRun (fun c => c.isDigit || c == '.') text (place + 1)
    match Decimal.ofText? literal with
    | some d => return (some (Scalar.ofDecimal d), stop)
    | none => fail .badDuration text
  else lengthLetters text (byteSize text + 1) none place

def tuplet (place : Nat) : Except Halt (R × Nat) := do
  let (numerator, afterNumerator) ← takeRun Char.isDigit text place
  match Numeral.value? 10 numerator with
  | none => return (((2 : Nat) : R) / ((3 : Nat) : R), afterNumerator)
  | some n =>
    if seen? text afterNumerator = some ':' then do
      let (denominator, stop) ← takeRun Char.isDigit text (afterNumerator + 1)
      match Numeral.value? 10 denominator with
      | none => fail .badTuplet text
      | some m => if n = 0 then fail .badTuplet text else return (Scalar.scaled m 0 / Scalar.scaled n 0, stop)
    else fail .tupletNeedsRatio text

def tie (isRest : Bool) (place : Nat) : Bool × Nat :=
  if seen? text place = some '-' ∧ isRest = false then (true, place + 1) else (false, place)

def tiesAndLength (note : Note R) (place : Nat) : Except Halt (Note R × Nat) := do
  let (endsTie, place) := tie text note.isRest place
  let note := { note with endsTie := endsTie }
  let (length?, place) ← length? text place
  match length? with
  | none => return (note, place)
  | some length =>
    let (length, place) ←
      if seen? text place = some '*' then do
        let (ratio, place) ← tuplet text (place + 1)
        pure (length * ratio, place)
      else pure (length, place)
    let (startsTie, place) := tie text note.isRest place
    return ({ note.withLength length with startsTie := startsTie }, place)

def velocities : Nat → Note R → Nat → Except Halt (Note R × Nat)
  | 0, _, _ => .error .spent
  | fuel + 1, note, place =>
    match seen? text place, seen? text (place + 1) with
    | some c, some d =>
      if (c = 'A' ∨ c = 'D') ∧ d.isDigit then do
        let (digits, stop) ← takeRun Char.isDigit text (place + 1)
        let value ← Halt.lift (readNumber .badVelocity .velocity text digits)
        velocities fuel (if c = 'A' then { note with attack := value } else { note with decay := value }) stop
      else .ok (note, place)
    | _, _ => .ok (note, place)

def suffix (note : Note R) (place : Nat) : Except Halt (Note R × Nat) := do
  let (note, place) ← tiesAndLength text note place
  velocities text (byteSize text + 1) note place

/-- The text from a place on, nothing if it is inside a character. -/
def rest (place : Nat) : Text := ((splitAt? place text).map Prod.snd).getD []

/-- An element, which has to take something. -/
def element (start : Nat) : Except Halt (Element R × Nat) := do
  let (tone, place) ← tone ctx text start
  let tone := { tone with attack := ctx.settings.attack, decay := ctx.settings.decay }
  match ctx.matchChord? tone (rest text place) with
  | none => do
    let (note, stop) ← suffix text tone place
    if stop = start then fail .expectedNote text else return (.note note, stop)
  | some (name, intervals) => do
    let root ← Halt.lift (ctx.chordRoot tone)
    let (inversion, place) ← inversion ctx text (byteSize text + 1) 0 (place + byteSize name)
    let (root, stop) ← suffix text root place
    let chord : Chord R := { root := root, intervals := intervals, name := some name }
    if stop = start then fail .expectedNote text
    else return (.chord <|
      match inversion with
      | .count n => chord.withInversion n
      | .bass bass => chord.withBass bass, stop)

def joint? (place : Nat) : Option (Joint × Nat) :=
  match seen? text place, seen? text (place + 1) with
  | some c, some d =>
    if startsNote d then
      if c = '+' then some (.harmonic, place + 1)
      else if c = '_' then some (.melodic, place + 1)
      else none
    else none
  | _, _ => none

def joined : Nat → Joint → Nat → Except Halt (List (Element R) × Nat)
  | 0, _, _ => .error .spent
  | fuel + 1, joint, place => do
    let (element, place) ← element ctx text place
    match joint? text place with
    | none => return ([join joint element], place)
    | some (next, place) => do
      let (more, place) ← joined fuel next place
      return (join joint element :: more, place)

/-- The joined notes at the front of a text, and the number of bytes they take. -/
def read : Except Halt (List (Element R) × Nat) := joined ctx text (byteSize text + 1) .opening 0

/-! ### What is read -/

/-- A reading of characters, with the place where what is left begins. -/
def onPlaces {α : Type} : Except Error (α × Text) → Except Halt (α × Nat)
  | .ok (a, left) => .ok (a, place text left)
  | .error e => .error (.failed e)

section

variable {α β : Type} {text t : Text}

theorem onPlaces_bind {x : Except Error (α × Text)} {f : α × Text → Except Error (β × Text)}
    {g : α × Nat → Except Halt (β × Nat)} (hx : Keeps t x)
    (h : ∀ a left, left <:+ t → g (a, place text left) = onPlaces text (f (a, left))) :
    (onPlaces text x >>= g) = onPlaces text (x >>= f) := by
  cases x with
  | error e => rfl
  | ok p => exact h p.1 p.2 (hx.suffix p.1 p.2 rfl)

theorem lift_bind {x : Except Error α} {f : α → Except Error (β × Text)} {g : α → Except Halt (β × Nat)}
    (h : ∀ a, g a = onPlaces text (f a)) : (Halt.lift x >>= g) = onPlaces text (x >>= f) := by
  cases x with
  | error e => rfl
  | ok a => exact h a

theorem ok_bind (a : α) (f : α → Except Halt β) : ((.ok a : Except Halt α) >>= f) = f a := rfl

theorem cut_place {left : Text} (hleft : left <:+ t) (h : t <:+ text) :
    cut text (place text t) (place text left) = .ok (t.take (t.length - left.length)) := by
  obtain ⟨middle, rfl⟩ := hleft
  rw [cut, between?_place h, List.length_append, Nat.add_sub_cancel, List.take_left]

theorem takeRun_place {p : Char → Bool} (hp : Plain p) (h : t <:+ text) :
    takeRun p text (place text t) = .ok (t.takeWhile p, place text (t.dropWhile p)) := by
  rw [takeRun, cut, between?_run hp h, runEnd_place hp h]
  rfl

theorem rest_place (h : t <:+ text) : rest text (place text t) = t := by
  obtain ⟨taken, -, hsplit⟩ := splitAt?_place h
  rw [rest, hsplit]
  rfl

end

theorem plain_of_beyond {α : Type} {q : Char → α} (x : α) (h : ∀ c : Char, 128 ≤ c.toNat → q c = x) :
    Plain q := fun c d hc hd => (h c hc).trans (h d hd).symm

theorem ascii_of_ne {α : Type} {q : Char → α} {x : α} (h : ∀ c : Char, 128 ≤ c.toNat → q c = x) {c : Char}
    (hc : q c ≠ x) : c.toNat < 128 :=
  Nat.lt_of_not_le fun hle => hc (h c hle)

theorem ne_of_beyond {a c : Char} (ha : a.toNat < 128) (hc : 128 ≤ c.toNat) : c ≠ a :=
  fun heq => Nat.not_le_of_lt ha (heq ▸ hc)

theorem isDigit_beyond (c : Char) (h : 128 ≤ c.toNat) : c.isDigit = false := by
  have hval : 128 ≤ c.val.toNat := h
  simp only [Char.isDigit, Bool.and_eq_false_iff, decide_eq_false_iff_not, UInt32.not_le, UInt32.lt_iff_toNat_lt]
  exact .inr (Nat.lt_of_lt_of_le (by decide) hval)

theorem literal_beyond (c : Char) (h : 128 ≤ c.toNat) : (c.isDigit || c == '.') = false := by
  rw [isDigit_beyond c h, Bool.false_or, beq_eq_false_iff_ne]
  exact ne_of_beyond (by decide) h

theorem ofLetter?_beyond (c : Char) (h : 128 ≤ c.toNat) : Tone.ofLetter? c = none := by
  unfold Tone.ofLetter?
  split <;> first | rfl | exact absurd h (by decide)

theorem lengthOfLetter?_beyond (c : Char) (h : 128 ≤ c.toNat) :
    (Length.ofLetter? c : Option R) = none := by
  have hletters : ∀ c ∈ Length.letters, c.toNat < 128 := by decide
  have habsent : c ∉ Length.letters := fun hmem => Nat.not_le_of_lt (hletters c hmem) h
  rw [Length.ofLetter?, List.idxOf?_eq_none_iff.mpr habsent]
  rfl

theorem startsNote_beyond (c : Char) (h : 128 ≤ c.toNat) : startsNote c = false := by
  have hval : 128 ≤ c.val.toNat := h
  have hR : (c == 'R') = false := beq_eq_false_iff_ne.mpr (ne_of_beyond (by decide) h)
  have hbracket : (c == '[') = false := beq_eq_false_iff_ne.mpr (ne_of_beyond (by decide) h)
  have hletter : decide (c ≤ 'G') = false := by
    rw [decide_eq_false_iff_not, Char.not_le, Char.lt_def, UInt32.lt_iff_toNat_lt]
    exact Nat.lt_of_lt_of_le (by decide) hval
  rw [startsNote, isDigit_beyond c h, hR, hbracket, hletter, Bool.and_false]
  rfl

theorem plain_isDigit : Plain Char.isDigit := plain_of_beyond false isDigit_beyond

theorem plain_ne {a : Char} (ha : a.toNat < 128) : Plain (· != a) :=
  plain_of_beyond true fun _ hc => bne_iff_ne.mpr (ne_of_beyond ha hc)

section

variable {text t : Text}

omit [Scalar R] in
theorem accidental_place (c : Char) (h : t <:+ text) :
    accidental ctx text c (place text t) =
      ((ctx.readAccidental c t).1, place text (ctx.readAccidental c t).2) := by
  unfold NoteContext.readAccidental
  split
  · rw [accidental, seen?_ascii h (by decide), place_tail h (by decide)]
    rfl
  · rw [accidental, seen?_ascii h (by decide), place_tail h (by decide)]
    rfl
  · rw [accidental, seen?_ascii h (by decide), place_tail h (by decide)]
    rfl
  · rename_i hsharp hflat hnatural
    rw [accidental]
    split
    · exact absurd ‹_› (seen?_ne h (by decide) hsharp)
    · exact absurd ‹_› (seen?_ne h (by decide) hflat)
    · exact absurd ‹_› (seen?_ne h (by decide) hnatural)
    · rfl

theorem octave_place (h : t <:+ text) :
    octave text (place text t) = ((readOctave t).1, place text (readOctave t).2) := by
  unfold NoteContext.readOctave
  split
  · rename_i r
    have htail : '0' :: r <:+ text := (List.suffix_cons _ _).trans h
    rw [octave, seen?_ascii h (by decide)]
    dsimp only
    rw [← place_tail h (by decide), seen?_ascii htail (by decide), place_tail htail (by decide),
      place_tail h (by decide)]
    rfl
  · rename_i c r hten
    rw [octave, seen?_place h]
    dsimp only
    rw [plain_isDigit.glance]
    split
    · rename_i hdigit
      have hascii : c.toNat < 128 := ascii_of_ne isDigit_beyond (by rw [hdigit]; decide)
      have htail : r <:+ text := (List.suffix_cons _ _).trans h
      have hother : ¬ (c = '1' ∧ seen? text (place text r) = some '0') := by
        rintro ⟨hone, hzero⟩
        exact seen?_ne htail (by decide) (fun r' hr => hten r' hone hr) hzero
      rw [glance_of_ascii hascii, ← place_tail h hascii, if_neg hother]
    · rfl
  · rw [octave, seen?_nil]

theorem letter_place (h : t <:+ text) :
    letter ctx text (place text t) = onPlaces text (ctx.readLetter text t) := by
  unfold NoteContext.readLetter
  split
  · rw [letter, seen?_nil]
    rfl
  · rename_i c r
    rw [letter, seen?_place h]
    dsimp only
    rw [(plain_of_beyond none ofLetter?_beyond).glance]
    cases hposition : Tone.ofLetter? c with
    | none => rfl
    | some position =>
      have hascii : c.toNat < 128 := ascii_of_ne ofLetter?_beyond (hposition ▸ Option.some_ne_none _)
      have htail : r <:+ text := (List.suffix_cons _ _).trans h
      have hshift := suffix_readAccidental ctx c r
      have hoctave := suffix_readOctave (ctx.readAccidental c r).2
      have hcut := cut_place ((hoctave.trans hshift).trans (List.suffix_cons c r)) h
      dsimp only
      rw [glance_of_ascii hascii, ← place_tail h hascii, accidental_place ctx c htail,
        octave_place (hshift.trans htail)]
      refine lift_bind fun value => ?_
      rw [hcut]
      rfl

theorem bracketed_place (h : t <:+ text) :
    bracketed ctx text (place text t) = onPlaces text (ctx.readBracketed text t) := by
  have hrun : t.dropWhile (· != ']') <:+ text := (List.dropWhile_suffix _).trans h
  unfold NoteContext.readBracketed bracketed
  rw [takeRun_place (plain_ne (by decide)) h]
  rcases cut?_run ']' t with ⟨hnone, hcut⟩ | ⟨rest, hfound, hcut⟩
  · rw [hcut]
    show (if _ then _ else _) = _
    rw [hnone, seen?_nil, if_neg (Option.some_ne_none _).symm]
    rfl
  · rw [hcut]
    rw [hfound] at hrun ⊢
    show (if _ then _ else _) = _
    rw [if_pos (seen?_ascii hrun (by decide)), ← place_tail hrun (by decide)]
    dsimp only
    split
    · exact lift_bind fun value => rfl
    · exact lift_bind fun named => lift_bind fun value => rfl

theorem tone_place (h : t <:+ text) :
    tone ctx text (place text t) = onPlaces text (ctx.readTone text t) := by
  unfold NoteContext.readTone
  split
  · rw [tone, seen?_nil]
    rfl
  · rw [tone, seen?_ascii h (by decide), onPlaces, place_tail h (by decide)]
    rfl
  · rename_i r
    rw [tone, seen?_ascii h (by decide), ← place_tail h (by decide)]
    exact bracketed_place ctx ((List.suffix_cons _ _).trans h)
  · rename_i c r hrest hbracket
    have hR : glance c ≠ 'R' := fun heq => hrest ((glance_eq_iff (by decide)).mp heq)
    have hopen : glance c ≠ '[' := fun heq => hbracket ((glance_eq_iff (by decide)).mp heq)
    rw [tone, seen?_place h]
    dsimp only
    rw [if_neg hR, if_neg hopen, plain_isDigit.glance]
    split
    · rw [takeRun_place plain_isDigit h]
      exact lift_bind fun value => rfl
    · exact letter_place ctx h

theorem inversion_place (fuel n : Nat) (h : t <:+ text) (hfuel : t.length < fuel) :
    inversion ctx text fuel n (place text t) = onPlaces text (ctx.readInversion text n t) := by
  induction fuel generalizing n t with
  | zero => exact absurd hfuel (Nat.not_lt_zero _)
  | succ fuel ih =>
    rw [inversion]
    split
    · rename_i hcaret
      obtain ⟨r, rfl⟩ := List.head?_eq_some_iff.mp ((seen?_eq_some_iff h (by decide)).mp hcaret)
      have htail : r <:+ text := (List.suffix_cons _ _).trans h
      have hbass : (seen? text (place text r)).bind Tone.ofLetter? = r.head?.bind Tone.ofLetter? := by
        rw [seen?_place_eq htail, Option.bind_map]
        exact congrArg r.head?.bind (funext (plain_of_beyond none ofLetter?_beyond).glance)
      rw [← place_tail h (by decide), hbass, readInversion]
      cases r.head?.bind Tone.ofLetter? with
      | some position =>
        dsimp only
        rw [letter_place ctx htail]
        exact onPlaces_bind (ctx.keeps_readLetter text r) fun _ _ _ => rfl
      | none => exact ih (n + 1) htail (Nat.lt_of_succ_lt_succ hfuel)
    · rename_i hcaret
      rw [readInversion]
      · rfl
      · intro r hr
        exact hcaret (hr ▸ seen?_ascii (hr ▸ h) (by decide))

theorem dots_place (fuel : Nat) (length : R) (h : t <:+ text) (hfuel : t.length < fuel) :
    dots text fuel length (place text t) =
      .ok ((readDots length t).1, place text (readDots length t).2) := by
  induction fuel generalizing length t with
  | zero => exact absurd hfuel (Nat.not_lt_zero _)
  | succ fuel ih =>
    rw [dots]
    split
    · rename_i hdot
      obtain ⟨r, rfl⟩ := List.head?_eq_some_iff.mp ((seen?_eq_some_iff h (by decide)).mp hdot)
      rw [← place_tail h (by decide), readDots]
      exact ih _ ((List.suffix_cons _ _).trans h) (Nat.lt_of_succ_lt_succ hfuel)
    · rename_i hdot
      rw [readDots]
      intro r hr
      exact hdot (hr ▸ seen?_ascii (hr ▸ h) (by decide))

omit [Scalar R] in
/-- A loop that takes a character every time ends before it has gone on for as long as there are bytes. -/
theorem length_lt (h : t <:+ text) : t.length < byteSize text + 1 :=
  Nat.lt_succ_of_le (Nat.le_trans h.length_le (length_le_byteSize text))

/-- With time enough, letters of length are read to the end of them. -/
theorem lengthLetters_place {fuel limit : Nat} (sum : Option R) (h : t <:+ text) (hfuel : t.length < fuel)
    (hlimit : t.length ≤ limit) :
    lengthLetters text fuel sum (place text t) =
      .ok ((readLengthLetters limit sum t).1, place text (readLengthLetters limit sum t).2) := by
  induction fuel generalizing limit sum t with
  | zero => exact absurd hfuel (Nat.not_lt_zero _)
  | succ fuel ih =>
    rw [lengthLetters]
    cases t with
    | nil =>
      rw [seen?_nil, readLengthLetters]
      · rfl
      · intros
        contradiction
    | cons c r =>
      obtain ⟨limit, rfl⟩ : ∃ n, limit = n + 1 := ⟨limit - 1, by rw [List.length_cons] at hlimit; omega⟩
      rw [seen?_place h, Option.bind_some, (plain_of_beyond none lengthOfLetter?_beyond).glance, readLengthLetters]
      cases hbase : (Length.ofLetter? c : Option R) with
      | none => rfl
      | some base =>
        have hascii : c.toNat < 128 := ascii_of_ne lengthOfLetter?_beyond (hbase ▸ Option.some_ne_none _)
        have htail : r <:+ text := (List.suffix_cons _ _).trans h
        have hdigits : (Numeral.takeDigits r).2 <:+ r := Text.suffix_takeDigits r
        dsimp only
        rw [← place_tail h hascii, takeRun_place plain_isDigit htail]
        change (dots text _ _ (place text (Numeral.takeDigits r).2) >>= _) = _
        rw [dots_place _ _ (hdigits.trans htail) (length_lt (hdigits.trans htail))]
        have hdots : ∀ counted : R, (readDots counted (Numeral.takeDigits r).2).2 <:+ r := fun counted =>
          (suffix_readDots counted _).trans hdigits
        exact ih _ ((hdots _).trans htail) (Nat.lt_of_le_of_lt (hdots _).length_le (Nat.lt_of_succ_lt_succ hfuel))
          (Nat.le_trans (hdots _).length_le (Nat.le_of_succ_le_succ hlimit))

theorem length?_place (h : t <:+ text) :
    length? text (place text t) = onPlaces text (readLength? text t : Except Error (Option R × Text)) := by
  rw [length?]
  split
  · rename_i hslash
    obtain ⟨r, rfl⟩ := List.head?_eq_some_iff.mp ((seen?_eq_some_iff h (by decide)).mp hslash)
    have htail : r <:+ text := (List.suffix_cons _ _).trans h
    rw [← place_tail h (by decide), takeRun_place (plain_of_beyond false literal_beyond) htail, readLength?]
    change (match Decimal.ofText? (r.takeWhile fun c => c.isDigit || c == '.') with
      | some d => _
      | none => _) = _
    cases Decimal.ofText? (r.takeWhile fun c => c.isDigit || c == '.') with
    | none => rfl
    | some d => rfl
  · rename_i hslash
    rw [readLength?]
    · exact lengthLetters_place none h (length_lt h) (Nat.le_refl _)
    · intro r hr
      exact hslash (hr ▸ seen?_ascii (hr ▸ h) (by decide))

theorem tuplet_place (h : t <:+ text) :
    tuplet text (place text t) = onPlaces text (readTuplet text t : Except Error (R × Text)) := by
  have hdigits : t.dropWhile Char.isDigit <:+ text := (List.dropWhile_suffix _).trans h
  simp only [tuplet, readTuplet, Numeral.takeDigits]
  rw [takeRun_place plain_isDigit h]
  change (match Numeral.value? 10 (t.takeWhile Char.isDigit) with
    | none => _
    | some n => _) = _
  cases Numeral.value? 10 (t.takeWhile Char.isDigit) with
  | none => rfl
  | some n =>
    dsimp only
    split
    · rename_i hcolon
      obtain ⟨r, hr⟩ := List.head?_eq_some_iff.mp ((seen?_eq_some_iff hdigits (by decide)).mp hcolon)
      rw [hr] at hdigits ⊢
      rw [← place_tail hdigits (by decide), takeRun_place plain_isDigit ((List.suffix_cons _ _).trans hdigits)]
      change (match Numeral.value? 10 (r.takeWhile Char.isDigit) with
        | none => _
        | some n => _) = _
      change _ = onPlaces text (match Numeral.value? 10 (r.takeWhile Char.isDigit) with
        | none => _
        | some m => _)
      cases Numeral.value? 10 (r.takeWhile Char.isDigit) with
      | none => rfl
      | some m =>
        dsimp only
        split <;> rfl
    · rename_i hcolon
      split
      · rename_i r hr
        rw [hr] at hdigits hcolon
        exact absurd (seen?_ascii hdigits (by decide)) hcolon
      · rfl

theorem tie_place (isRest : Bool) (h : t <:+ text) :
    tie text isRest (place text t) = ((readTie isRest t).1, place text (readTie isRest t).2) := by
  rw [tie]
  unfold readTie
  split
  · rename_i hseen
    split
    · rename_i r
      rw [if_neg (by simp [hseen.2]), place_tail h (by decide)]
    · rename_i hdash
      exact absurd hseen.1 (seen?_ne h (by decide) hdash)
  · rename_i hseen
    split
    · rename_i r
      have hrest : isRest = true := by simpa using fun hsounds => hseen ⟨seen?_ascii h (by decide), hsounds⟩
      rw [if_pos hrest]
    · rfl

theorem tiesAndLength_place (note : Note R) (h : t <:+ text) :
    tiesAndLength text note (place text t) = onPlaces text (readTiesAndLength text note t) := by
  have htie : (readTie note.isRest t).2 <:+ text := (suffix_readTie note.isRest t).trans h
  rw [tiesAndLength, readTiesAndLength]
  dsimp only
  rw [tie_place note.isRest h]
  dsimp only
  rw [length?_place htie]
  refine onPlaces_bind (keeps_readLength? text _) fun length? left hleft => ?_
  replace hleft := hleft.trans htie
  cases length? with
  | none => rfl
  | some length =>
    dsimp only
    split
    · rename_i hstar
      obtain ⟨r, rfl⟩ := List.head?_eq_some_iff.mp ((seen?_eq_some_iff hleft (by decide)).mp hstar)
      have htail : r <:+ text := (List.suffix_cons _ _).trans hleft
      rw [← place_tail hleft (by decide), tuplet_place htail]
      refine onPlaces_bind (keeps_readTuplet text r) fun ratio last hlast => ?_
      simp only [pure_bind, tie_place note.isRest (hlast.trans htail)]
      rfl
    · rename_i hstar
      simp only [pure_bind, tie_place note.isRest hleft]
      split
      · exact absurd (seen?_ascii hleft (by decide)) hstar
      · rfl

omit [Scalar R] in
theorem velocities_place {fuel limit : Nat} (note : Note R) (h : t <:+ text) (hfuel : t.length < fuel)
    (hlimit : t.length ≤ limit) :
    velocities text fuel note (place text t) = onPlaces text (readVelocities text limit note t) := by
  induction fuel generalizing limit note t with
  | zero => exact absurd hfuel (Nat.not_lt_zero _)
  | succ fuel ih =>
    rw [velocities]
    cases t with
    | nil =>
      rw [seen?_nil, readVelocities]
      · rfl
      · intros
        contradiction
    | cons c r =>
      rw [seen?_place h]
      by_cases hwhich : c = 'A' ∨ c = 'D'
      · have hascii : c.toNat < 128 := by rcases hwhich with rfl | rfl <;> decide
        have htail : r <:+ text := (List.suffix_cons _ _).trans h
        rw [glance_of_ascii hascii, ← place_tail h hascii, seen?_place_eq htail]
        cases r with
        | nil =>
          rw [readVelocities]
          · rfl
          · rintro _ _ _ _ _ ⟨⟩
        | cons d r =>
          obtain ⟨limit, rfl⟩ : ∃ n, limit = n + 1 := ⟨limit - 1, by rw [List.length_cons] at hlimit; omega⟩
          have hdigits : (d :: r).dropWhile Char.isDigit <:+ d :: r := List.dropWhile_suffix _
          have hshorter := hdigits.length_le
          rw [List.length_cons] at hfuel hlimit
          rw [readVelocities]
          simp only [List.head?_cons, Option.map_some, plain_isDigit.glance]
          split
          · rw [takeRun_place plain_isDigit htail]
            exact lift_bind fun value => ih _ (hdigits.trans htail) (by omega) (by omega)
          · rfl
      · have hother : ¬ (glance c = 'A' ∨ glance c = 'D') := by
          rwa [glance_eq_iff (by decide), glance_eq_iff (by decide)]
        have hnone : readVelocities text limit note (c :: r) = .ok (note, c :: r) := by
          unfold readVelocities
          split
          · rename_i heq
            cases heq
            exact if_neg fun hvelocity => hwhich hvelocity.1
          · rfl
        rw [hnone]
        cases seen? text (place text (c :: r) + 1) with
        | none => rfl
        | some d => exact if_neg fun hvelocity => hother hvelocity.1

theorem suffix_place (note : Note R) (h : t <:+ text) :
    suffix text note (place text t) = onPlaces text (readSuffix text note t) := by
  rw [suffix, readSuffix, tiesAndLength_place note h]
  exact onPlaces_bind (keeps_readTiesAndLength text note t) fun note left hleft =>
    velocities_place note (hleft.trans h) (length_lt (hleft.trans h)) (Nat.le_refl _)

omit [Scalar R] in
/-- The name of a chord is the start of a text. -/
theorem drop_matchChord? {note : Note R} {name : Text} {intervals : Intervals} (h : t <:+ text)
    (hname : ctx.matchChord? note t = some (name, intervals)) :
    place text t + byteSize name = place text (t.drop name.length) := by
  obtain ⟨r, rfl⟩ : name <+: t := by
    rw [matchChord?] at hname
    split at hname
    · cases hname
    · have hstart := List.find?_some hname
      exact List.isPrefixOf_iff_prefix.mp hstart
  obtain ⟨front, rfl⟩ := h
  have hplace := place_append (front ++ name) r
  rw [List.append_assoc] at hplace
  rw [List.drop_left, hplace, place_append, byteSize_append]

theorem element_place (h : t <:+ text) :
    element ctx text (place text t) = onPlaces text (ctx.readElement text t) := by
  cases t with
  | nil =>
    rw [element, tone_place ctx h]
    rfl
  | cons c r =>
    have hmoved : ∀ left, left <:+ r → place text left ≠ place text (c :: r) := fun left hleft =>
      Nat.ne_of_gt (place_lt_place (List.cons_ne_nil c r) h hleft)
    have hr : r <:+ text := (List.suffix_cons _ _).trans h
    rw [element, readElement, tone_place ctx h]
    refine onPlaces_bind (ctx.keeps_readTone text (c :: r)) fun tone left hleft => ?_
    replace hleft : left <:+ r := hleft
    dsimp only
    rw [rest_place (hleft.trans hr)]
    cases hname : ctx.matchChord? { tone with attack := ctx.settings.attack, decay := ctx.settings.decay } left with
    | none =>
      dsimp only
      rw [suffix_place _ (hleft.trans hr)]
      refine onPlaces_bind (keeps_readSuffix text _ _) fun note last hlast => ?_
      exact if_neg (hmoved last (hlast.trans hleft))
    | some chord =>
      obtain ⟨name, intervals⟩ := chord
      have hdrop : left.drop name.length <:+ r := (List.drop_suffix _ _).trans hleft
      refine lift_bind fun root => ?_
      rw [drop_matchChord? ctx (hleft.trans hr) hname,
        inversion_place ctx _ 0 (hdrop.trans hr) (length_lt (hdrop.trans hr))]
      refine onPlaces_bind (ctx.keeps_readInversion text 0 _) fun inversion after hafter => ?_
      dsimp only
      rw [suffix_place _ (hafter.trans (hdrop.trans hr))]
      refine onPlaces_bind (keeps_readSuffix text _ _) fun root last hlast => ?_
      exact if_neg (hmoved last (hlast.trans (hafter.trans hdrop)))

theorem joint?_place (h : t <:+ text) :
    joint? text (place text t) = (readJoint? t).map fun (joint, left) => (joint, place text left) := by
  rw [joint?]
  cases t with
  | nil =>
    rw [seen?_nil]
    rfl
  | cons c r =>
    rw [seen?_place h]
    by_cases hwhich : c = '+' ∨ c = '_'
    · have hascii : c.toNat < 128 := by rcases hwhich with rfl | rfl <;> decide
      have htail : r <:+ text := (List.suffix_cons _ _).trans h
      rw [glance_of_ascii hascii, ← place_tail h hascii, seen?_place_eq htail]
      cases r with
      | nil => rfl
      | cons d r =>
        simp only [List.head?_cons, Option.map_some, readJoint?, (plain_of_beyond false startsNote_beyond).glance]
        split
        · rcases hwhich with rfl | rfl <;> rfl
        · rfl
    · have hplus : ¬ c = '+' := fun heq => hwhich (.inl heq)
      have hline : ¬ c = '_' := fun heq => hwhich (.inr heq)
      have hnone : readJoint? (c :: r) = none := by
        unfold readJoint?
        split
        · rename_i heq
          cases heq
          rw [if_neg hplus, if_neg hline, ite_self]
        · rfl
      rw [hnone]
      cases seen? text (place text (c :: r) + 1) with
      | none => rfl
      | some d =>
        dsimp only
        rw [if_neg (mt (glance_eq_iff (by decide)).mp hplus), if_neg (mt (glance_eq_iff (by decide)).mp hline),
          ite_self]
        rfl

theorem length_readJoint? {left : Text} {joint : Joint} (h : readJoint? t = some (joint, left)) :
    left.length < t.length := by
  unfold readJoint? at h
  split at h
  · split at h
    · split at h
      · cases h
        exact Nat.lt_succ_self _
      · split at h
        · cases h
          exact Nat.lt_succ_self _
        · cases h
    · cases h
  · cases h

/-- With time enough, all joined elements are read. -/
theorem joined_place {fuel limit : Nat} (joint : Joint) (h : t <:+ text) (hfuel : t.length < fuel)
    (hlimit : t.length < limit) :
    joined ctx text fuel joint (place text t) = onPlaces text (ctx.readJoined text limit joint t) := by
  induction fuel generalizing limit joint t with
  | zero => exact absurd hfuel (Nat.not_lt_zero _)
  | succ fuel ih =>
    obtain ⟨limit, rfl⟩ : ∃ n, limit = n + 1 := ⟨limit - 1, by omega⟩
    rw [joined, readJoined, element_place ctx h]
    refine onPlaces_bind (ctx.keeps_readElement text t) fun element left hleft => ?_
    dsimp only
    rw [joint?_place (hleft.trans ((List.tail_suffix t).trans h))]
    cases hjoint : readJoint? left with
    | none => rfl
    | some next =>
      obtain ⟨next, after⟩ := next
      have hsuffix : after <:+ t := (suffix_of_readJoint? hjoint).trans (hleft.trans (List.tail_suffix t))
      have hshorter := Nat.lt_of_lt_of_le (length_readJoint? hjoint) (hleft.trans (List.tail_suffix t)).length_le
      have hmore : joined ctx text fuel next (place text after) =
          onPlaces text (ctx.readJoined text limit next after) :=
        ih next (hsuffix.trans h) (by omega) (by omega)
      dsimp only [Option.map_some]
      rw [hmore]
      exact onPlaces_bind (ctx.keeps_readJoined text limit next after).1 fun more last _ => rfl

/-- The scanner reads what the reader of notes reads. -/
theorem read_eq (text : Text) : read ctx text = onPlaces text (ctx.read text) := by
  have hplace : place text text = 0 := place_self text
  rw [read, NoteContext.read, ← hplace]
  exact joined_place ctx .opening List.suffix_rfl (length_lt List.suffix_rfl) (Nat.lt_succ_self _)

end

end Scanner

end ScoreText
