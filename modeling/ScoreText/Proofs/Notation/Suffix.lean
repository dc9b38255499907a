import Mathlib.Data.List.TakeWhile
import ScoreText.Proofs.Notation.Tones

/-!
What follows a tone: the written form of ties, length and velocities is read as it was.
-/

set_option autoImplicit false

namespace ScoreText

open NoteContext

/-- What may follow a length: the mark of a tie, velocities or another note. -/
def Stop (rest : Text) : Prop := ∀ c ∈ rest.head?, c ∈ ['-', 'A', 'D', '+', '_']

/-- What may follow a note: another note that is joined to it. -/
def Seam (rest : Text) : Prop := ∀ c ∈ rest.head?, c = '+' ∨ c = '_'

theorem Seam.stop {rest : Text} (h : Seam rest) : Stop rest := fun c hc => by
  rcases h c hc with rfl | rfl <;> decide

theorem Stop.ne {rest : Text} {c : Char} (h : Stop rest) (hc : c ∉ ['-', 'A', 'D', '+', '_'])
    (r : Text) : rest ≠ c :: r := by
  rintro rfl
  exact hc (h c rfl)

theorem Stop.ends {rest : Text} (h : Stop rest) : Numeral.Ends rest := fun c hc hd => by
  have := h c hc
  simp only [List.mem_cons, List.not_mem_nil, or_false] at this
  rcases this with rfl | rfl | rfl | rfl | rfl <;> exact absurd hd (by decide)

namespace Length

variable {R : Type} [Scalar R]

/-- A length whose written form is read as that length. -/
structure Legible (l : R) : Prop where
  chars : ∀ c ∈ text l, c.isAlphanum = true ∨ c = '.' ∨ c = '/'
  read : ∃ l', readLength? [] (Text.upper (text l)) = .ok (some l', []) ∧ (l == l') = true

/-- The length that the written form of a length is read as. -/
def reread (l : R) : R :=
  match (readLength? [] (Text.upper (text l)) : Except Error (Option R × Text)) with
  | .ok (some l', _) => l'
  | _ => l

theorem Legible.beq_reread {l : R} (h : Legible l) : (l == reread l) = true := by
  obtain ⟨l', hread, heq⟩ := h.read
  simpa only [reread, hread] using heq

/-- A length whose written form is read as some length. -/
structure Readable (l : R) : Prop where
  chars : ∀ c ∈ text l, c.isAlphanum = true ∨ c = '.' ∨ c = '/'
  read : readLength? [] (Text.upper (text l)) = .ok (some (reread l), [])

theorem Legible.readable {l : R} (h : Legible l) : Readable l := by
  obtain ⟨l', hread, -⟩ := h.read
  exact ⟨h.chars, by simp only [reread, hread]⟩

/-- Whether a text is read as a length in either case. -/
def readsAs (t : Text) (l : R) : Bool :=
  match (readLength? [] (Text.upper t) : Except Error (Option R × Text)) with
  | .ok (some l', []) => l == l'
  | _ => false

theorem readsAs_iff (t : Text) (l : R) : readsAs t l = true ↔
    ∃ l', readLength? [] (Text.upper t) = .ok (some l', []) ∧ (l == l') = true := by
  refine ⟨fun h => ?_, fun ⟨l', hread, heq⟩ => ?_⟩
  · unfold readsAs at h
    split at h
    · exact ⟨_, ‹_›, h⟩
    · cases h
  · rw [readsAs, hread]
    exact heq

instance (l : R) : Decidable (Legible l) :=
  decidable_of_iff
    ((∀ c ∈ text l, c.isAlphanum = true ∨ c = '.' ∨ c = '/') ∧ readsAs (text l) l = true)
    ⟨fun h => ⟨h.1, (readsAs_iff _ l).mp h.2⟩, fun h => ⟨h.chars, (readsAs_iff _ l).mpr h.read⟩⟩

theorem ofLetter?_stop {rest : Text} (h : Stop rest) {c : Char} {r : Text} (hr : rest = c :: r) :
    (ofLetter? c : Option R) = none := by
  have hc := h c (by rw [hr]; rfl)
  have hall : ∀ c ∈ ['-', 'A', 'D', '+', '_'], letters.idxOf? c = none := by decide
  rw [ofLetter?, hall c hc]
  rfl

theorem readLengthLetters_stop {rest : Text} (h : Stop rest) (fuel : Nat) (sum : Option R) :
    readLengthLetters fuel sum rest = (sum, rest) := by
  cases fuel with
  | zero => rfl
  | succ fuel =>
    cases hr : rest with
    | nil => rfl
    | cons c r => simp only [readLengthLetters, ofLetter?_stop h hr]

theorem takeDigits_append {s rest : Text} (h : Numeral.Ends rest) :
    Numeral.takeDigits (s ++ rest) = ((Numeral.takeDigits s).1, (Numeral.takeDigits s).2 ++ rest) := by
  induction s with
  | nil => simpa [Numeral.takeDigits] using @Numeral.takeDigits_append_of_ends [] rest (by simp) h
  | cons c r ih =>
    simp only [Numeral.takeDigits, List.cons_append, List.takeWhile_cons, List.dropWhile_cons] at ih ⊢
    obtain ⟨htake, hdrop⟩ := Prod.mk.inj ih
    cases c.isDigit <;> simp [htake, hdrop]

theorem readDots_append {rest : Text} (h : Stop rest) (length : R) (s : Text) :
    readDots length (s ++ rest) = ((readDots length s).1, (readDots length s).2 ++ rest) := by
  have hend : ∀ length : R, readDots length rest = (length, rest) := by
    intro length
    unfold readDots
    split
    · exact absurd rfl (h.ne (by decide) _)
    · rfl
  induction s generalizing length with
  | nil => exact hend length
  | cons c r ih =>
    by_cases hc : c = '.'
    · subst hc
      exact ih (length * dot)
    · have hother : ∀ t, readDots length (c :: t) = (length, c :: t) := by
        intro t
        unfold readDots
        split
        · rename_i heq
          exact absurd (List.cons.inj heq).1 hc
        · rfl
      rw [List.cons_append, hother, hother]
      rfl

/-- Letters that are read to their end are read to the same end before what stops them. -/
theorem readLengthLetters_append {rest : Text} (h : Stop rest) {fuel more : Nat} {sum x : Option R}
    {s : Text} (hs : readLengthLetters fuel sum s = (x, [])) (hle : fuel ≤ more) :
    readLengthLetters more sum (s ++ rest) = (x, rest) := by
  induction fuel generalizing more sum s with
  | zero =>
    obtain ⟨rfl, rfl⟩ := Prod.mk.inj hs
    exact readLengthLetters_stop h more sum
  | succ fuel ih =>
    obtain ⟨more, rfl⟩ : ∃ n, more = n + 1 := ⟨more - 1, by omega⟩
    cases s with
    | nil =>
      obtain ⟨rfl, -⟩ := Prod.mk.inj hs
      exact readLengthLetters_stop h _ sum
    | cons c r =>
      simp only [readLengthLetters, List.cons_append] at hs ⊢
      cases hc : (ofLetter? c : Option R) with
      | none =>
        rw [hc] at hs
        exact absurd (Prod.mk.inj hs).2 (List.cons_ne_nil c r)
      | some base =>
        simp only [hc] at hs ⊢
        rw [takeDigits_append h.ends]
        simp only [readDots_append h]
        exact ih hs (by omega)

/-- What stands behind a length is no part of a number of beats. -/
theorem not_beats_of_stop {rest : Text} (h : Stop rest) :
    rest.takeWhile (fun c => c.isDigit || c == '.') = [] ∧
      rest.dropWhile (fun c => c.isDigit || c == '.') = rest := by
  cases rest with
  | nil => exact ⟨rfl, rfl⟩
  | cons c t =>
    have hall : ∀ c ∈ ['-', 'A', 'D', '+', '_'], ¬ (Char.isDigit c || c == '.') = true := by decide
    have hc := hall c (h c rfl)
    exact ⟨List.takeWhile_cons_of_neg hc, List.dropWhile_cons_of_neg hc⟩

/-- A length in beats. -/
theorem readLength?_beats_append {text text' rest r : Text} {l : R} (h : Stop rest)
    (hs : readLength? text ('/' :: r) = .ok (some l, [])) :
    readLength? text' ('/' :: (r ++ rest)) = .ok (some l, rest) := by
  simp only [readLength?] at hs ⊢
  cases hd : Decimal.ofText? (r.takeWhile fun c => c.isDigit || c == '.') with
  | none =>
    rw [hd] at hs
    cases hs
  | some d =>
    rw [hd] at hs
    obtain ⟨hl, hdrop⟩ := Prod.mk.inj (Except.ok.inj hs)
    have hchars : ∀ c ∈ r, (c.isDigit || c == '.') = true := List.dropWhile_eq_nil_iff.mp hdrop
    obtain ⟨htake, hrest⟩ := not_beats_of_stop h
    rw [List.takeWhile_append_of_pos hchars, List.dropWhile_append_of_pos hchars, htake, hrest,
      List.append_nil]
    rw [List.takeWhile_eq_self_iff.mpr hchars] at hd
    simp only [hd, hl]

/-- A length that is not in beats is in letters. -/
theorem readLength?_letters (text : Text) {s : Text} (h : s.head? ≠ some '/') :
    readLength? text s = .ok (readLengthLetters s.length (none : Option R) s) := by
  unfold readLength?
  split
  · exact absurd rfl h
  · rfl

theorem readLength?_append {text text' rest s : Text} {l : R} (h : Stop rest)
    (hs : readLength? text s = .ok (some l, [])) :
    readLength? text' (s ++ rest) = .ok (some l, rest) := by
  by_cases hslash : ∃ r, s = '/' :: r
  · obtain ⟨r, rfl⟩ := hslash
    exact readLength?_beats_append h hs
  · have hhead : s.head? ≠ some '/' := by
      intro hc
      obtain ⟨r, hr⟩ := List.head?_eq_some_iff.mp hc
      exact hslash ⟨r, hr⟩
    rw [readLength?_letters text hhead] at hs
    have hne : s ≠ [] := by
      rintro rfl
      cases (Prod.mk.inj (Except.ok.inj hs)).1
    rw [readLength?_letters text' (by rwa [List.head?_append_of_ne_nil s hne]),
      readLengthLetters_append h (Except.ok.inj hs) (by simp)]

theorem readLength?_none {text rest : Text} (h : Stop rest) :
    (readLength? text rest : Except Error (Option R × Text)) = .ok (none, rest) := by
  have hhead : rest.head? ≠ some '/' := fun hc => absurd (h '/' hc) (by decide)
  rw [readLength?_letters text hhead, readLengthLetters_stop h]

end Length

namespace Note

variable {R : Type}

def upperVelocities (n : Note R) : Text :=
  (if n.attack = usualVelocity then [] else 'A' :: Text.ofNat n.attack)
    ++ if n.decay = usualVelocity then [] else 'D' :: Text.ofNat n.decay

theorem upper_velocityText (n : Note R) : Text.upper n.velocityText = n.upperVelocities := by
  have hsign : ∀ c ∈ ['a', 'd'], Text.upper [c] = [c.toUpper] := by decide
  have hpart : ∀ c ∈ ['a', 'd'], ∀ v, Text.upper (c :: Text.ofNat v) = c.toUpper :: Text.ofNat v := by
    intro c hc v
    rw [← List.singleton_append, Text.upper_append, hsign c hc, Text.upper_ofNat]
    rfl
  rw [velocityText, upperVelocities, Text.upper_append]
  congr 1
  · split
    · rfl
    · exact hpart 'a' (by decide) _
  · split
    · rfl
    · exact hpart 'd' (by decide) _

theorem velocityText_eq_nil {n : Note R} (h : n.upperVelocities = []) : n.velocityText = [] := by
  have husual : n.attack = usualVelocity ∧ n.decay = usualVelocity := by
    rw [upperVelocities, List.append_eq_nil_iff] at h
    refine ⟨?_, ?_⟩
    · by_contra hne
      rw [if_neg hne] at h
      exact List.cons_ne_nil _ _ h.1
    · by_contra hne
      rw [if_neg hne] at h
      exact List.cons_ne_nil _ _ h.2
  rw [velocityText, if_pos husual.1, if_pos husual.2]
  rfl

/-- An attack and a decay in a notation, where they are written. -/
def velocityMarks (attack decay : Option Nat) : Text :=
  attack.elim [] (fun v => 'A' :: Text.ofNat v) ++ decay.elim [] fun v => 'D' :: Text.ofNat v

theorem upperVelocities_eq (n : Note R) : n.upperVelocities =
    velocityMarks (if n.attack = usualVelocity then none else some n.attack)
      (if n.decay = usualVelocity then none else some n.decay) := by
  unfold upperVelocities
  split <;> split <;> rfl

theorem head_marks (attack decay : Option Nat) {rest : Text} (h : Seam rest) :
    ∀ c ∈ (velocityMarks attack decay ++ rest).head?, c ∈ ['A', 'D', '+', '_'] := by
  intro c hc
  cases attack with
  | some v =>
    obtain rfl := Option.some.inj hc
    decide
  | none =>
    cases decay with
    | some v =>
      obtain rfl := Option.some.inj hc
      decide
    | none => rcases h c hc with rfl | rfl <;> decide

theorem stop_marks (attack decay : Option Nat) {rest : Text} (h : Seam rest) :
    Stop (velocityMarks attack decay ++ rest) := fun c hc =>
  List.mem_cons_of_mem _ (head_marks attack decay h c hc)

theorem head?_marks (attack decay : Option Nat) {rest : Text} (h : Seam rest) :
    (velocityMarks attack decay ++ rest).head? ≠ some '-' := fun hc =>
  absurd (head_marks attack decay h '-' hc) (by decide)

theorem stop_velocities (n : Note R) {rest : Text} (h : Seam rest) :
    Stop (n.upperVelocities ++ rest) :=
  n.upperVelocities_eq ▸ stop_marks _ _ h

theorem head?_velocities (n : Note R) {rest : Text} (h : Seam rest) :
    (n.upperVelocities ++ rest).head? ≠ some '-' :=
  n.upperVelocities_eq ▸ head?_marks _ _ h

theorem readVelocities_seam (text : Text) (fuel : Nat) (note : Note R) {rest : Text} (h : Seam rest) :
    readVelocities text fuel note rest = .ok (note, rest) := by
  unfold readVelocities
  split
  · rename_i c d r
    have hc : c ≠ 'A' ∧ c ≠ 'D' := by
      rcases h c rfl with rfl | rfl <;> decide
    rw [if_neg fun hv => hv.1.elim hc.1 hc.2]
  · rfl

theorem readVelocities_step {sign : Char} (hsign : sign = 'A' ∨ sign = 'D') (text : Text)
    (fuel : Nat) (note : Note R) {v : Nat} (hv : v ≤ maxData) {rest : Text}
    (h : Numeral.Ends rest) :
    readVelocities text (fuel + 1) note (sign :: (Text.ofNat v ++ rest)) =
      readVelocities text fuel
        (if sign = 'A' then { note with attack := v } else { note with decay := v }) rest := by
  have hnumber : readNumber .badVelocity .velocity text (Text.ofNat v) = .ok v := by
    have hlimit : v ≤ maxNumber := hv.trans (by decide +kernel)
    rw [readNumber, Numeral.nat?_ofNat hlimit]
    exact (checkRange_eq_ok_iff _ _ _ _ _).mpr ⟨rfl, Nat.zero_le _, hv⟩
  cases hd : Text.ofNat v with
  | nil => exact absurd hd (Text.ofNat_ne_nil v)
  | cons d r =>
    have hdigit : d.isDigit := Text.isDigit_of_mem_ofNat (n := v) (by rw [hd]; exact List.mem_cons_self)
    have htake := Numeral.takeDigits_ofNat v h
    rw [hd, List.cons_append] at htake
    rw [hd] at hnumber
    simp only [List.cons_append, readVelocities, hsign, hdigit, and_self, if_true, htake, hnumber,
      bind, Except.bind]

/-- The velocities that are written are read, and others stay as they are. -/
theorem readVelocities_marks (text : Text) (note : Note R) {attack decay : Option Nat}
    (hattack : ∀ v ∈ attack, v ≤ maxData) (hdecay : ∀ v ∈ decay, v ≤ maxData) {rest : Text} (h : Seam rest)
    {fuel : Nat} (hfuel : (velocityMarks attack decay ++ rest).length ≤ fuel) :
    readVelocities text fuel note (velocityMarks attack decay ++ rest) =
      .ok ({ note with attack := attack.getD note.attack, decay := decay.getD note.decay }, rest) := by
  have hdecayed : ∀ (fuel : Nat) (note : Note R), (velocityMarks none decay ++ rest).length ≤ fuel →
      readVelocities text fuel note (velocityMarks none decay ++ rest) =
        .ok ({ note with decay := decay.getD note.decay }, rest) := by
    intro fuel note hfuel
    cases decay with
    | none => exact readVelocities_seam text fuel note h
    | some v =>
      obtain ⟨fuel, rfl⟩ : ∃ k, fuel = k + 1 := ⟨fuel - 1, by simp [velocityMarks] at hfuel; omega⟩
      have hmark : velocityMarks none (some v) ++ rest = 'D' :: (Text.ofNat v ++ rest) := rfl
      rw [hmark, readVelocities_step (.inr rfl) text fuel note (hdecay v rfl) h.stop.ends,
        if_neg (by decide), readVelocities_seam text fuel _ h]
      rfl
  cases attack with
  | none => exact hdecayed fuel note hfuel
  | some v =>
    have hmarks : velocityMarks (some v) decay ++ rest =
        'A' :: (Text.ofNat v ++ (velocityMarks none decay ++ rest)) := by
      simp [velocityMarks]
    rw [hmarks, List.length_cons, List.length_append] at hfuel
    obtain ⟨fuel, rfl⟩ : ∃ k, fuel = k + 1 := ⟨fuel - 1, by omega⟩
    rw [hmarks, readVelocities_step (.inl rfl) text fuel note (hattack v rfl) (stop_marks none decay h).ends,
      if_pos rfl]
    exact hdecayed fuel { note with attack := v } (by omega)

theorem readVelocities_written (text : Text) (note : Note R) {n : Note R} (hattack : n.attack ≤ maxData)
    (hdecay : n.decay ≤ maxData) {rest : Text} (h : Seam rest) {fuel : Nat}
    (hfuel : (n.upperVelocities ++ rest).length ≤ fuel) :
    readVelocities text fuel note (n.upperVelocities ++ rest) =
      .ok ({ note with
        attack := if n.attack = usualVelocity then note.attack else n.attack
        decay := if n.decay = usualVelocity then note.decay else n.decay }, rest) := by
  have hle : ∀ {v : Nat}, v ≤ maxData →
      ∀ w ∈ (if v = usualVelocity then none else some v : Option Nat), w ≤ maxData := by
    intro v hv w hw
    split at hw
    · cases hw
    · exact Option.some.inj hw ▸ hv
  have hget : ∀ v w : Nat, (if v = usualVelocity then none else some v : Option Nat).getD w =
      if v = usualVelocity then w else v := by
    intro v w
    split <;> rfl
  rw [upperVelocities_eq] at hfuel ⊢
  rw [readVelocities_marks text note (hle hattack) (hle hdecay) h hfuel, hget, hget]

theorem readVelocities_text (text : Text) (note : Note R) {n : Note R} (hattack : n.attack ≤ maxData)
    (hdecay : n.decay ≤ maxData) (ha : note.attack = usualVelocity) (hd : note.decay = usualVelocity)
    {rest : Text} (h : Seam rest) {fuel : Nat} (hfuel : (n.upperVelocities ++ rest).length ≤ fuel) :
    readVelocities text fuel note (n.upperVelocities ++ rest) =
      .ok ({ note with attack := n.attack, decay := n.decay }, rest) := by
  have hsame : ∀ v : Nat, (if v = usualVelocity then usualVelocity else v) = v := fun v => by
    split
    · exact Eq.symm ‹_›
    · rfl
  rw [readVelocities_written text note hattack hdecay h hfuel, ha, hd, hsame, hsame]

variable [Scalar R]

/-- A note with velocities, a length and ties that a notation can hold. -/
structure Regular (n : Note R) : Prop where
  attack_le : n.attack ≤ maxData
  decay_le : n.decay ≤ maxData
  legible : n.lengthWritten = true → Length.Legible n.length
  tied : n.startsTie = true → n.lengthWritten = true
  restless : n.isRest = true → n.startsTie = false ∧ n.endsTie = false

/-- A note as a regular one, but that its length may be read as another one. -/
structure Spelled (n : Note R) : Prop where
  attack_le : n.attack ≤ maxData
  decay_le : n.decay ≤ maxData
  readable : n.lengthWritten = true → Length.Readable n.length
  tied : n.startsTie = true → n.lengthWritten = true
  restless : n.isRest = true → n.startsTie = false ∧ n.endsTie = false

theorem Regular.spelled {n : Note R} (h : n.Regular) : n.Spelled :=
  ⟨h.attack_le, h.decay_le, fun hw => (h.legible hw).readable, h.tied, h.restless⟩

/-- A tone with the ties, the length and the velocities that are written for a note. -/
def dressed (m n : Note R) : Note R :=
  { m with
    length := if n.lengthWritten then Length.reread n.length else m.length
    lengthWritten := n.lengthWritten
    attack := n.attack
    decay := n.decay
    startsTie := n.startsTie
    endsTie := n.endsTie }

theorem upper_suffix (n : Note R) :
    Text.upper n.suffix =
      (if n.endsTie then ['-'] else []) ++
        ((if n.lengthWritten then Text.upper (Length.text n.length) else []) ++
          ((if n.startsTie then ['-'] else []) ++ n.upperVelocities)) := by
  have hdash : ∀ b : Bool, Text.upper (if b then ['-'] else []) = if b then ['-'] else [] := by
    decide
  have hlength : Text.upper (if n.lengthWritten then Length.text n.length else []) =
      if n.lengthWritten then Text.upper (Length.text n.length) else [] := by
    split <;> rfl
  simp only [suffix, Text.upper_append, hdash, hlength, upper_velocityText, List.append_assoc]

theorem readTie_of_head {isRest : Bool} {s : Text} (h : s.head? ≠ some '-') :
    readTie isRest s = (false, s) := by
  unfold readTie
  split
  · exact absurd rfl h
  · rfl

theorem readTie_dash {n : Note R} (hn : n.Spelled) {tie : Bool} (htie : tie = n.endsTie ∨ tie = n.startsTie)
    {s : Text} (h : s.head? ≠ some '-') :
    readTie n.isRest ((if tie then ['-'] else []) ++ s) = (tie, s) := by
  cases tie with
  | false => exact readTie_of_head h
  | true =>
    have hrest : n.isRest = false := by
      rw [Bool.eq_false_iff]
      intro hr
      obtain ⟨hstarts, hends⟩ := hn.restless hr
      rcases htie with h | h
      · rw [hends] at h
        cases h
      · rw [hstarts] at h
        cases h
    simp [readTie, hrest]

theorem readTiesAndLength_text (text : Text) {m n : Note R} (hn : n.Spelled)
    (hrest : m.isRest = n.isRest) (hl : m.lengthWritten = false) (hs : m.startsTie = false)
    {rest : Text} (h : Seam rest) :
    readTiesAndLength text m (Text.upper n.suffix ++ rest) =
      .ok ({ m.dressed n with attack := m.attack, decay := m.decay }, n.upperVelocities ++ rest) := by
  have hvelocities := head?_velocities n h
  rw [upper_suffix]
  simp only [List.append_assoc]
  cases hw : n.lengthWritten with
  | true =>
    have hread := (hn.readable hw).read
    have hstop : Stop ((if n.startsTie then ['-'] else []) ++ (n.upperVelocities ++ rest)) := by
      cases n.startsTie with
      | false => exact stop_velocities n h
      | true => exact fun c hc => Option.some.inj hc ▸ by decide
    have hhead : (Text.upper (Length.text n.length) ++
        ((if n.startsTie then ['-'] else []) ++ (n.upperVelocities ++ rest))).head? ≠ some '-' := by
      cases hu : Text.upper (Length.text n.length) with
      | nil =>
        rw [hu] at hread
        cases hread
      | cons c r =>
        rintro heq
        obtain rfl := Option.some.inj heq
        rw [hu] at hread
        cases hread
    simp only [readTiesAndLength, hrest, if_true, readTie_dash hn (.inl rfl) hhead, bind, Except.bind,
      Length.readLength?_append hstop hread]
    split
    · rename_i heq
      exact absurd heq (hstop.ne (by decide) _)
    · simp only [pure, Except.pure, readTie_dash hn (.inr rfl) hvelocities, withLength, dressed, hw,
        if_true, hrest]
  | false =>
    have hstarts : n.startsTie = false := by
      rw [Bool.eq_false_iff]
      intro ht
      rw [hn.tied ht] at hw
      cases hw
    simp only [readTiesAndLength, hrest, hstarts, Bool.false_eq_true, if_false, List.nil_append,
      readTie_dash hn (.inl rfl) hvelocities, bind, Except.bind,
      Length.readLength?_none (stop_velocities n h), pure, Except.pure, dressed, hw, hl, hs]

/-- What is written after a tone is read as it was, but for velocities that other settings take for usual. -/
theorem readSuffix_spelled (text : Text) {m n : Note R} (hn : n.Spelled) (hrest : m.isRest = n.isRest)
    (hl : m.lengthWritten = false) (hs : m.startsTie = false) {rest : Text} (h : Seam rest) :
    ∃ attack decay, readSuffix text m (Text.upper n.suffix ++ rest) =
      .ok ({ m.dressed n with attack := attack, decay := decay }, rest) := by
  refine ⟨if n.attack = usualVelocity then m.attack else n.attack,
    if n.decay = usualVelocity then m.decay else n.decay, ?_⟩
  simp only [readSuffix, readTiesAndLength_text text hn hrest hl hs h, bind, Except.bind]
  exact readVelocities_written text { m.dressed n with attack := m.attack, decay := m.decay } hn.attack_le
    hn.decay_le h (Nat.le_refl _)

/-- What is written after a tone is read as it was. -/
theorem readSuffix_suffix (text : Text) {m n : Note R} (hn : n.Regular) (hrest : m.isRest = n.isRest)
    (ha : m.attack = usualVelocity) (hd : m.decay = usualVelocity)
    (hl : m.lengthWritten = false) (hs : m.startsTie = false) {rest : Text} (h : Seam rest) :
    readSuffix text m (Text.upper n.suffix ++ rest) = .ok (m.dressed n, rest) := by
  simp only [readSuffix, readTiesAndLength_text text hn.spelled hrest hl hs h, bind, Except.bind]
  exact readVelocities_text text { m.dressed n with attack := m.attack, decay := m.decay } hn.attack_le hn.decay_le
    ha hd h (Nat.le_refl _)

end Note

end ScoreText
