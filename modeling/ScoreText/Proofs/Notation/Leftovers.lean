import ScoreText.Proofs.Notation.Identifying
import ScoreText.Proofs.Notation.Progress

/-!
What stands behind a tone, a chord name and a bass. Each is read the same whatever stands behind it, and where a reader
of lengths and velocities stops has nothing to do with the note that it reads them for.
-/

set_option autoImplicit false

namespace ScoreText

open NoteContext

theorem ok_of_toOption {ε α : Type} {x : Except ε α} {a : α} (h : x.toOption = some a) : x = .ok a := by
  cases x with
  | error e => cases h
  | ok b => exact congrArg Except.ok (Option.some.inj h)

namespace NoteContext

section

variable {R : Type} [Scalar R]

theorem toOption_readLength? (text text' s : Text) :
    (readLength? text s : Except Error (Option R × Text)).toOption = (readLength? text' s).toOption := by
  unfold readLength?
  split
  · dsimp only
    split <;> rfl
  · rfl

theorem toOption_readTuplet (text text' s : Text) :
    (readTuplet text s : Except Error (R × Text)).toOption = (readTuplet text' s).toOption := by
  unfold readTuplet
  dsimp only
  split
  · rfl
  · split
    · split
      · rfl
      · split <;> rfl
    · rfl

theorem toOption_readNumber (fault : Fault) (quantity : Quantity) (text text' digits : Text) :
    (readNumber fault quantity text digits).toOption = (readNumber fault quantity text' digits).toOption := by
  unfold readNumber
  split <;> rfl

end

/-- Two readings stop at the same place or both fail, and the first of them reads onto this value. -/
def InStep {R : Type} (value : Nat) (x y : Except Error (Note R × Text)) : Prop :=
  x.toOption.map (fun p => (p.1.value, p.2)) = y.toOption.map fun p => (value, p.2)

namespace InStep

variable {R : Type} {α : Type} {value : Nat}

theorem ok {m n : Note R} (h : m.value = value) (rest : Text) : InStep value (.ok (m, rest)) (.ok (n, rest)) := by
  rw [InStep, ← h]
  rfl

theorem bind {x y : Except Error (Note R × Text)} (h : InStep value x y)
    {f g : Note R × Text → Except Error (Note R × Text)}
    (hfg : ∀ m n rest, m.value = value → InStep value (f (m, rest)) (g (n, rest))) :
    InStep value (x >>= f) (y >>= g) := by
  cases x with
  | error e =>
    cases y with
    | error e' => rfl
    | ok q => cases h
  | ok p =>
    cases y with
    | error e' => cases h
    | ok q =>
      obtain ⟨m, rest⟩ := p
      obtain ⟨n, rest'⟩ := q
      have hpair : (m.value, rest) = (value, rest') := Option.some.inj h
      obtain ⟨hm, rfl⟩ := Prod.mk.inj hpair
      exact hfg m n rest hm

/-- A step that both take, but for the text in their errors. -/
theorem bind_same {x y : Except Error α} (h : x.toOption = y.toOption) {f g : α → Except Error (Note R × Text)}
    (hfg : ∀ a, InStep value (f a) (g a)) : InStep value (x >>= f) (y >>= g) := by
  cases x with
  | error e =>
    cases y with
    | error e' => rfl
    | ok b => cases h
  | ok a =>
    cases y with
    | error e' => cases h
    | ok b =>
      obtain rfl : a = b := Option.some.inj h
      exact hfg a

end InStep

variable {R : Type} [Scalar R]

theorem inStep_readTiesAndLength (text text' : Text) {m n : Note R} (h : m.isRest = n.isRest) (s : Text) :
    InStep m.value (readTiesAndLength text m s) (readTiesAndLength text' n s) := by
  unfold readTiesAndLength
  dsimp only
  rw [h]
  refine InStep.bind_same (toOption_readLength? text text' _) fun p => ?_
  split
  · exact .ok rfl p.2
  · split
    · exact InStep.bind_same (toOption_readTuplet text text' _) fun ratio => .ok rfl _
    · exact .ok rfl _

theorem inStep_readVelocities {R : Type} (text text' : Text) (fuel : Nat) (m n : Note R) (s : Text) :
    InStep m.value (readVelocities text fuel m s) (readVelocities text' fuel n s) := by
  induction fuel generalizing m n s with
  | zero => exact .ok rfl s
  | succ fuel ih =>
    match s with
    | [] => exact .ok rfl _
    | [c] => exact .ok rfl _
    | c :: d :: r =>
      rw [readVelocities, readVelocities]
      split
      · refine InStep.bind_same (toOption_readNumber _ _ text text' _) fun value => ?_
        dsimp only
        split
        · exact ih { m with attack := value } _ _
        · exact ih { m with decay := value } _ _
      · exact .ok rfl _

/-- What stands behind a tone is read to the same place whatever the tone is, and leaves it as it is. -/
theorem inStep_readSuffix (text text' : Text) {m n : Note R} (h : m.isRest = n.isRest) (s : Text) :
    InStep m.value (readSuffix text m s) (readSuffix text' n s) := by
  refine (inStep_readTiesAndLength text text' h s).bind fun m' n' rest hm => ?_
  exact hm ▸ inStep_readVelocities text text' rest.length m' n' rest

/-- Where a reader of what stands behind a tone stops, if it can read that. -/
def leftover? (R : Type) [Scalar R] (s : Text) : Option Text :=
  (readSuffix [] (Note.ofValue 0 : Note R) s).toOption.map Prod.snd

theorem readSuffix_leftover (text : Text) {n : Note R} (h : n.isRest = false) (s : Text) :
    (readSuffix text n s).toOption.map (fun p => (p.1.value, p.2)) =
      (leftover? R s).map fun rest => (n.value, rest) := by
  have hstep := inStep_readSuffix text [] (m := n) (n := Note.ofValue 0) h s
  rw [InStep] at hstep
  rw [hstep, leftover?, Option.map_map]
  rfl

theorem suffix_of_leftover? {s rest : Text} (h : leftover? R s = some rest) : rest <:+ s := by
  obtain ⟨⟨n, left⟩, hread, rfl⟩ := Option.map_eq_some_iff.mp h
  exact (keeps_readSuffix [] (Note.ofValue 0) s).suffix n left (ok_of_toOption hread)

/-- The tone that a text starts with, if it does. -/
def toneOf? (ctx : NoteContext R) (h : Text) : Option (Note R) := (ctx.readTone [] h).toOption.map Prod.fst

/-- The start of a text that is read as the same tone, or not at all, whatever stands behind it. -/
def Head (ctx : NoteContext R) (h : Text) : Prop :=
  ∀ text rest, Spelling.Clear rest → (ctx.readTone text (h ++ rest)).toOption = (ctx.toneOf? h).map fun m => (m, rest)

theorem clear_nil : Spelling.Clear [] := by simp [Spelling.Clear]

theorem toneOf?_eq {ctx : NoteContext R} {h : Text} {tone : Option (Note R)}
    (hread : ∀ text rest, Spelling.Clear rest →
      (ctx.readTone text (h ++ rest)).toOption = tone.map fun m => (m, rest)) : ctx.toneOf? h = tone := by
  have hnil := hread [] [] clear_nil
  rw [List.append_nil] at hnil
  rw [toneOf?, hnil]
  cases tone <;> rfl

theorem head_of_read {ctx : NoteContext R} {h : Text} (tone : Option (Note R))
    (hread : ∀ text rest, Spelling.Clear rest →
      (ctx.readTone text (h ++ rest)).toOption = tone.map fun m => (m, rest))
    (hsounding : ∀ m ∈ tone, m.isRest = false) : ctx.Head h ∧ ∀ m ∈ ctx.toneOf? h, m.isRest = false := by
  rw [Head, toneOf?_eq hread]
  exact ⟨hread, hsounding⟩

/-- The value in brackets has nothing to do with the text that an error tells of. -/
theorem toOption_bracketedValue {R : Type} (ctx : NoteContext R) (text text' inner : Text) :
    (ctx.bracketedValue text inner).toOption = (ctx.bracketedValue text' inner).toOption := by
  unfold bracketedValue
  split
  · exact toOption_readNumber _ _ _ _ _
  · rfl

theorem head_form (ctx : NoteContext R) {form : ToneForm} (hform : form.isRest = false) :
    ctx.Head form.text ∧ ∀ m ∈ ctx.toneOf? form.text, m.isRest = false := by
  cases form with
  | rest => cases hform
  | spelled s =>
    refine head_of_read ((checkRange .note (s.tone ctx) 0 maxData).toOption.map s.note)
      (fun text rest h => ?_) fun m hm => ?_
    · rw [ToneForm.text, s.readTone_text ctx text h]
      cases checkRange .note (s.tone ctx) 0 maxData <;> rfl
    · obtain ⟨value, -, rfl⟩ := Option.map_eq_some_iff.mp hm
      rfl
  | named name value hn =>
    have hbracket : ']' ∉ name := fun h =>
      (Symbols.isSymbolChar_spec (Symbols.isSymbolChar_of_mem (Symbols.mem_percussion hn) ']' h)).2.2.1 rfl
    refine head_of_read ((ctx.bracketedValue [] name).toOption.map (bracketed name))
      (fun text rest _ => ?_) fun m hm => ?_
    · have htext : (ToneForm.named name value hn).text ++ rest = '[' :: (name ++ ']' :: rest) := by
        simp [ToneForm.text]
      rw [htext, readTone, ctx.readBracketed_append hbracket, ctx.toOption_bracketedValue [] text]
      cases ctx.bracketedValue text name <;> rfl
    · obtain ⟨value, -, rfl⟩ := Option.map_eq_some_iff.mp hm
      rfl

/-- The inversion that a caret and a bass behind it stand for, if all of the bass belongs to it. -/
def bassOf? (ctx : NoteContext R) (bass : Text) : Option (Inversion R) :=
  (ctx.readInversion [] 0 ('^' :: bass)).toOption.bind fun p => if p.2 = [] then some p.1 else none

/-- A bass behind a caret is read to its end whatever stands behind it if it is spelled, and left over if it is named in
brackets. -/
theorem readInversion_form (ctx : NoteContext R) {form : ToneForm} (hform : form.isRest = false) :
    (∀ text rest, Spelling.Clear rest → (ctx.readInversion text 0 ('^' :: (form.text ++ rest))).toOption =
      (ctx.bassOf? form.text).map fun i => (i, rest)) ∨
    ctx.bassOf? form.text = none ∧ ∃ r, form.text = '[' :: r ∧ ∀ text rest,
      ctx.readInversion text 0 ('^' :: (form.text ++ rest)) = .ok (.count 1, form.text ++ rest) := by
  cases form with
  | rest => cases hform
  | named name value hn => exact .inr ⟨rfl, name ++ [']'], rfl, fun text rest => rfl⟩
  | spelled s =>
    have hread : ∀ text rest, Spelling.Clear rest → (ctx.readInversion text 0 ('^' :: (s.text ++ rest))).toOption =
        ((checkRange .note (s.tone ctx) 0 maxData).toOption.map fun v => .bass (s.note v)).map fun i => (i, rest) := by
      intro text rest h
      have hletter : (s.text ++ rest).head?.bind Tone.ofLetter? = some s.position := s.isLetter
      rw [readInversion, hletter]
      simp only [s.readLetter_text ctx text h]
      cases checkRange .note (s.tone ctx) 0 maxData <;> rfl
    have hbass : ctx.bassOf? s.text =
        (checkRange .note (s.tone ctx) 0 maxData).toOption.map fun v => .bass (s.note v) := by
      have hnil := hread [] [] clear_nil
      rw [List.append_nil] at hnil
      rw [bassOf?, hnil]
      cases checkRange .note (s.tone ctx) 0 maxData <;> rfl
    refine .inl fun text rest h => ?_
    rw [ToneForm.text, hbass]
    exact hread text rest h

end NoteContext

/-- Names that are found behind a tone, before nothing or a bass, where nothing else can be taken for one. -/
structure ChordTable.Apart (table : ChordTable) : Prop where
  upper : ∀ e ∈ table.entries, Text.upper e.1 = e.1
  starts : ∀ e ∈ table.entries, ∃ c r, e.1 = c :: r ∧ ¬ c.isDigit = true ∧ c ∉ ['#', 'B', 'N', 'U']
  found : ∀ e ∈ table.entries, ∀ after : Text, (∀ c ∈ after.head?, c = '^') → table.matchStart? (e.1 ++ after) = some e
  calm : ∀ s, Follows s → table.matchStart? s = none

namespace ChordTable

theorem Apart.clear {table : ChordTable} (h : table.Apart) {e : Text × Intervals} (he : e ∈ table.entries) (s : Text) :
    Spelling.Clear (e.1 ++ s) := by
  obtain ⟨c, r, hname, hdigit, hsign⟩ := h.starts e he
  rw [hname]
  intro d hd
  obtain rfl := Option.some.inj hd
  simp only [List.mem_cons, List.not_mem_nil, or_false, not_or] at hsign
  exact ⟨hdigit, hsign.1, hsign.2.1, hsign.2.2.1⟩

theorem standard_apart : standard.Apart where
  upper _ he := upper_of_raised fun c hc => (raised_of_mem he c hc).1
  starts e he := by
    obtain ⟨-, ⟨c, r, hname, hc⟩, -⟩ := starts_of_mem he
    have hall : ∀ c ∈ ['M', 'A', 'D', 'S'], ¬ c.isDigit = true ∧ c ∉ ['#', 'B', 'N', 'U'] := by decide
    exact ⟨c, r, hname, hall c hc⟩
  found e he after hafter := by
    have hcaret : ∀ t ∈ continuations, t.head? ≠ some '^' := by decide
    exact matchStart?_append he (calm_of_head fun c hc => hafter c hc ▸ hcaret)
  calm s hs := matchStart?_none hs.calm

end ChordTable

namespace NoteContext

variable {R : Type} [Scalar R] {ctx : NoteContext R}

theorem toOption_readElement_of_none {text s : Text} (h : (ctx.readTone text s).toOption = none) :
    (ctx.readElement text s).toOption = none := by
  rw [readElement]
  cases hread : ctx.readTone text s with
  | error e => rfl
  | ok p =>
    rw [hread] at h
    cases h

/-- The root of a chord that starts with a tone, if it has one. -/
def rootOf? (ctx : NoteContext R) (h : Text) : Option (Note R) :=
  (ctx.toneOf? h).bind fun m =>
    (ctx.chordRoot { m with attack := ctx.settings.attack, decay := ctx.settings.decay }).toOption

theorem isRest_of_rootOf? {h : Text} (hsounding : ∀ m ∈ ctx.toneOf? h, m.isRest = false) :
    ∀ root ∈ ctx.rootOf? h, root.isRest = false := by
  intro root hroot
  obtain ⟨m, htone, hm⟩ := Option.bind_eq_some_iff.mp hroot
  rw [chordRoot_same (ok_of_toOption hm)]
  exact hsounding m htone

/-- A chord name behind a tone is found, and what stands behind it decides on the inversion. -/
theorem toOption_readElement {h : Text} (hhead : ctx.Head h) (hsounding : ∀ m ∈ ctx.toneOf? h, m.isRest = false)
    (htable : ctx.chords.Apart) {name : Text} {shape : Intervals} (known : (name, shape) ∈ ctx.chords.entries)
    {after : Text} (hafter : ∀ c ∈ after.head?, c = '^') (text : Text) :
    (ctx.readElement text (h ++ (name ++ after))).toOption = (ctx.rootOf? h).bind fun root =>
      (ctx.readInversion text 0 after).toOption.bind fun p => (readSuffix text root p.2).toOption.map fun q =>
        (.chord (p.1.apply { root := q.1, intervals := shape, name := some name }), q.2) := by
  have htone := hhead text (name ++ after) (htable.clear known after)
  rw [rootOf?]
  cases htoneOf : ctx.toneOf? h with
  | none =>
    rw [htoneOf] at htone
    exact toOption_readElement_of_none htone
  | some m =>
    have hname : ctx.matchChord? { m with attack := ctx.settings.attack, decay := ctx.settings.decay } (name ++ after) =
        some (name, shape) := by
      rw [matchChord?, hsounding m htoneOf, htable.found _ known after hafter]
      rfl
    rw [htoneOf] at htone
    rw [readElement, ok_of_toOption htone]
    simp only [bind, Except.bind, hname, List.drop_left, Option.bind_some]
    cases ctx.chordRoot { m with attack := ctx.settings.attack, decay := ctx.settings.decay } with
    | error e => rfl
    | ok root =>
      simp only [Except.toOption, Option.bind_some]
      cases ctx.readInversion text 0 after with
      | error e => rfl
      | ok p =>
        simp only [Option.bind_some]
        cases readSuffix text root p.2 with
        | error e => rfl
        | ok q => cases p.1 <;> rfl

end NoteContext

end ScoreText
