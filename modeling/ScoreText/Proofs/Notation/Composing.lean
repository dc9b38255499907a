import ScoreText.Proofs.Expansion.Ungrouped
import ScoreText.Proofs.Notation.Claiming
import ScoreText.Proofs.Notation.Ranges

/-!
Two texts in one. A parser reads them as it reads one after the other, but for chords that are broken
up: these are written out before anything is read, in the key that is in force at the very start.
-/

set_option autoImplicit false

namespace ScoreText

open Text Stage

namespace Outcome

variable {R : Type}

theorem andThen_assoc (o : Outcome R) (f g : Memory → Outcome R) :
    (o.andThen f).andThen g = o.andThen fun memory => (f memory).andThen g := by
  obtain ⟨events, memory, result⟩ := o
  cases result with
  | error e => rfl
  | ok u =>
    simp only [andThen]
    generalize f memory = middle
    obtain ⟨more, memory, result⟩ := middle
    cases result with
    | error e => rfl
    | ok v => simp only [List.append_assoc]

/-- What went well did so in both parts. -/
theorem ok_of_andThen {o : Outcome R} {next : Memory → Outcome R}
    (h : (o.andThen next).result = .ok ()) :
    o.result = .ok () ∧ (next o.memory).result = .ok () := by
  obtain ⟨events, memory, result⟩ := o
  cases result with
  | error e => cases h
  | ok u => exact ⟨rfl, h⟩

/-- What follows a reading that went well may be anything that does the same. -/
theorem andThen_congr {o : Outcome R} {f g : Memory → Outcome R} (h : f o.memory = g o.memory) :
    o.andThen f = o.andThen g := by
  unfold andThen
  split
  · rfl
  · rw [h]

theorem symbols_andThen {o : Outcome R} {next : Memory → Outcome R} {symbols : Symbols}
    (ho : o.memory.symbols = symbols)
    (hnext : ∀ memory : Memory, memory.symbols = symbols → (next memory).memory.symbols = symbols) :
    (o.andThen next).memory.symbols = symbols := by
  unfold andThen
  split
  · exact ho
  · exact hnext o.memory ho

/-- After a reading that went well, another adds what it is expected to just when it is the expected
one; the position at which it starts makes no difference then. -/
theorem andThen_eq_iff {o expected : Outcome R} (read : Nat → Memory → Outcome R) (position : Nat)
    (ho : o.result = .ok ()) (hexpected : expected.result = .ok ())
    (hread : ∀ position other, (read position o.memory).result = .ok () →
      read other o.memory = read position o.memory) :
    o.andThen (read position) = ⟨o.events ++ expected.events, expected.memory, .ok ()⟩ ↔
      read 0 o.memory = expected := by
  have hthen : o.andThen (read position) =
      { read position o.memory with events := o.events ++ (read position o.memory).events } := by
    unfold andThen
    rw [ho]
  have hsame : o.andThen (read position) = ⟨o.events ++ expected.events, expected.memory, .ok ()⟩ ↔
      read position o.memory = expected := by
    rw [hthen]
    generalize read position o.memory = got
    obtain ⟨es, m, r⟩ := got
    obtain ⟨es', m', r'⟩ := expected
    cases hexpected
    simp
  rw [hsame]
  constructor
  · intro h
    rw [hread position 0 (h ▸ hexpected), h]
  · intro h
    rw [hread 0 position (h ▸ hexpected), h]

/-- What stands around the events does not matter when outcomes are compared. -/
theorem surrounded_eq_iff {o : Outcome R} {events : List (Event R)} {memory : Memory}
    {result : Except Error Unit} :
    ({ o with events := .parsingStarts :: o.events ++ [.parsingEnds] } : Outcome R) =
        ⟨.parsingStarts :: events ++ [.parsingEnds], memory, result⟩ ↔
      o = ⟨events, memory, result⟩ := by
  obtain ⟨es, m, r⟩ := o
  simp

end Outcome

variable {R : Type}

namespace Parser

theorem unclaimed_position (dialect : Dialect R) {position : Nat} {memory : Memory} {s : Text}
    (h : (unclaimed dialect position memory s).result = .ok ()) (other : Nat) :
    unclaimed dialect other memory s = unclaimed dialect position memory s := by
  unfold unclaimed at h ⊢
  by_cases hstrict : dialect.settings.strict = true
  · rw [if_pos hstrict] at h
    cases h
  · rw [if_neg hstrict, if_neg hstrict]

end Parser

variable [Scalar R]

/-- No fragment changes the symbols. -/
theorem Family.symbols_read (ctx : Context R) (fragment : Text) (family : Family) :
    (family.read ctx fragment).memory.symbols = ctx.memory.symbols := by
  have hsettled : ∀ result : Except Error (List (Event R) × Text),
      (settled ctx.memory result).memory.symbols = ctx.memory.symbols := by
    intro result
    cases result <;> rfl
  cases family with
  | atom => rfl
  | signature =>
    simp only [read]
    cases hread : (Fragment.readSignature ctx.memory fragment :
        Except Error (List (Event R) × Memory × Text)) with
    | error e => rfl
    | ok reading =>
      obtain ⟨events, memory, rest⟩ := reading
      rcases Event.signature_cases hread with ⟨-, meter, rfl⟩ | ⟨key, -, rfl⟩ <;> rfl
  | note | barLine | selection | tempo | beatTime | caption | call => exact hsettled _

namespace Parser

section Reading

variable (dialect : Dialect R)

omit [Scalar R] in
theorem carried_symbols : Carried fun memory (o : Outcome R) => o.memory.symbols = memory.symbols where
  idle _ _ := rfl
  andThen ho hnext := Outcome.symbols_andThen ho fun memory hm => (hnext memory).trans hm

theorem symbols_readFragments (position : Nat) (memory : Memory) (fragments : List Text) :
    (readFragments dialect position memory fragments).memory.symbols = memory.symbols :=
  carried_symbols.readFragments (fun memory t family _ => family.symbols_read ⟨dialect, memory⟩ t) position
    memory

/-- A position shows only where something is wrong. -/
theorem readFragment_position {fuel position : Nat} {memory : Memory} {s : Text}
    (h : (readFragment dialect fuel position memory s).result = .ok ()) (other : Nat) :
    readFragment dialect fuel other memory s = readFragment dialect fuel position memory s := by
  induction fuel generalizing position other memory s with
  | zero =>
    cases s with
    | nil => rfl
    | cons c r => exact unclaimed_position dialect h other
  | succ fuel ih =>
    cases s with
    | nil => rfl
    | cons c r =>
      rw [readFragment] at h
      · rw [readFragment, readFragment]
        split at h
        · exact unclaimed_position dialect h other
        · rename_i family _
          dsimp only at h ⊢
          split at h
          · cases h
          · refine Outcome.andThen_congr ?_
            have hrest := (Outcome.ok_of_andThen h).2
            dsimp only at hrest ⊢
            split at hrest
            · rename_i hshorter
              rw [if_pos hshorter, if_pos hshorter]
              exact ih hrest _
            · rename_i hsame
              rw [if_neg hsame, if_neg hsame]
              exact unclaimed_position dialect hrest other
        · exact List.cons_ne_nil c r
        · exact List.cons_ne_nil c r
      · exact List.cons_ne_nil c r

theorem readFragments_position {position : Nat} {memory : Memory} {fragments : List Text}
    (h : (readFragments dialect position memory fragments).result = .ok ()) (other : Nat) :
    readFragments dialect other memory fragments =
      readFragments dialect position memory fragments := by
  induction fragments generalizing position other memory with
  | nil => rfl
  | cons fragment rest ih =>
    obtain ⟨hfirst, hrest⟩ := Outcome.ok_of_andThen h
    rw [readFragments, readFragments, readFragment_position dialect hfirst]
    exact Outcome.andThen_congr (ih hrest _)

/-- Where the fragments after others begin. -/
def positionAfter (position : Nat) (fragments : List Text) : Nat :=
  fragments.foldl (fun position fragment => position + fragment.length + 1) position

theorem readFragments_append (position : Nat) (memory : Memory) (fs gs : List Text) :
    readFragments dialect position memory (fs ++ gs) =
      (readFragments dialect position memory fs).andThen fun memory =>
        readFragments dialect (positionAfter position fs) memory gs := by
  induction fs generalizing position memory with
  | nil => rfl
  | cons f rest ih =>
    rw [List.cons_append, readFragments, readFragments, Outcome.andThen_assoc]
    exact congrArg _ (funext fun memory => ih _ memory)

end Reading

/-- The parser as it is once it has read a text. -/
def after (p : Parser R) (text : Text) : Parser R := { p with memory := (p.parse text).memory }

/-- Reading two texts in one announces what reading one after the other announces, and leaves the
same to remember. -/
def Composes (p : Parser R) (a b : Text) : Prop :=
  p.parse (a ++ ' ' :: b) =
    ⟨.parsingStarts :: ((p.readText a).events ++ ((p.after a).readText b).events) ++ [.parsingEnds],
      ((p.after a).parse b).memory, .ok ()⟩

/-- No fragment of the text, once that is in upper case and without microtones, is a broken chord. -/
def Unbroken (text : Text) : Prop :=
  ∀ t, Microtone.apply (Casing.apply text) = .ok t →
    ∀ f ∈ Text.fields ' ' t, Ornaments.broken? f = none

variable {p : Parser R} {a b : Text}

theorem ok_of_readText {p : Parser R} {text : Text} (h : (p.readText text).result = .ok ()) :
    ∃ t, p.expand text = .ok t ∧
      p.readText text = readFragments p.dialect 0 p.memory (Text.fields ' ' t) := by
  unfold readText at h ⊢
  split at h
  · cases h
  · rename_i t ht
    exact ⟨t, ht, rfl⟩

theorem symbols_after (p : Parser R) (text : Text) :
    (p.after text).memory.symbols = p.memory.symbols := by
  have hread : (p.readText text).memory.symbols = p.memory.symbols := by
    unfold readText
    split
    · rfl
    · exact symbols_readFragments p.dialect 0 p.memory _
  exact hread

theorem mapM_congr {α β ε : Type} {f g : α → Except ε β} {l : List α} (h : ∀ a ∈ l, f a = g a) :
    l.mapM f = l.mapM g := by
  induction l with
  | nil => rfl
  | cons a rest ih =>
    rw [List.mapM_cons, List.mapM_cons, h a List.mem_cons_self,
      ih fun b hb => h b (List.mem_cons_of_mem a hb)]

/-- A text expands to the same in another memory, if the key is the same or no chord in it is broken
up. -/
theorem expand_remembering (hp : p.Partwise) (hb : Ungrouped b) {memory : Memory}
    (hsymbols : memory.symbols = p.memory.symbols)
    (h : memory.key = p.memory.key ∨ Unbroken b) :
    ({ p with memory := memory } : Parser R).expand b = p.expand b := by
  have hpartwise : ({ p with memory := memory } : Parser R).Partwise := ⟨hp.substitution, hp.stages⟩
  rw [expand_ungrouped hpartwise hb, expand_ungrouped hp hb]
  cases ht : Microtone.apply (Casing.apply b) with
  | error e => simp only [Except.bind]
  | ok t =>
    have hbroken : Ornaments.expandBrokenChords (Context.noteContext ⟨p.dialect, memory⟩) t =
        Ornaments.expandBrokenChords p.context.noteContext t := by
      rcases h with hkey | hunbroken
      · have hcontext : Context.noteContext ⟨p.dialect, memory⟩ = p.context.noteContext := by
          simp only [context, Context.noteContext, hkey, hsymbols]
        rw [hcontext]
      · have heach : ∀ f ∈ Text.fields ' ' t,
            Ornaments.expandBroken (Context.noteContext ⟨p.dialect, memory⟩) f =
              Ornaments.expandBroken p.context.noteContext f := by
          intro f hf
          rw [Ornaments.expandBroken, Ornaments.expandBroken, hunbroken t ht f hf]
        rw [Ornaments.expandBrokenChords, Ornaments.expandBrokenChords, mapM_congr heach]
    simp only [Except.bind]
    have hcontext : ({ p with memory := memory } : Parser R).context.noteContext =
        Context.noteContext ⟨p.dialect, memory⟩ := rfl
    rw [hcontext, hbroken]

theorem composes_iff (p : Parser R) (a b : Text) :
    p.Composes a b ↔ p.readText (a ++ ' ' :: b) =
      ⟨(p.readText a).events ++ ((p.after a).readText b).events, ((p.after a).readText b).memory,
        .ok ()⟩ :=
  Outcome.surrounded_eq_iff

/-- What the first of two texts comes to when both are read as one. -/
theorem readText_append (hp : p.Partwise) (ha : Ungrouped a) (hb : Ungrouped b)
    (hfirst : (p.readText a).result = .ok ()) {v : Text} (hv : p.expand b = .ok v) :
    ∃ position, p.readText (a ++ ' ' :: b) = (p.readText a).andThen fun memory =>
      readFragments p.dialect position memory (Text.fields ' ' v) := by
  obtain ⟨u, hu, hread⟩ := ok_of_readText hfirst
  have hexpand := (expand_append hp ha hb (u ++ ' ' :: v)).mpr ⟨u, v, hu, hv, rfl⟩
  refine ⟨positionAfter 0 (Text.fields ' ' u), ?_⟩
  rw [hread, readText, hexpand]
  simp only [fields_append_fields, readFragments_append]

/-- Two texts that are read well one after the other are read alike in one just when the second, with
its broken chords written out as they are before the first is read, is still read as it is after it.
That is so if the first leaves the key as it was, or the second has no broken chord. -/
theorem parse_append (hp : p.Partwise) (ha : Ungrouped a) (hb : Ungrouped b)
    (hfirst : (p.parse a).result = .ok ()) (hsecond : ((p.after a).parse b).result = .ok ()) :
    (p.Composes a b ↔ ∃ v, p.expand b = .ok v ∧
        readFragments p.dialect 0 (p.after a).memory (Text.fields ' ' v) = (p.after a).readText b) ∧
      ((p.after a).memory.key = p.memory.key ∨ Unbroken b → p.Composes a b) := by
  have hone := composes_iff p a b
  have hread : ∀ v, p.expand b = .ok v → (p.Composes a b ↔
      readFragments p.dialect 0 (p.after a).memory (Text.fields ' ' v) = (p.after a).readText b) := by
    intro v hv
    obtain ⟨position, hjoined⟩ := readText_append hp ha hb hfirst hv
    rw [hone, hjoined]
    exact Outcome.andThen_eq_iff
      (fun position memory => readFragments p.dialect position memory (Text.fields ' ' v)) position
      hfirst hsecond fun _ other h => readFragments_position p.dialect h other
  constructor
  · constructor
    · intro hcomposes
      obtain ⟨w, hw, -⟩ := ok_of_readText (congrArg Outcome.result (hone.mp hcomposes))
      obtain ⟨-, v, -, hv, -⟩ := (expand_append hp ha hb w).mp hw
      exact ⟨v, hv, (hread v hv).mp hcomposes⟩
    · rintro ⟨v, hv, hsame⟩
      exact (hread v hv).mpr hsame
  · intro h
    obtain ⟨v, hv, hreads⟩ := ok_of_readText hsecond
    have hexpand := expand_remembering hp hb (symbols_after p a) h
    exact (hread v (hexpand ▸ hv)).mpr hreads.symm

theorem partwise_standard : (standard : Parser R).Partwise := ⟨rfl, fun _ h => nomatch h⟩

/-- The values of the notes that a reading announces. -/
def valuesRead (o : Outcome Rat) : List Nat := (Event.notes o.events).map Note.value

/-- A chord that is broken up after a note comes out the same in one text, but after a key of one
sharp it does not: in one text it is written out before that key is read. -/
theorem brokenChord_without_sharp :
    let p := (standard : Parser Rat)
    p.Composes "C5Q".toList "FMAJW:0,1".toList ∧
      ¬ p.Composes "KEY:GMAJ".toList "FMAJW:0,1".toList ∧
      valuesRead (p.readText "KEY:GMAJ FMAJW:0,1".toList) = [53, 57] ∧
      valuesRead ((p.after "KEY:GMAJ".toList).readText "FMAJW:0,1".toList) = [54, 58] := by
  intro p
  have hnote := parse_append (a := "C5Q".toList) (b := "FMAJW:0,1".toList) (p := p)
    partwise_standard (by decide) (by decide) (by decide +kernel) (by decide +kernel)
  have hkey := parse_append (a := "KEY:GMAJ".toList) (b := "FMAJW:0,1".toList) (p := p)
    partwise_standard (by decide) (by decide) (by decide +kernel) (by decide +kernel)
  have hearly : p.expand "FMAJW:0,1".toList = .ok "[53]H [57]H".toList := by decide +kernel
  have hlate : valuesRead ((p.after "KEY:GMAJ".toList).readText "FMAJW:0,1".toList) = [54, 58] := by
    decide +kernel
  refine ⟨hnote.2 (.inl (by decide +kernel)), fun h => ?_, by decide +kernel, hlate⟩
  obtain ⟨v, hv, hread⟩ := hkey.1.mp h
  obtain rfl := Except.ok.inj (hearly.symm.trans hv)
  rw [← hread] at hlate
  exact absurd hlate (by decide +kernel)

end Parser

end ScoreText
