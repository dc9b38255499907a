import ScoreText.Proofs.Notation.ChordNames

/-!
One note, rest or chord in a notation: what is written of it is read as a whole.
-/

set_option autoImplicit false

namespace ScoreText

open NoteContext

namespace Length

variable {R : Type} [Scalar R]

/-- A written length starts with a slash, or with a letter that only a count or a dot follows. -/
theorem upper_text (l : R) : ∃ c r, Text.upper (text l) = c :: r ∧
    (c = '/' ∨ c ∈ letters ∧ ∀ d ∈ r.head?, d.isDigit = true ∨ d = '.') := by
  have hslash : Text.upper ['/'] = ['/'] := by decide
  have hwhole : Text.upper ['w'] = ['W'] := by decide
  have hnames : (named (R := R)).map Prod.fst = letters.tail.flatMap fun c =>
      [[c.toLower, '.'], [c.toLower]] := rfl
  have hnamed : ∀ name ∈ letters.tail.flatMap (fun c => [[c.toLower, '.'], [c.toLower]]),
      ∃ c ∈ letters, Text.upper name = [c, '.'] ∨ Text.upper name = [c] := by
    decide
  rw [text]
  split
  · dsimp only
    split
    · exact ⟨'W', [], by rw [hwhole], .inr ⟨by decide, by simp⟩⟩
    · refine ⟨'W', Text.ofNat (Scalar.toNat l), ?_, .inr ⟨by decide, fun d hd => .inl ?_⟩⟩
      · rw [← List.singleton_append, Text.upper_append, hwhole, Text.upper_ofNat]
        rfl
      · exact Text.isDigit_of_mem_ofNat (List.mem_of_mem_head? hd)
  · split
    · rename_i name value hfind
      have hmem : name ∈ (named (R := R)).map Prod.fst :=
        List.mem_map.mpr ⟨_, List.mem_of_find?_eq_some hfind, rfl⟩
      rw [hnames] at hmem
      obtain ⟨c, hc, h | h⟩ := hnamed name hmem
      · exact ⟨c, ['.'], h, .inr ⟨hc, fun d hd => .inr (Option.some.inj hd).symm⟩⟩
      · exact ⟨c, [], h, .inr ⟨hc, by simp⟩⟩
    · refine ⟨'/', Text.upper (Scalar.text l), ?_, .inl rfl⟩
      rw [← List.singleton_append, Text.upper_append, hslash]
      rfl

end Length

/-- What may follow a tone or the name of a chord. -/
def followers : List Char := '-' :: '/' :: 'A' :: 'D' :: '+' :: '_' :: Length.letters

/-- A text that goes on after a tone without being taken for a part of its name, or for the name of
a chord. -/
def Follows (s : Text) : Prop :=
  ∀ c ∈ s.head?, c ∈ followers ∧ ∀ d ∈ s.tail.head?, [c, d] ∉ ChordTable.continuations

namespace Follows

theorem of_head {c : Char} {s : Text} (hc : c ∈ followers) (hodd : c ∉ ['A', 'D', 'S']) :
    Follows (c :: s) := by
  intro e he
  obtain rfl := Option.some.inj he
  refine ⟨hc, fun d _ hd => hodd ?_⟩
  simp only [ChordTable.continuations, List.mem_cons, List.cons.injEq, reduceCtorEq, and_false,
    List.not_mem_nil, or_false, false_or, and_true] at hd
  rcases hd with h | h | h | h | h <;> simp [h.1]

theorem calm {s : Text} (h : Follows s) : ChordTable.Calm s := by
  intro t ht hprefix
  obtain ⟨u, rfl⟩ := hprefix
  have hshape : ∀ t ∈ ChordTable.continuations, t ≠ [] ∧ t.length ≤ 2 ∧
      (t.head?.any (· ∈ followers) → t.tail ≠ []) := by
    decide
  obtain ⟨hnil, hlen, hne⟩ := hshape t ht
  cases t with
  | nil => exact hnil rfl
  | cons c r =>
    obtain ⟨hc, hsecond⟩ := h c rfl
    cases r with
    | nil => exact hne (by simpa using hc) rfl
    | cons d r =>
      obtain rfl : r = [] := List.eq_nil_of_length_eq_zero (by simpa using hlen)
      exact hsecond d rfl ht

theorem clear {s : Text} (h : Follows s) : Spelling.Clear s := by
  intro c hc
  have hall : ∀ c ∈ followers, ¬ c.isDigit = true ∧ c ≠ '#' ∧ c ≠ 'B' ∧ c ≠ 'N' := by decide
  exact hall c (h c hc).1

theorem seam {rest : Text} (h : Seam rest) : Follows rest := by
  cases hr : rest with
  | nil => simp [Follows]
  | cons c r =>
    have hc := h c (by rw [hr]; rfl)
    rcases hc with rfl | rfl
    · exact of_head (by decide) (by decide)
    · exact of_head (by decide) (by decide)

/-- Velocities are signs with digits; without any, what stands behind them has to follow. -/
theorem marks (attack decay : Option Nat) {rest : Text} (h : Note.velocityMarks attack decay = [] → Follows rest) :
    Follows (Note.velocityMarks attack decay ++ rest) := by
  have hsign : ∀ c ∈ ['A', 'D'], ∀ v r, Follows (c :: (Text.ofNat v ++ r)) := by
    intro c hc v r e he
    obtain rfl := Option.some.inj he
    refine ⟨?_, fun d hd hcont => ?_⟩
    · have hall : ∀ c ∈ ['A', 'D'], c ∈ followers := by decide
      exact hall c hc
    · have hdigit : d.isDigit := by
        cases hv : Text.ofNat v with
        | nil => exact absurd hv (Text.ofNat_ne_nil v)
        | cons x xs =>
          rw [hv] at hd
          obtain rfl := Option.some.inj hd
          exact Text.isDigit_of_mem_ofNat (n := v) (by rw [hv]; exact List.mem_cons_self)
      have hall : ∀ t ∈ ChordTable.continuations, ∀ d ∈ t.tail, ¬ d.isDigit = true := by decide
      exact hall _ hcont d (by simp) hdigit
  cases attack with
  | some v =>
    have hmarks : Note.velocityMarks (some v) decay ++ rest =
        'A' :: (Text.ofNat v ++ (Note.velocityMarks none decay ++ rest)) := by
      simp [Note.velocityMarks]
    exact hmarks ▸ hsign 'A' (by decide) v _
  | none =>
    cases decay with
    | some v => exact hsign 'D' (by decide) v rest
    | none => exact h rfl

/-- A letter of a length is not taken for the start of a chord name, unless `U` stands behind it. -/
theorem lengthLetter {c : Char} (hc : c ∈ Length.letters) {s : Text} (h : s.head? ≠ some 'U') : Follows (c :: s) := by
  intro e he
  obtain rfl := Option.some.inj he
  have hall : ∀ c ∈ Length.letters, c ∈ followers := by decide
  refine ⟨hall c hc, fun d hd hcont => ?_⟩
  have hsus : ∀ t ∈ ChordTable.continuations, t.head?.any (· ∈ Length.letters) → t.tail = [] ∨ t.tail = ['U'] := by
    decide
  rcases hsus _ hcont (by simpa using hc) with ht | ht
  · cases ht
  · exact h (hd.trans (congrArg some (List.cons.inj ht).1))

variable {R : Type} [Scalar R]

/-- What is written after a tone is not taken for a part of its name or the name of a chord, and neither is what stands
behind it. -/
theorem suffix_append (n : Note R) {rest : Text} (h : n.suffix = [] → Follows rest) (hu : rest.head? ≠ some 'U') :
    Follows (Text.upper n.suffix ++ rest) := by
  have hmarks : ∀ attack decay, (Note.velocityMarks attack decay ++ rest).head? ≠ some 'U' := by
    intro attack decay hc
    cases attack with
    | some v => exact absurd (Option.some.inj hc) (by decide)
    | none =>
      cases decay with
      | some v => exact absurd (Option.some.inj hc) (by decide)
      | none => exact hu hc
  rw [n.upper_suffix, n.upperVelocities_eq]
  simp only [List.append_assoc]
  cases he : n.endsTie with
  | true => exact of_head (by decide) (by decide)
  | false =>
    rw [if_neg Bool.false_ne_true, List.nil_append]
    cases hw : n.lengthWritten with
    | true =>
      obtain ⟨c, r, hlength, hcase⟩ := Length.upper_text n.length
      rw [if_pos rfl, hlength, List.cons_append]
      rcases hcase with rfl | ⟨hc, hr⟩
      · exact of_head (by decide) (by decide)
      · refine lengthLetter hc fun hd => ?_
        cases r with
        | nil =>
          cases hs : n.startsTie with
          | true =>
            rw [hs] at hd
            exact absurd (Option.some.inj hd) (by decide)
          | false =>
            rw [hs] at hd
            exact hmarks _ _ hd
        | cons x xs =>
          obtain rfl := Option.some.inj hd
          exact absurd (hr 'U' rfl) (by decide)
    | false =>
      rw [if_neg Bool.false_ne_true, List.nil_append]
      cases hs : n.startsTie with
      | true => exact of_head (by decide) (by decide)
      | false =>
        refine marks _ _ fun hnil => h ?_
        rw [Note.suffix, he, hw, hs, n.velocityText_eq_nil (n.upperVelocities_eq.trans hnil)]
        rfl

theorem suffix (n : Note R) {rest : Text} (h : Seam rest) : Follows (Text.upper n.suffix ++ rest) :=
  suffix_append n (fun _ => seam h) fun hc => absurd (h 'U' hc) (by decide)

end Follows

/-- A context with the standard settings and tables. -/
structure NoteContext.Usual {R : Type} [Scalar R] (ctx : NoteContext R) : Prop where
  settings : ctx.settings = .standard
  symbols : ctx.symbols = .standard
  chords : ctx.chords = .standard

/-- A root is the tone that is read, or that tone in another octave. -/
theorem NoteContext.chordRoot_same {R : Type} {ctx : NoteContext R} {m root : Note R} (h : ctx.chordRoot m = .ok root) :
    root = { m with value := root.value } := by
  unfold chordRoot at h
  split at h
  · cases h
    rfl
  · obtain ⟨value, -, heq⟩ := ok_of_bind h
    cases heq
    rfl

/-- A tone on its own, without length, velocities and ties. -/
structure Note.Bare {R : Type} [Scalar R] (m : Note R) : Prop where
  length : m.length = ((0 : Nat) : R)
  attack : m.attack = usualVelocity
  decay : m.decay = usualVelocity
  lengthWritten : m.lengthWritten = false
  startsTie : m.startsTie = false
  endsTie : m.endsTie = false

namespace ToneForm

def isRest : ToneForm → Bool
  | .rest => true
  | _ => false

variable {R : Type} [Scalar R] {ctx : NoteContext R}

theorem read_bare {form : ToneForm} {m : Note R} (h : form.read ctx = .ok m) :
    m.Bare ∧ m.isRest = form.isRest := by
  cases form with
  | rest =>
    cases h
    exact ⟨⟨rfl, rfl, rfl, rfl, rfl, rfl⟩, rfl⟩
  | named name value hn =>
    cases h
    exact ⟨⟨rfl, rfl, rfl, rfl, rfl, rfl⟩, rfl⟩
  | spelled s =>
    rw [read_spelled] at h
    obtain ⟨value, -, rfl⟩ := ok_of_map h
    exact ⟨⟨rfl, rfl, rfl, rfl, rfl, rfl⟩, rfl⟩

end ToneForm

/-- What stands in a notation for a note, a rest or a chord; the last part is a note that has the
length, the velocities and the ties written. -/
inductive Form (R : Type) where
  | note (tone : ToneForm) (like : Note R)
  | chord (tone : ToneForm) (name : Text) (shape : Intervals) (carets : Nat) (like : Note R)

namespace Form

variable {R : Type} [Scalar R]

def text : Form R → Text
  | .note tone like => tone.text ++ Text.upper like.suffix
  | .chord tone name _ carets like =>
    tone.text ++ (name ++ (List.replicate carets '^' ++ Text.upper like.suffix))

/-- What a form is read as. -/
def read (ctx : NoteContext R) : Form R → Except Error (Element R)
  | .note tone like => (tone.read ctx).map fun m => .note (m.dressed like)
  | .chord tone name shape carets like => do
    let m ← tone.read ctx
    let root ← ctx.chordRoot m
    return .chord
      { root := root.dressed like, intervals := shape, inversion := carets, name := some name }

/-- A form that can stand in a notation. After carets velocities alone would be taken for a bass. -/
inductive Sound : Form R → Prop where
  | note {tone : ToneForm} {like : Note R} (regular : like.Regular)
    (rest : tone.isRest = like.isRest) : Sound (.note tone like)
  | chord {tone : ToneForm} {name : Text} {shape : Intervals} {carets : Nat} {like : Note R}
    (regular : like.Regular) (rest : tone.isRest = false) (root : like.isRest = false)
    (known : (name, shape) ∈ ChordTable.standard.entries)
    (closed : carets = 0 ∨ like.endsTie = true ∨ like.lengthWritten = true ∨
      like.velocityText = []) :
    Sound (.chord tone name shape carets like)

theorem readInversion_carets (ctx : NoteContext R) (text : Text) (carets count : Nat) {s : Text}
    (hs : s.head? ≠ some '^') (hletter : carets = 0 ∨ s.head?.bind Tone.ofLetter? = none) :
    ctx.readInversion text count (List.replicate carets '^' ++ s) = .ok (.count (count + carets), s) := by
  induction carets generalizing count with
  | zero =>
    simp only [List.replicate_zero, List.nil_append]
    unfold readInversion
    split
    · exact absurd rfl hs
    · rfl
  | succ carets ih =>
    have hnext : (List.replicate carets '^' ++ s).head?.bind Tone.ofLetter? = none := by
      cases carets with
      | zero => exact hletter.resolve_left (by omega)
      | succ carets => rfl
    rw [List.replicate_succ, List.cons_append, readInversion, hnext]
    dsimp only
    rw [ih (count + 1) (hletter.imp_left (by omega))]
    congr 3
    omega

/-- After a length, a tie or nothing, no caret can be taken for the start of a bass. -/
theorem head_not_letter {like : Note R} (hn : like.Regular)
    (closed : like.endsTie = true ∨ like.lengthWritten = true ∨ like.velocityText = []) {rest : Text}
    (h : Seam rest) : (Text.upper like.suffix ++ rest).head?.bind Tone.ofLetter? = none := by
  have hseam : rest.head?.bind Tone.ofLetter? = none := by
    cases hr : rest with
    | nil => rfl
    | cons c r =>
      rcases h c (by rw [hr]; rfl) with rfl | rfl <;> rfl
  rw [Note.upper_suffix]
  simp only [List.append_assoc]
  cases he : like.endsTie with
  | true => rfl
  | false =>
    rw [if_neg Bool.false_ne_true, List.nil_append]
    cases hw : like.lengthWritten with
    | true =>
      obtain ⟨c, r, hu, hcase⟩ := Length.upper_text like.length
      have hall : ∀ c ∈ '/' :: Length.letters, Tone.ofLetter? c = none := by decide
      rw [if_pos rfl, hu, List.cons_append, List.head?_cons, Option.bind_some]
      exact hall c (List.mem_cons.mpr (hcase.imp_right And.left))
    | false =>
      have hstarts : like.startsTie = false := by
        rw [Bool.eq_false_iff]
        intro ht
        rw [hn.tied ht] at hw
        cases hw
      have hv : like.upperVelocities = [] := by
        have : like.velocityText = [] := by simpa [he, hw] using closed
        rw [← Note.upper_velocityText, this]
        rfl
      rw [hstarts, hv]
      exact hseam

theorem calm_carets {carets : Nat} {s : Text} (h : ChordTable.Calm s) :
    ChordTable.Calm (List.replicate carets '^' ++ s) := by
  cases carets with
  | zero => exact h
  | succ carets =>
    intro t ht hprefix
    have hall : ∀ t ∈ ChordTable.continuations, t ≠ [] ∧ t.head? ≠ some '^' := by decide
    obtain ⟨hne, hhead⟩ := hall t ht
    cases t with
    | nil => exact hne rfl
    | cons c r =>
      rw [List.replicate_succ, List.cons_append, List.cons_prefix_cons] at hprefix
      exact hhead (congrArg some hprefix.1)

theorem clear_name {name : Text} {shape : Intervals}
    (known : (name, shape) ∈ ChordTable.standard.entries) (s : Text) : Spelling.Clear (name ++ s) := by
  obtain ⟨-, ⟨c, r, hname, hc⟩, -⟩ := ChordTable.starts_of_mem known
  dsimp only at hname
  intro d hd
  rw [hname] at hd
  obtain rfl := Option.some.inj hd
  have hall : ∀ c ∈ ['M', 'A', 'D', 'S'], ¬ c.isDigit = true ∧ c ≠ '#' ∧ c ≠ 'B' ∧ c ≠ 'N' := by
    decide
  exact hall c hc

theorem usual_velocities {ctx : NoteContext R} (hctx : ctx.Usual) {m : Note R} (hm : m.Bare) :
    { m with attack := ctx.settings.attack, decay := ctx.settings.decay } = m := by
  obtain ⟨value, length, attack, decay⟩ := m
  obtain ⟨-, rfl, rfl, -, -, -⟩ := hm
  rw [hctx.settings]
  rfl

theorem chordRoot_bare {ctx : NoteContext R} {m root : Note R} (hm : m.Bare)
    (h : ctx.chordRoot m = .ok root) : root.Bare ∧ root.isRest = m.isRest := by
  rw [chordRoot_same h]
  exact ⟨⟨hm.length, hm.attack, hm.decay, hm.lengthWritten, hm.startsTie, hm.endsTie⟩, rfl⟩

/-- A form that can stand in a notation is read as a whole. -/
theorem readElement_text {ctx : NoteContext R} (hctx : ctx.Usual) (text : Text) {form : Form R}
    (hf : form.Sound) {rest : Text} (h : Seam rest) :
    ctx.readElement text (form.text ++ rest) = (form.read ctx).map fun e => (e, rest) := by
  cases hf with
  | @note tone like hn hrest =>
    have hfollows := Follows.suffix like h
    have htext : (Form.note tone like).text ++ rest = tone.text ++ (Text.upper like.suffix ++ rest) :=
      List.append_assoc _ _ _
    rw [htext, readElement, ToneForm.readTone_text hctx.symbols text tone hfollows.clear, Form.read]
    cases htone : (tone.read ctx : Except Error (Note R)) with
    | error e => rfl
    | ok m =>
      obtain ⟨hbare, hm⟩ := ToneForm.read_bare htone
      have hnone : ctx.matchChord? m (Text.upper like.suffix ++ rest) = none := by
        rw [matchChord?, hctx.chords, ChordTable.matchStart?_none hfollows.calm]
        split <;> rfl
      simp only [Except.map, bind, Except.bind, usual_velocities hctx hbare, hnone,
        Note.readSuffix_suffix text hn (hm.trans hrest) hbare.attack hbare.decay hbare.lengthWritten
          hbare.startsTie h, pure, Except.pure]
  | @chord tone name shape carets like hn hrest hroot hknown hclosed =>
    have hfollows := Follows.suffix like h
    have htext : (Form.chord tone name shape carets like).text ++ rest = tone.text ++ (name ++
        (List.replicate carets '^' ++ (Text.upper like.suffix ++ rest))) := by
      simp [Form.text]
    rw [htext, readElement, ToneForm.readTone_text hctx.symbols text tone (clear_name hknown _), Form.read]
    cases htone : (tone.read ctx : Except Error (Note R)) with
    | error e => rfl
    | ok m =>
      obtain ⟨hbare, hm⟩ := ToneForm.read_bare htone
      have hsome : ctx.matchChord? m (name ++ (List.replicate carets '^' ++ (Text.upper like.suffix ++ rest))) =
          some (name, shape) := by
        rw [matchChord?, hm, hrest, hctx.chords,
          ChordTable.matchStart?_append hknown (calm_carets hfollows.calm)]
        rfl
      have hinversion : ctx.readInversion text 0 (List.replicate carets '^' ++ (Text.upper like.suffix ++ rest)) =
          .ok (.count carets, Text.upper like.suffix ++ rest) := by
        have := readInversion_carets ctx text carets 0 (s := Text.upper like.suffix ++ rest) (fun hc => ?_)
          (hclosed.imp_right fun hc => head_not_letter hn hc h)
        · rwa [Nat.zero_add] at this
        · exact absurd (hfollows '^' hc).1 (by decide)
      simp only [Except.map, bind, Except.bind, usual_velocities hctx hbare, hsome, List.drop_left,
        hinversion]
      cases hr : ctx.chordRoot m with
      | error e => rfl
      | ok root =>
        obtain ⟨hbare, hm⟩ : root.Bare ∧ root.isRest = m.isRest := chordRoot_bare hbare hr
        have hplain : root.isRest = like.isRest := by
          rw [hm, ‹m.isRest = tone.isRest›, hrest, hroot]
        simp only [Note.readSuffix_suffix text hn hplain hbare.attack hbare.decay hbare.lengthWritten
          hbare.startsTie h, pure, Except.pure, Chord.withInversion]

end Form

end ScoreText
