import ScoreText.Proofs.Notation.Stacking
import ScoreText.Proofs.Notation.Written

/-!
Naming the chord that notes form. The name is written with its root and its bass and read back, and what is read has
the pitch classes of the notes and their lowest in the bass.
-/

set_option autoImplicit false

namespace ScoreText

open NoteContext

namespace ChordTable

variable {table : ChordTable} {shape : Intervals}

theorem nameOf?_eq_some {name : Text} (h : table.nameOf? shape = some name) : (name, shape) ∈ table.entries := by
  obtain ⟨⟨name', shape'⟩, hfind, rfl⟩ := Option.map_eq_some_iff.mp h
  obtain rfl : shape' = shape := by simpa using List.find?_some hfind
  exact List.mem_of_find?_eq_some hfind

theorem isSome_nameOf? : (table.nameOf? shape).isSome ↔ ∃ name, (name, shape) ∈ table.entries := by
  refine ⟨fun h => ?_, fun ⟨name, hname⟩ => ?_⟩
  · obtain ⟨name, hname⟩ := Option.isSome_iff_exists.mp h
    exact ⟨name, nameOf?_eq_some hname⟩
  · rw [nameOf?, Option.isSome_map, List.find?_isSome]
    exact ⟨_, hname, beq_self_eq_true _⟩

end ChordTable

/-- A spelled distance is read as that distance. -/
theorem Intervals.steps_spell {gaps : List Nat} (h : ∀ gap ∈ gaps, gap < octaveSize) :
    (⟨gaps.map spell⟩ : Intervals).steps = gaps.map fun gap : Nat => (gap : Int) := by
  have hall : ∀ gap < octaveSize, (degreeSteps? (spell gap)).getD 0 = gap := by decide
  rw [steps, List.map_map]
  exact List.map_congr_left fun gap hgap => hall gap (h gap hgap)

theorem Chord.degreeWithClass?_congr {R : Type} {c d : Chord R} (hroot : c.root.value = d.root.value)
    (hintervals : c.intervals = d.intervals) (value : Nat) : c.degreeWithClass? value = d.degreeWithClass? value := by
  rw [degreeWithClass?, degreeWithClass?, hroot, hintervals]

/-- A tone of a chord is found at the degree with its pitch class. -/
theorem Chord.degreeWithClass?_spec {R : Type} {c : Chord R} {value : Nat}
    (h : ∃ s ∈ c.intervals.steps, ((c.root.value : Int) + s) % octaveSize = (value : Int) % octaveSize) :
    ∃ i s, c.degreeWithClass? value = some i ∧ c.intervals.steps[i]? = some s ∧
      ((c.root.value : Int) + s) % octaveSize = (value : Int) % octaveSize := by
  obtain ⟨s, hs, hclass⟩ := h
  obtain ⟨i, hi⟩ := List.mem_iff_getElem?.mp hs
  obtain ⟨⟨t, k⟩, hlast⟩ : ∃ found, (c.intervals.steps.zipIdx.filter fun entry =>
      (value : Int) % octaveSize == (c.root.value + entry.1) % octaveSize).getLast? = some found := by
    refine ⟨_, List.getLast?_eq_some_getLast (List.ne_nil_of_mem (a := (s, i)) (List.mem_filter.mpr ⟨?_, ?_⟩))⟩
    · exact List.mk_mem_zipIdx_iff_getElem?.mpr hi
    · exact beq_iff_eq.mpr hclass.symm
  obtain ⟨hmem, hfound⟩ := List.mem_filter.mp (List.mem_of_getLast? hlast)
  exact ⟨k, t, congrArg (Option.map Prod.snd) hlast, List.mk_mem_zipIdx_iff_getElem?.mp hmem,
    (beq_iff_eq.mp hfound).symm⟩

section

variable {R : Type} [Scalar R]

theorem Key.alteration_cMajor (value : Nat) : Key.cMajor.alteration value = 0 := by
  unfold Key.alteration
  split
  · simp [Key.accidental, Key.cMajor]
  · rfl

/-- A tone is read in C major as it is, or in the octave of the settings. -/
theorem ToneForm.read_ofTone {ctx : NoteContext R} (hkey : ctx.key = .cMajor) {value tone : Nat}
    {octave : Option (Fin 11)}
    (htone : ((octave.map fun o => o.val).getD ctx.settings.octave : Nat) * octaveSize + value % octaveSize = tone)
    (hle : tone ≤ maxData) :
    (spelled (.ofTone value octave)).read ctx = .ok ((Spelling.ofTone value octave).note tone) := by
  have hplain : (Spelling.ofTone value octave).tone ctx = tone := by
    rw [Spelling.ofTone_tone, hkey, Key.alteration_cMajor, ite_self, htone, add_zero]
  rw [read_spelled, (checkRange_eq_ok_iff _ _ _ _ _).mpr ⟨hplain, Nat.zero_le _, hle⟩]
  rfl

/-- A chord with the inversion that is written for it. -/
def Inversion.apply (c : Chord R) : Inversion R → Chord R
  | .count n => c.withInversion n
  | .bass b => c.withBass b

theorem readSuffix_nil (text : Text) {n : Note R} (hn : n.endsTie = false) :
    readSuffix text n [] = .ok (n, []) := by
  obtain ⟨value, length, attack, decay⟩ := n
  cases hn
  rfl

/-- A root, a name and an inversion are read as a chord. -/
theorem readElement_inverted {ctx : NoteContext R} (hctx : ctx.Usual) (text : Text) {s : Spelling} {m root : Note R}
    (hm : (ToneForm.spelled s).read ctx = .ok m) (hroot : ctx.chordRoot m = .ok root) {name : Text}
    {shape : Intervals} (known : (name, shape) ∈ ChordTable.standard.entries) {after : Text}
    (hcalm : ChordTable.Calm after) {inversion : Inversion R}
    (hinversion : ctx.readInversion text 0 after = .ok (inversion, [])) :
    ctx.readElement text (s.text ++ (name ++ after)) =
      .ok (.chord (inversion.apply { root := root, intervals := shape, name := some name }), []) := by
  obtain ⟨hbare, hrest⟩ := ToneForm.read_bare hm
  have htone := ToneForm.readTone_text hctx.symbols text (.spelled s) (Form.clear_name known after)
  have hname : ctx.matchChord? m (name ++ after) = some (name, shape) := by
    rw [matchChord?, hrest, hctx.chords, ChordTable.matchStart?_append known hcalm]
    rfl
  rw [hm] at htone
  rw [readElement, show s.text = (ToneForm.spelled s).text from rfl, htone]
  simp only [Except.map, bind, Except.bind, Form.usual_velocities hctx hbare, hname, hroot, List.drop_left,
    hinversion, readSuffix_nil text (Form.chordRoot_bare hbare hroot).1.endsTie, pure, Except.pure]
  cases inversion <;> rfl

end

namespace ChordReader

variable {R : Type} [Scalar R]

theorem chordRoot_written {R : Type} (ctx : NoteContext R) {n : Note R} (h : n.octaveWritten = true) :
    ctx.chordRoot n = .ok n := by
  rw [chordRoot, h]
  rfl

/-- A root without an octave is read an octave below where a note would be. -/
theorem chordRoot_free {ctx : NoteContext R} (hctx : ctx.Usual) {n : Note R} (h : n.octaveWritten = false)
    {value : Nat} (hvalue : n.value = value + octaveSize) (hle : value ≤ maxData) :
    ∃ root, ctx.chordRoot n = .ok root ∧ root.value = value := by
  have hrange : checkRange .note ((n.value : Int) +
      ((ctx.settings.chordOctave : Int) - ctx.settings.octave) * octaveSize) 0 maxData = .ok value := by
    rw [checkRange_eq_ok_iff, hctx.settings, hvalue]
    refine ⟨?_, Nat.zero_le _, hle⟩
    simp [NoteSettings.standard]
  refine ⟨{ n with value := value }, ?_, rfl⟩
  simp only [chordRoot, h, Bool.false_eq_true, if_false, hrange, bind, Except.bind, pure, Except.pure]

/-- The root of a written chord and what it is read as: as written, or in the octave for chords. -/
theorem exists_root {ctx : NoteContext R} (hctx : ctx.Usual) (hkey : ctx.key = .cMajor) {value : Nat}
    (hvalue : value ≤ maxData) (narrow : Bool) :
    ∃ (s : Spelling) (m root : Note R),
      Text.upper (if narrow then Tone.text value else Tone.name value) = s.text ∧
      (ToneForm.spelled s).read ctx = .ok m ∧ ctx.chordRoot m = .ok root ∧
      root.value % octaveSize = value % octaveSize := by
  have hdata : maxData = 127 := rfl
  cases narrow with
  | true =>
    let s := Spelling.ofTone value (some (Spelling.octaveOf value hvalue))
    have hupper : Text.upper (Tone.text value) = s.text :=
      Spelling.upper_octave value (some (Spelling.octaveOf value hvalue))
    have hroot : ctx.chordRoot (s.note value) = .ok (s.note value) := by
      refine chordRoot_written ctx ?_
      rw [Spelling.note, Spelling.ofTone_octave]
      rfl
    refine ⟨s, _, _, hupper, ToneForm.read_ofTone hkey (Nat.div_add_mod' value octaveSize) hvalue, hroot, ?_⟩
    exact congrArg (· % octaveSize) (Nat.min_eq_left hvalue)
  | false =>
    let s := Spelling.ofTone value none
    have hmod : value % octaveSize < 12 := Nat.mod_lt _ (by decide)
    have hupper : Text.upper (Tone.name value) = s.text := Spelling.upper_plain value
    have hread : (ToneForm.spelled s).read ctx = .ok (s.note (5 * octaveSize + value % octaveSize)) := by
      refine ToneForm.read_ofTone hkey ?_ (by simp only [octaveSize] at *; omega)
      rw [hctx.settings]
      rfl
    have hfree : (s.note (5 * octaveSize + value % octaveSize) : Note R).octaveWritten = false := by
      rw [Spelling.note, Spelling.ofTone_octave]
      rfl
    have hlow : (s.note (5 * octaveSize + value % octaveSize) : Note R).value =
        4 * octaveSize + value % octaveSize + octaveSize := by
      simp only [Spelling.note, Note.ofValue, octaveSize] at *
      omega
    obtain ⟨root, hroot, hrootValue⟩ := chordRoot_free hctx hfree hlow (by simp only [octaveSize] at *; omega)
    refine ⟨s, _, root, hupper, hread, hroot, ?_⟩
    rw [hrootValue, Nat.mul_add_mod_self_right, Nat.mod_mod]

theorem noteContext_standard : (Dialect.standard : Dialect R).noteContext = .usual .cMajor := by
  simp only [Dialect.noteContext, Dialect.standard, Dialect.ofSettings, ReadingSettings.standard, NoteContext.usual]

/-- What follows the name for a bass, and the inversion it is read as. -/
theorem exists_bass {bass : Nat} (hbass : bass ≤ maxData) (value : Nat) :
    ∃ (after : Text) (inversion : Inversion R),
      Text.upper (if value = bass then [] else '^' :: Tone.text bass) = after ∧ ChordTable.Calm after ∧
      (∀ text, (NoteContext.usual .cMajor).readInversion text 0 after = .ok (inversion, [])) ∧
      ∀ c : Chord R, c.inversion = 0 → (inversion.apply c).inversion =
        if value = bass then 0 else (c.degreeWithClass? bass).getD 0 := by
  split
  · exact ⟨[], .count 0, rfl, ChordTable.calm_of_head (by simp), fun _ => rfl, fun _ _ => rfl⟩
  · let s := Spelling.ofTone bass (some (Spelling.octaveOf bass hbass))
    have hupper : Text.upper ('^' :: Tone.text bass) = '^' :: s.text := by
      rw [← List.singleton_append, Text.upper_append]
      exact congrArg (['^'] ++ ·) (Spelling.upper_octave bass (some (Spelling.octaveOf bass hbass)))
    refine ⟨'^' :: s.text, .bass (s.note bass), hupper, ?_, fun text => ?_, fun c hc => ?_⟩
    · have hcaret : ∀ t ∈ ChordTable.continuations, t.head? ≠ some '^' := by decide
      exact ChordTable.calm_of_head fun c hc => Option.some.inj hc ▸ hcaret
    · have htone : s.tone (NoteContext.usual .cMajor : NoteContext R) = bass := by
        rw [Spelling.ofTone_tone]
        simp [NoteContext.usual, Key.alteration_cMajor, Spelling.octaveOf, Tone.octave, Nat.div_add_mod']
      have hread : (NoteContext.usual .cMajor : NoteContext R).readLetter text s.text = .ok (s.note bass, []) := by
        have hclear : Spelling.Clear [] := by simp [Spelling.Clear]
        have hspelled := Spelling.readLetter_text (.usual .cMajor : NoteContext R) text s hclear
        rwa [List.append_nil, (checkRange_eq_ok_iff _ _ _ _ bass).mpr ⟨htone, Nat.zero_le _, hbass⟩] at hspelled
      have hletter : s.text.head?.bind Tone.ofLetter? = some s.position := s.isLetter
      rw [readInversion, hletter]
      simp only [hread, bind, Except.bind, pure, Except.pure]
    · have hvalue : (s.note bass : Note R).value = bass := Nat.min_eq_left hbass
      rw [Inversion.apply, Chord.withBass, hvalue, hc]

/-- A written chord is read from start to end, with its root in the pitch class written and its bass in the bass. -/
theorem read_named {value bass : Nat} (hvalue : value ≤ maxData) (hbass : bass ≤ maxData) {name : Text}
    {shape : Intervals} (known : (name, shape) ∈ ChordTable.standard.entries) (narrow : Bool) :
    ∃ c : Chord R,
      read .standard ((if narrow then Tone.text value else Tone.name value) ++ name ++
        if value = bass then [] else '^' :: Tone.text bass) = .ok c ∧
      c.root.value % octaveSize = value % octaveSize ∧ c.intervals = shape ∧
      c.inversion = if value = bass then 0 else (c.degreeWithClass? bass).getD 0 := by
  let ctx : NoteContext R := .usual .cMajor
  have hctx : ctx.Usual := NoteContext.usual_spec .cMajor
  obtain ⟨s, m, root, hupper, hm, hroot, hclass⟩ := exists_root hctx rfl hvalue narrow
  obtain ⟨after, inversion, hafter, hcalm, hinversion, happly⟩ := exists_bass (R := R) hbass value
  have hname : Text.upper name = name := upper_of_raised fun c hc => (ChordTable.raised_of_mem known c hc).1
  let upright : Chord R := { root := root, intervals := shape, name := some name }
  have hread : ∀ t : Text, t = s.text ++ (name ++ after) →
      ctx.read t = .ok ([join .opening (.chord (inversion.apply upright))], []) := by
    intro t ht
    rw [NoteContext.read, readJoined]
    nth_rewrite 2 [ht]
    rw [readElement_inverted hctx t hm hroot known hcalm (hinversion t)]
    rfl
  have hinverted := happly upright rfl
  have hkept : (inversion.apply upright).root = root ∧ (inversion.apply upright).intervals = shape := by
    cases inversion <;> exact ⟨rfl, rfl⟩
  generalize hc : inversion.apply upright = c at *
  refine ⟨{ c with root := { c.root with isFirst := true } }, ?_, hkept.1 ▸ hclass, hkept.2, ?_⟩
  · rw [read, noteContext_standard, Text.upper_append, Text.upper_append, hupper, hname, hafter,
      List.append_assoc, hread _ rfl]
    rfl
  · rw [hinverted, Chord.degreeWithClass?_congr (congrArg Note.value hkept.1.symm) hkept.2.symm]
    rfl

section

variable {table : ChordTable} {notes others : List (Note R)}

theorem named?_cons (narrow : Bool) (bass root : Note R) (rest : List (Note R)) :
    named? table narrow bass (root :: rest) =
      (table.nameOf? (Intervals.ofNotes (root :: rest))).map fun name =>
        (if narrow then root.text else Tone.name root.value) ++ name ++
          if root.value = bass.value then [] else '^' :: bass.text := by
  rw [named?]
  cases table.nameOf? (Intervals.ofNotes (root :: rest)) <;> rfl

/-- What is written names the shape above one of the notes, over the lowest of them. -/
theorem textOfNotes?_eq_some (hplain : Plain notes) {text : Text} (h : textOfNotes? table notes = some text) :
    ∃ bass ∈ notes, (∀ m ∈ notes, bass.value ≤ m.value) ∧
      ∃ root ∈ notes, ∃ (name : Text) (narrow : Bool), (name, shapeAbove notes root.position) ∈ table.entries ∧
        text = (if narrow then root.text else Tone.name root.value) ++ name ++
          if root.value = bass.value then [] else '^' :: bass.text := by
  obtain ⟨bass, hbass, h⟩ := Option.bind_eq_some_iff.mp h
  obtain ⟨highest, -, h⟩ := Option.bind_eq_some_iff.mp h
  obtain ⟨rotation, hrotation, hnamed⟩ := List.exists_of_findSome?_eq_some h
  obtain ⟨root, rest, rfl, hroot, hshape⟩ := exists_rotation hplain hrotation
  rw [named?_cons, hshape] at hnamed
  obtain ⟨name, hname, rfl⟩ := Option.map_eq_some_iff.mp hnamed
  obtain ⟨hmem, hle⟩ := (head?_of_sorted (sorted_sortNotes _ _) (hplain.congr fun _ => mem_sortNotes)).mp hbass
  exact ⟨bass, mem_sortNotes.mp hmem, fun m hm => hle m (mem_sortNotes.mpr hm), root,
    ((mem_lowestNotes hplain).mp hroot).mem, name, _, ChordTable.nameOf?_eq_some hname, rfl⟩

/-- Notes name a chord just when one of them has a shape of the table above it. -/
theorem isSome_textOfNotes? (hplain : Plain notes) : (textOfNotes? table notes).isSome ↔
    ∃ n ∈ notes, ∃ name, (name, shapeAbove notes n.position) ∈ table.entries := by
  refine ⟨fun h => ?_, fun ⟨n, hn, hname⟩ => ?_⟩
  · obtain ⟨text, htext⟩ := Option.isSome_iff_exists.mp h
    obtain ⟨-, -, -, root, hroot, name, -, hname, -⟩ := textOfNotes?_eq_some hplain htext
    exact ⟨root, hroot, name, hname⟩
  · obtain ⟨root, hroot, hposition⟩ := exists_lowest hn
    obtain ⟨rest, hrotation, hshape⟩ := rotation_of_mem hplain hroot
    have hne : sortNotes Note.value notes ≠ [] := List.ne_nil_of_mem (mem_sortNotes.mpr hn)
    have hnamed : ∀ narrow bass, ((rotations (lowestNotes notes)).findSome? (named? table narrow bass)).isSome := by
      intro narrow bass
      refine List.findSome?_isSome_iff.mpr ⟨_, hrotation, ?_⟩
      rw [named?_cons, Option.isSome_map, hshape, hposition, ChordTable.isSome_nameOf?]
      exact hname
    rw [textOfNotes?]
    simp only [List.head?_eq_some_head hne, List.getLast?_eq_some_getLast hne, Option.bind_eq_bind, Option.bind_some]
    exact hnamed _ _

/-- Order and repetition change nothing about what is written. -/
theorem textOfNotes?_congr (hplain : Plain notes) (hmem : ∀ n, n ∈ others ↔ n ∈ notes) :
    textOfNotes? table others = textOfNotes? table notes := by
  have hsorted : ∀ n, n ∈ sortNotes Note.value others ↔ n ∈ sortNotes Note.value notes := fun n => by
    rw [mem_sortNotes, mem_sortNotes, hmem]
  have hplain' : Plain (sortNotes Note.value notes) := hplain.congr fun _ => mem_sortNotes
  have hothers := hplain'.congr hsorted
  have hhead : (sortNotes Note.value others).head? = (sortNotes Note.value notes).head? := by
    refine Option.ext fun n => ?_
    rw [head?_of_sorted (sorted_sortNotes _ _) hothers, head?_of_sorted (sorted_sortNotes _ _) hplain']
    simp only [hsorted]
  have hlast : (sortNotes Note.value others).getLast? = (sortNotes Note.value notes).getLast? := by
    refine Option.ext fun n => ?_
    rw [getLast?_of_sorted (sorted_sortNotes _ _) hothers, getLast?_of_sorted (sorted_sortNotes _ _) hplain']
    simp only [hsorted]
  have hclasses := lowestNotes_congr hplain hmem
  unfold lowestNotes at hclasses
  simp only [textOfNotes?, hhead, hlast, hclasses]

end

section

variable {values others : List Nat}

/-- The notes of values. -/
def ofValues (values : List Nat) : List (Note R) := values.map Note.ofValue

/-- The chord that the notes of values form in the standard dialect. -/
def chordOfValues? (values : List Nat) : Option (Chord R) :=
  (ofNotes .standard (ofValues values)).toOption

/-- The pattern that the pitch classes of values make above a pitch class, counted up from it. -/
def patternAbove (values : List Nat) (root : Nat) : Intervals :=
  ⟨((List.range octaveSize).filter fun gap =>
    values.any fun v => v % octaveSize == (root + gap) % octaveSize).map Intervals.spell⟩

theorem plain_ofValues (values : List Nat) : Plain (ofValues values : List (Note R)) := by
  intro m hm n hn hvalue
  obtain ⟨v, -, rfl⟩ := List.mem_map.mp hm
  obtain ⟨w, -, rfl⟩ := List.mem_map.mp hn
  have hmin : min v maxData = min w maxData := hvalue
  rw [Note.ofValue, Note.ofValue, hmin]

theorem position_ofValue {v : Nat} (h : v ≤ maxData) : (Note.ofValue v : Note R).position = v % octaveSize :=
  congrArg (· % octaveSize) (Nat.min_eq_left h)

theorem text_ofValue {v : Nat} (h : v ≤ maxData) : (Note.ofValue v : Note R).text = Tone.text v := by
  have hvalue : min v maxData = v := Nat.min_eq_left h
  simp [Note.text, Note.ofValue, Note.suffix, Note.velocityText, hvalue]

theorem shapeAbove_ofValues (h : ∀ v ∈ values, v ≤ maxData) (root : Nat) :
    shapeAbove (ofValues values : List (Note R)) root = patternAbove values root := by
  have hany : ∀ p, ((ofValues values : List (Note R)).any fun n => n.position == p) =
      values.any fun v => v % octaveSize == p := by
    intro p
    rw [ofValues, List.any_map, Bool.eq_iff_iff, List.any_eq_true, List.any_eq_true]
    refine exists_congr fun v => and_congr_right fun hv => ?_
    rw [Function.comp_apply, position_ofValue (h v hv)]
  simp only [shapeAbove, gapsAbove, patternAbove, hany]

/-- What values are identified as, by root, shape and bass. -/
structure Identified (values : List Nat) (c : Chord R) (root bass : Nat) : Prop where
  root_mem : root ∈ values
  bass_mem : bass ∈ values
  bass_le : ∀ v ∈ values, bass ≤ v
  rootClass : c.root.value % octaveSize = root % octaveSize
  intervals : c.intervals = patternAbove values (root % octaveSize)
  inversion : c.inversion = if root = bass then 0 else (c.degreeWithClass? bass).getD 0

/-- What is written for values is read as a chord. -/
theorem read_textOfNotes? (h : ∀ v ∈ values, v ≤ maxData) {text : Text}
    (htext : textOfNotes? .standard (ofValues values : List (Note R)) = some text) :
    ∃ (c : Chord R) (root bass : Nat), read .standard text = .ok c ∧ Identified values c root bass := by
  obtain ⟨_, hbass, hle, _, hroot, name, narrow, known, rfl⟩ := textOfNotes?_eq_some (plain_ofValues values) htext
  obtain ⟨bass, hmem, rfl⟩ := List.mem_map.mp hbass
  obtain ⟨root, hrootMem, rfl⟩ := List.mem_map.mp hroot
  have hvalue : ∀ v ∈ values, (Note.ofValue v : Note R).value = v := fun v hv => Nat.min_eq_left (h v hv)
  rw [position_ofValue (h root hrootMem), shapeAbove_ofValues h] at known
  obtain ⟨c, hread, hclass, hintervals, hinversion⟩ :=
    read_named (R := R) (h root hrootMem) (h bass hmem) known narrow
  refine ⟨c, root, bass, ?_, ⟨hrootMem, hmem, fun v hv => ?_, hclass, hintervals, hinversion⟩⟩
  · rwa [text_ofValue (h root hrootMem), text_ofValue (h bass hmem), hvalue root hrootMem, hvalue bass hmem]
  · have hmin := hle (Note.ofValue v) (List.mem_map.mpr ⟨v, hv, rfl⟩)
    rwa [hvalue v hv, hvalue bass hmem] at hmin

theorem ofNotes_standard (notes : List (Note R)) : ofNotes .standard notes =
    match textOfNotes? .standard notes with
    | none => .error (.invalid .chordNotes (describe notes))
    | some text => read .standard text := by
  have hchords : (Dialect.standard : Dialect R).chords = .standard := by
    simp only [Dialect.standard, Dialect.ofSettings]
  cases htext : textOfNotes? .standard notes <;> simp only [ofNotes, hchords, htext]

theorem isSome_chordOfValues? (h : ∀ v ∈ values, v ≤ maxData) :
    (chordOfValues? values : Option (Chord R)).isSome ↔
      ∃ v ∈ values, ∃ name, (name, patternAbove values (v % octaveSize)) ∈ ChordTable.standard.entries := by
  have htext : (chordOfValues? values : Option (Chord R)).isSome ↔
      (textOfNotes? .standard (ofValues values : List (Note R))).isSome := by
    rw [chordOfValues?, ofNotes_standard]
    cases htext : textOfNotes? .standard (ofValues values : List (Note R)) with
    | none => exact Iff.rfl
    | some text =>
      obtain ⟨c, -, -, hread, -⟩ := read_textOfNotes? h htext
      simp only [hread, Except.toOption, Option.isSome_some]
  simp only [htext, isSome_textOfNotes? (plain_ofValues values), shapeAbove_ofValues h]
  simp only [ofValues, List.mem_map, exists_exists_and_eq_and]
  refine exists_congr fun v => and_congr_right fun hv => ?_
  rw [position_ofValue (h v hv)]

theorem identified_of_eq_some (h : ∀ v ∈ values, v ≤ maxData) {c : Chord R} (hc : chordOfValues? values = some c) :
    ∃ root bass, Identified values c root bass := by
  rw [chordOfValues?, ofNotes_standard] at hc
  cases htext : textOfNotes? .standard (ofValues values : List (Note R)) with
  | none =>
    rw [htext] at hc
    cases hc
  | some text =>
    obtain ⟨c', root, bass, hread, hc'⟩ := read_textOfNotes? h htext
    simp only [htext, hread, Except.toOption, Option.some_inj] at hc
    exact ⟨root, bass, hc ▸ hc'⟩

theorem Identified.steps_eq {R : Type} {c : Chord R} {root bass : Nat} (h : Identified values c root bass) :
    c.intervals.steps =
      (gapsAbove (fun p => values.any fun v => v % octaveSize == p) (root % octaveSize)).map fun gap : Nat =>
        (gap : Int) := by
  have hpattern : patternAbove values (root % octaveSize) =
      ⟨(gapsAbove (fun p => values.any fun v => v % octaveSize == p) (root % octaveSize)).map Intervals.spell⟩ := rfl
  rw [h.intervals, hpattern, Intervals.steps_spell fun gap hgap => (mem_gapsAbove.mp hgap).1]

/-- The steps of the pattern above one of the values lead to the pitch classes of all. -/
theorem Identified.steps {R : Type} {c : Chord R} {root bass : Nat} (h : Identified values c root bass) (p : Nat) :
    (∃ s ∈ c.intervals.steps, ((c.root.value : Int) + s) % octaveSize = p) ↔ ∃ v ∈ values, v % octaveSize = p := by
  have hroot := h.rootClass
  rw [h.steps_eq]
  simp only [List.mem_map, exists_exists_and_eq_and, mem_gapsAbove, List.any_eq_true, beq_iff_eq, octaveSize] at *
  constructor
  · rintro ⟨gap, ⟨-, v, hv, hgap⟩, hp⟩
    exact ⟨v, hv, by omega⟩
  · rintro ⟨v, hv, rfl⟩
    exact ⟨(v % 12 + 12 - root % 12) % 12, ⟨by omega, v, hv, by omega⟩, by omega⟩

/-- The degree that the inversion puts in the bass has the pitch class of the lowest value. -/
theorem Identified.bass_degree {R : Type} {c : Chord R} {root bass : Nat} (h : Identified values c root bass) :
    ∃ s, c.intervals.steps[c.inversion]? = some s ∧
      ((c.root.value : Int) + s) % octaveSize = (bass : Int) % octaveSize := by
  rw [h.inversion]
  split
  · rename_i heq
    have hpresent : values.any (fun v => v % octaveSize == root % octaveSize % octaveSize) = true :=
      List.any_eq_true.mpr ⟨root, h.root_mem, by rw [Nat.mod_mod, beq_self_eq_true]⟩
    refine ⟨0, ?_, ?_⟩
    · rw [h.steps_eq, ← List.head?_eq_getElem?, List.head?_map, head?_gapsAbove hpresent]
      rfl
    · rw [add_zero, ← heq]
      exact_mod_cast h.rootClass
  · have hbass : ∃ s ∈ c.intervals.steps, ((c.root.value : Int) + s) % octaveSize = (bass : Int) % octaveSize := by
      have := (h.steps (bass % octaveSize)).mpr ⟨bass, h.bass_mem, rfl⟩
      rwa [Int.natCast_mod] at this
    obtain ⟨i, s, hdegree, hstep, hclass⟩ := Chord.degreeWithClass?_spec hbass
    rw [hdegree]
    exact ⟨s, hstep, hclass⟩

/-- Values are identified as a chord just when the pattern of their pitch classes above one of them is in the table.
The chord has the pitch classes of the values and the lowest of them in the bass, and neither the order of the values
nor their number counts. -/
theorem chordOfValues?_spec (h : ∀ v ∈ values, v ≤ maxData) :
    ((chordOfValues? values : Option (Chord R)).isSome ↔
      ∃ v ∈ values, ∃ name, (name, patternAbove values (v % octaveSize)) ∈ ChordTable.standard.entries) ∧
    (∀ c : Chord R, chordOfValues? values = some c →
      (∀ p : Nat, (∃ s ∈ c.intervals.steps, ((c.root.value : Int) + s) % octaveSize = p) ↔
        ∃ v ∈ values, v % octaveSize = p) ∧
      ∀ low ∈ values, (∀ v ∈ values, low ≤ v) → ∃ s, c.intervals.steps[c.inversion]? = some s ∧
        ((c.root.value : Int) + s) % octaveSize = (low : Int) % octaveSize) ∧
    ∀ others, (∀ v, v ∈ others ↔ v ∈ values) →
      (chordOfValues? others : Option (Chord R)) = chordOfValues? values := by
  refine ⟨isSome_chordOfValues? h, fun c hc => ?_, fun others hsame => ?_⟩
  · obtain ⟨root, bass, hidentified⟩ := identified_of_eq_some h hc
    refine ⟨hidentified.steps, fun low hlow hle => ?_⟩
    rw [le_antisymm (hle bass hidentified.bass_mem) (hidentified.bass_le low hlow)]
    exact hidentified.bass_degree
  · have hmem : ∀ n : Note R, n ∈ ofValues others ↔ n ∈ ofValues values := fun n => by
      simp only [ofValues, List.mem_map, hsame]
    rw [chordOfValues?, chordOfValues?, ofNotes_standard, ofNotes_standard,
      textOfNotes?_congr (plain_ofValues values) hmem]
    cases textOfNotes? .standard (ofValues values : List (Note R)) <;> rfl

/-- Two octaves apart and in any order, C, E and G are still C major, here over E. -/
theorem chordOfValues?_spread :
    (∀ v ∈ [88, 64, 79, 64, 84], v ≤ maxData) ∧
      ∃ c : Chord Rat, chordOfValues? [88, 64, 79, 64, 84] = some c ∧
        (∀ p : Nat, (∃ s ∈ c.intervals.steps, ((c.root.value : Int) + s) % octaveSize = p) ↔
          ∃ v ∈ [88, 64, 79, 64, 84], v % octaveSize = p) ∧
        (∃ s, c.intervals.steps[c.inversion]? = some s ∧
          ((c.root.value : Int) + s) % octaveSize = ((64 : Nat) : Int) % octaveSize) ∧
        chordOfValues? [64, 79, 84, 88] = some c := by
  have hle : ∀ v ∈ [88, 64, 79, 64, 84], v ≤ maxData := by decide
  obtain ⟨hiff, hspec, hcongr⟩ := chordOfValues?_spec (R := Rat) hle
  have hmajor : ("MAJ".toList, patternAbove [88, 64, 79, 64, 84] (84 % octaveSize)) ∈
      ChordTable.standard.entries := by decide +kernel
  obtain ⟨c, hc⟩ := Option.isSome_iff_exists.mp (hiff.mpr ⟨84, by decide, _, hmajor⟩)
  have hto : ∀ v ∈ [64, 79, 84, 88], v ∈ [88, 64, 79, 64, 84] := by decide
  have hfrom : ∀ v ∈ [88, 64, 79, 64, 84], v ∈ [64, 79, 84, 88] := by decide
  have hbass := (hspec c hc).2 64 (by decide) (by decide)
  exact ⟨hle, c, hc, (hspec c hc).1, hbass, (hcongr [64, 79, 84, 88] fun v => ⟨hto v, hfrom v⟩).trans hc⟩

end

end ChordReader

end ScoreText
