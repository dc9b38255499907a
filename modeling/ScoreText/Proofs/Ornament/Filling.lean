import ScoreText.Proofs.Expansion.Settling
import ScoreText.Proofs.Ornament.Pieces
import ScoreText.Proofs.Timeline.Turns

/-!
Ornaments and time. What is written of a trill, an arpeggio or a broken chord lasts as long as the note or the chord
that it stands for, and what follows starts where it would, but for two things: the pieces of a trill are a whole
number of them, and a share of a chord lasts what its decimals say.
-/

set_option autoImplicit false

namespace ScoreText

open NoteContext

variable {R : Type} [Scalar R] {value : R → Rat}

namespace Length

theorem value_halved (laws : Scalar.Exact value) (n : Nat) : value (halved n : R) = 1 / 2 ^ n := by
  have hpow : ((Nat.pow 2 n : Nat) : Rat) = 2 ^ n := by exact_mod_cast rfl
  rw [halved, laws.div, laws.natCast, laws.natCast, hpow, Nat.cast_one]

theorem exact_zero_add (laws : Scalar.Exact value) (a : R) : ((0 : Nat) : R) + a = a :=
  laws.injective (by rw [laws.add, laws.natCast, Nat.cast_zero, zero_add])

/-- The letters with how often they halve a whole note. -/
theorem letters_spec : ∀ entry ∈ letters.zipIdx, letters.idxOf? entry.1 = some entry.2 ∧ entry.1 ≠ '/' ∧
    entry.1.toLower.isAlphanum = true ∧ Text.upper [entry.1.toLower] = [entry.1] ∧
      Text.upper [entry.1.toLower, '.'] = [entry.1, '.'] := by
  decide

/-- A letter is read as its length, and with a dot as half as much again. -/
theorem read_letter (laws : Scalar.Exact value) {c : Char} {n : Nat} (h : letters.idxOf? c = some n) (hc : c ≠ '/') :
    readLength? [] [c] = .ok (some (halved n : R), []) ∧
      readLength? [] [c, '.'] = .ok (some (halved n * dot : R), []) := by
  have hletter : ofLetter? c = some (halved n : R) := by rw [ofLetter?, h]; rfl
  have hread : ∀ r, (readLength? [] (c :: r) : Except Error (Option R × Text)) =
      .ok (readLengthLetters (c :: r).length none (c :: r)) := by
    intro r
    rw [readLength?]
    rintro s hs
    exact hc (List.cons.inj hs).1
  constructor <;>
    simp [hread, readLengthLetters, hletter, Numeral.takeDigits, Numeral.value?, readDots, exact_zero_add laws]

/-- The lengths that have names are read from their names. -/
theorem read_named (laws : Scalar.Exact value) : ∀ entry ∈ (named : List (Text × R)),
    (∀ c ∈ entry.1, c.isAlphanum = true ∨ c = '.' ∨ c = '/') ∧
      readLength? [] (Text.upper entry.1) = .ok (some entry.2, []) := by
  intro entry hentry
  obtain ⟨⟨c, n⟩, hmem, hentry⟩ := List.mem_flatMap.mp hentry
  obtain ⟨hindex, hslash, halnum, hplain, hdotted⟩ := letters_spec _ (List.mem_of_mem_drop hmem)
  obtain ⟨hread, hdot⟩ := read_letter laws hindex hslash
  simp only [List.mem_cons, List.not_mem_nil, or_false] at hentry
  rcases hentry with rfl | rfl
  · refine ⟨fun d hd => ?_, hdotted.symm ▸ hdot⟩
    rcases List.mem_cons.mp hd with rfl | hd
    · exact .inl halnum
    · exact .inr (.inl (List.mem_singleton.mp hd))
  · exact ⟨fun d hd => .inl (List.mem_singleton.mp hd ▸ halnum), hplain.symm ▸ hread⟩

/-- What a letter stands for is written so that it is read again. -/
theorem legible_halved (laws : Scalar.Exact value) {n : Nat} (h : n < letters.length) : Legible (halved n : R) := by
  have hvalue := value_halved (R := R) laws n
  cases n with
  | zero =>
    have hone : (halved 0 : R) = ((1 : Nat) : R) := laws.injective (by rw [hvalue, laws.natCast]; norm_num)
    have htext : text (halved 0 : R) = ['w'] := by
      rw [hone, text, if_pos ⟨(laws.le_iff _ _).mpr le_rfl, laws.isWhole_natCast 1⟩, laws.toNat_natCast]
      rfl
    have hupper : Text.upper ['w'] = ['W'] := by decide
    obtain ⟨hread, -⟩ := read_letter (R := R) laws (c := 'W') (n := 0) (by decide) (by decide)
    refine ⟨by rw [htext]; decide, _, by rw [htext, hupper]; exact hread, (laws.beq_iff _ _).mpr rfl⟩
  | succ n =>
    -- what is found under a name equals this length, so that it does not matter which name is found first
    have hless : ¬ (((1 : Nat) : R) ≤ halved (n + 1) ∧ Scalar.isWhole (halved (n + 1) : R) = true) := by
      rintro ⟨hle, -⟩
      rw [laws.le_iff, laws.natCast, hvalue, Nat.cast_one, le_div_iff₀ (by positivity), one_mul] at hle
      exact absurd hle (not_le.mpr (one_lt_pow₀ (by norm_num) (Nat.succ_ne_zero n)))
    have hname : ∃ entry ∈ (named : List (Text × R)), (entry.2 == halved (n + 1)) = true := by
      have hany : ∀ k < letters.length, 0 < k → ∃ entry ∈ letters.zipIdx.drop 1, entry.2 = k := by decide
      obtain ⟨⟨c, k⟩, hmem, rfl⟩ := hany (n + 1) h (Nat.succ_pos n)
      exact ⟨([c.toLower], halved (n + 1)), List.mem_flatMap.mpr ⟨_, hmem, by simp⟩, (laws.beq_iff _ _).mpr rfl⟩
    obtain ⟨entry, hfind⟩ := Option.isSome_iff_exists.mp (List.find?_isSome.mpr hname)
    obtain ⟨hchars, hread⟩ := read_named laws entry (List.mem_of_find?_eq_some hfind)
    have heq := List.find?_some hfind
    have htext : text (halved (n + 1) : R) = entry.1 := by
      rw [text, if_neg hless, hfind]
    exact ⟨by rwa [htext], entry.2, by rwa [htext], (laws.beq_iff _ _).mpr ((laws.beq_iff _ _).mp heq).symm⟩

end Length

namespace Ornament

/-- What notes last one after the other. -/
def span (value : R → Rat) (notes : List (Note R)) : Rat := (notes.map fun n => value n.length).sum

namespace Row

variable {each : R} {notes : List (Note R)}

theorem span_eq {R : Type} {value : R → Rat} {each : R} {notes : List (Note R)} (h : Row each notes) :
    span value notes = notes.length * value each := by
  rw [span, List.map_congr_left fun n hn => congrArg value (h.lasts n hn), List.map_const', List.sum_replicate,
    nsmul_eq_mul]

theorem inTurn (laws : Scalar.Exact value) (h : Row each notes) (hpos : 0 < value each) (noteLength : R) :
    Cursor.InTurn noteLength each notes := by
  refine ⟨h.opens, h.onward, fun n hn => ?_⟩
  rw [Timeline.lengthOf, h.lasts n hn, if_pos ((laws.lt_iff _ _).mpr ?_)]
  rwa [laws.natCast, Nat.cast_zero]

end Row

section

variable {ctx : NoteContext R}

/-- A note plays as long as an ornament takes it to last, unless that is no time. -/
theorem lengthOf_leading (laws : Scalar.Exact value) {n : Note R} (h : n.Leading)
    (hpos : 0 < value (lengthOf ctx n)) : Timeline.lengthOf n ctx.settings.length = lengthOf ctx n := by
  unfold lengthOf at hpos ⊢
  rw [Timeline.lengthOf]
  cases hw : n.lengthWritten with
  | true =>
    rw [hw, if_pos rfl] at hpos
    rw [if_pos rfl, if_pos]
    rwa [laws.lt_iff, laws.natCast, Nat.cast_zero]
  | false =>
    rw [h.unwritten hw, if_neg Bool.false_ne_true, if_neg]
    rw [laws.lt_iff]
    exact lt_irrefl _

/-- Notes in a row stand for a note or a chord just where they last as long. -/
theorem Row.standFor_iff (laws : Scalar.Exact value) {each : R} {notes : List (Note R)} (h : Row each notes)
    (heach : 0 < value each) {e : Element R} (he : e.lead.Leading) (hpos : 0 < value (lengthOf ctx e.lead)) :
    StandFor ctx.settings.length (Fragment.elementEvent e) notes ↔
      span value notes = value (lengthOf ctx e.lead) := by
  have hlength := lengthOf_leading laws he hpos
  rw [h.span_eq, ← hlength]
  rw [← hlength] at hpos
  cases e with
  | note n => exact StandFor.note_iff laws heach (h.inTurn laws heach _) he.isFirst he.isHarmonic hpos
  | chord c => exact StandFor.chord_iff laws heach (h.inTurn laws heach _) he.isFirst he.isHarmonic hpos

theorem read_of_trillNote {text : Text} {n : Note R} (h : trillNote ctx text = .ok n) :
    ctx.read text = .ok ([.note n], []) := by
  obtain ⟨⟨elements, rest⟩, hread, h⟩ := ok_of_bind h
  split at h
  · rename_i heq
    obtain ⟨rfl, rfl⟩ := Prod.mk.inj heq
    split at h
    · cases h
    · rw [hread, Except.ok.inj h]
  · cases h

theorem read_of_wholeChord? {text : Text} {c : Chord R} (h : wholeChord? ctx text = .ok (some c)) :
    ctx.read text = .ok ([.chord c], []) := by
  obtain ⟨⟨elements, rest⟩, hread, h⟩ := ok_of_bind h
  split at h
  · rename_i heq
    obtain ⟨rfl, rfl⟩ := Prod.mk.inj heq
    rw [hread, Option.some.inj (Except.ok.inj h)]
  · cases h

/-- A trill is filled with pieces that a letter stands for. -/
theorem exists_halved_of_trillPiece {params : Text} {option : Option Text} {each : R}
    (h : trillPiece params option = .ok each) : ∃ n < Length.letters.length, each = Length.halved n := by
  unfold trillPiece at h
  split at h
  · exact ⟨5, by decide, (Except.ok.inj h).symm⟩
  · split at h
    · split at h
      · cases h
      · split at h
        · rename_i length hletter
          obtain ⟨n, hn, hlength⟩ := Option.map_eq_some_iff.mp hletter
          refine ⟨n, ?_, (hlength.trans (Except.ok.inj h)).symm⟩
          exact (List.idxOf?_eq_some_iff.mp hn).1
        · cases h
    · cases h

theorem mem_of_indexed {R : Type} {notes : List (Note R)} {index : Text} {n : Note R}
    (h : indexed notes index = .ok n) : n ∈ notes := by
  unfold indexed at h
  split at h
  · rename_i hsome
    obtain ⟨i, -, hi⟩ := Option.bind_eq_some_iff.mp hsome
    exact Except.ok.inj h ▸ List.mem_of_getElem? hi
  · cases h

/-- What is written of a trill: its two notes by turns, as many times as its length holds a piece. -/
theorem writeTrill_eq_ok {params text : Text} (h : writeTrill ctx params = .ok text) :
    ∃ (note : Text) (options : List Text) (n : Note R) (each : R) (above : Nat),
      Params.split params = note :: options ∧ trillNote ctx (Text.upper note) = .ok n ∧
        trillPiece params options[1]? = .ok each ∧ above ≤ maxData ∧
          text = Text.join [' '] ((List.range (max 1 (Scalar.round (lengthOf ctx n / each)))).map fun i =>
            piece (if i % 2 = 0 then n.value else above) (pieceSuffix each n)) := by
  unfold writeTrill at h
  split at h
  · cases h
  · rename_i note options hsplit
    obtain ⟨n, hn, h⟩ := ok_of_bind h
    obtain ⟨interval, -, h⟩ := ok_of_bind h
    obtain ⟨each, heach, h⟩ := ok_of_bind h
    obtain ⟨above, habove, h⟩ := ok_of_bind h
    exact ⟨note, options, n, each, above, hsplit, hn, heach, ((checkRange_eq_ok_iff _ _ _ _ _).mp habove).2.2,
      (Except.ok.inj h).symm⟩

/-- What is written of an arpeggio: the notes of its chord. -/
theorem writeArpeggio_eq_ok {params text : Text} (h : writeArpeggio ctx params = .ok text) :
    ∃ c : Chord R, wholeChord? ctx (Text.upper (Text.trim params)) = .ok (some c) ∧
      text = Text.join ['_'] (c.notes.map fun n =>
        piece n.value (pieceSuffix (lengthOf ctx c.root / ((c.notes.length : Nat) : R)) c.root)) := by
  obtain ⟨found, hfound, h⟩ := ok_of_bind h
  cases found with
  | none => cases h
  | some c => exact ⟨c, hfound, (Except.ok.inj h).symm⟩

end

/-- So many pieces fill a length just where it is a multiple of theirs. -/
theorem pieces_fill_iff {length each : Rat} (h : 0 < each) :
    ((max 1 (length / each + 1 / 2).floor.toNat : Nat) : Rat) * each = length ↔
      ∃ m : Nat, 0 < m ∧ length = m * each := by
  constructor
  · intro hfill
    exact ⟨_, Nat.le_max_left 1 _, hfill.symm⟩
  · rintro ⟨m, hm, rfl⟩
    have hfloor : ((m : Rat) * each / each + 1 / 2).floor = m := by
      rw [mul_div_cancel_right₀ _ h.ne']
      change ⌊(m : Rat) + 1 / 2⌋ = m
      rw [Int.floor_eq_iff, Int.cast_natCast]
      constructor <;> linarith
    rw [hfloor, Int.toNat_natCast, Nat.max_eq_right hm]

/-- What is written for a note in pieces of a length: a whole number of them, that nearest to the length of the note
but one at least. They stand for the note where they last as long. -/
def Tiles (value : R → Rat) (p : Parser R) (memory : Memory) (n : Note R) (each : R) (text : Text) : Prop :=
  let length := lengthOf p.context.noteContext n
  ∃ notes : List (Note R), p.dialect.Reads memory text notes ∧
    span value notes = (max 1 (Scalar.round (length / each)) : Nat) * value each ∧
    (span value notes = value length ↔ ∃ m : Nat, 0 < m ∧ value length = m * value each) ∧
    (0 < value length →
      (StandFor p.dialect.settings.notes.length (.note n) notes ↔ span value notes = value length))

/-- What is written for a chord in equal shares of its length: so many notes of what a share is read as. They last as
long as the chord where a share is read as it is written, and stand for it then. -/
def Shares (value : R → Rat) (p : Parser R) (memory : Memory) (c : Chord R) (count : Nat) (text : Text) : Prop :=
  let length := lengthOf p.context.noteContext c.root
  let each := length / (count : R)
  Length.Readable each → ∃ notes : List (Note R), p.dialect.Reads memory text notes ∧
    span value notes = count * value (Length.reread each) ∧
    (span value notes = value length ↔ Length.reread each = each) ∧
    (0 < value length → 0 < value (Length.reread each) →
      (StandFor p.dialect.settings.notes.length (.chord c) notes ↔ span value notes = value length))

/-- Pieces that fit a note stand for it. -/
theorem Tiles.fitting {p : Parser R} {memory : Memory} {n : Note R} {each : R} {text : Text}
    (h : Tiles value p memory n each text) {m : Nat} (hm : 0 < m)
    (hfit : value (lengthOf p.context.noteContext n) = m * value each) (hpos : 0 < value each) :
    ∃ notes : List (Note R), p.dialect.Reads memory text notes ∧
      StandFor p.dialect.settings.notes.length (.note n) notes := by
  obtain ⟨notes, hreads, -, hfill, hstands⟩ := h
  have hlong : 0 < value (lengthOf p.context.noteContext n) := by
    rw [hfit]
    positivity
  exact ⟨notes, hreads, (hstands hlong).mpr (hfill.mpr ⟨m, hm, hfit⟩)⟩

/-- Shares that are read as they are written stand for their chord. -/
theorem Shares.legible (laws : Scalar.Exact value) {p : Parser R} {memory : Memory} {c : Chord R} {count : Nat}
    {text : Text} (h : Shares value p memory c count text) (hcount : 0 < count)
    (hlegible : Length.Legible (lengthOf p.context.noteContext c.root / (count : R)))
    (hpos : 0 < value (lengthOf p.context.noteContext c.root)) :
    ∃ notes : List (Note R), p.dialect.Reads memory text notes ∧
      StandFor p.dialect.settings.notes.length (.chord c) notes := by
  obtain ⟨notes, hreads, -, hfill, hstands⟩ := h hlegible.readable
  have hreread := ((laws.beq_iff _ _).mp hlegible.beq_reread).symm
  have hshare : 0 < value (lengthOf p.context.noteContext c.root / (count : R)) := by
    rw [laws.div, laws.natCast]
    positivity
  exact ⟨notes, hreads, (hstands hpos (hreread.symm ▸ hshare)).mpr (hfill.mpr hreread)⟩

section

variable (laws : Scalar.Exact value) {p : Parser R} (hsettings : p.dialect.settings.notes.Sound)
  (hspares : p.dialect.chords.Spares R) (memory : Memory)

include laws hspares

/-- Notes of a chord, each written for a share of it. -/
theorem shares_notes {c : Chord R} (hc : c.root.Leading) {ns : List (Note R)} (hne : ns ≠ [])
    (hns : ∀ n ∈ ns, n ∈ c.notes) {sep : Char} (hsep : sep = ' ' ∨ sep = '_') :
    Shares value p memory c ns.length (Text.join [sep] (ns.map fun n =>
      piece n.value (pieceSuffix (lengthOf p.context.noteContext c.root / ((ns.length : Nat) : R)) c.root))) := by
  intro hreadable
  have hle : ∀ v ∈ ns.map Note.value, v ≤ maxData :=
    List.forall_mem_map.mpr fun n hn => (Chord.ranged_notes hc.ranged n (hns n hn)).value
  obtain ⟨notes, hreads, hlength, hrow⟩ :=
    reads_pieces hspares hc.ranged hreadable memory hsep (by simpa using hne) hle
  have hcount : (0 : Rat) < ns.length := by exact_mod_cast List.length_pos_of_ne_nil hne
  rw [List.length_map] at hlength
  have hspan : span value notes = notes.length * value (Length.reread _) := hrow.span_eq
  rw [hlength] at hspan
  have hshare : value (lengthOf p.context.noteContext c.root) =
      ns.length * value (lengthOf p.context.noteContext c.root / ((ns.length : Nat) : R)) := by
    rw [laws.div, laws.natCast, mul_div_cancel₀ _ hcount.ne']
  refine ⟨notes, ?_, hspan, ?_, fun hpos heach => hrow.standFor_iff laws heach (e := .chord c) hc hpos⟩
  · rw [List.map_map] at hreads
    exact hreads
  · rw [hspan, hshare, mul_right_inj' hcount.ne']
    exact ⟨fun h => laws.injective h, congrArg value⟩

include hsettings

theorem tiles_trill {params text : Text} (h : writeTrill p.context.noteContext params = .ok text) :
    ∃ (note : Text) (options : List Text) (n : Note R) (each : R), Params.split params = note :: options ∧
      trillNote p.context.noteContext (Text.upper note) = .ok n ∧ trillPiece params options[1]? = .ok each ∧
        Tiles value p memory n each text := by
  obtain ⟨note, options, n, each, above, hsplit, hnote, hpiece, habove, rfl⟩ := writeTrill_eq_ok h
  refine ⟨note, options, n, each, hsplit, hnote, hpiece, ?_⟩
  obtain ⟨k, hk, rfl⟩ := exists_halved_of_trillPiece hpiece
  have hlegible := Length.legible_halved (R := R) laws hk
  have hreread : Length.reread (Length.halved k : R) = Length.halved k :=
    ((laws.beq_iff _ _).mp hlegible.beq_reread).symm
  have hpos : 0 < value (Length.halved k : R) := by
    rw [Length.value_halved laws]
    positivity
  have hleading : n.Leading := leading_of_read hsettings (read_of_trillNote hnote)
  -- the numbers of the two notes by turns, which is all that the pieces differ in
  obtain ⟨vs, hvs⟩ : ∃ vs : List Nat, vs = (List.range (max 1 (Scalar.round
      (lengthOf p.context.noteContext n / Length.halved k)))).map fun i => if i % 2 = 0 then n.value else above :=
    ⟨_, rfl⟩
  have hcount : vs.length = max 1 (Scalar.round (lengthOf p.context.noteContext n / Length.halved k)) := by
    rw [hvs, List.length_map, List.length_range]
  have hne : vs ≠ [] := List.ne_nil_of_length_pos (hcount.symm ▸ Nat.le_max_left 1 _)
  have hle : ∀ v ∈ vs, v ≤ maxData := by
    rw [hvs, List.forall_mem_map]
    intro i _
    split
    · exact hleading.ranged.value
    · exact habove
  obtain ⟨notes, hreads, hlength, hrow⟩ :=
    reads_pieces hspares hleading.ranged hlegible.readable memory (.inl rfl) hne hle
  have hspan : span value notes = (max 1 (Scalar.round (lengthOf p.context.noteContext n / Length.halved k)) : Nat) *
      value (Length.halved k : R) := by
    rw [hrow.span_eq, hlength, hcount, hreread]
  have hfill := @pieces_fill_iff (value (lengthOf p.context.noteContext n)) _ hpos
  rw [← laws.div, ← laws.round, ← hspan] at hfill
  refine ⟨notes, ?_, hspan, hfill,
    fun hlong => hrow.standFor_iff laws (hreread.symm ▸ hpos) (e := .note n) hleading hlong⟩
  rw [hvs, List.map_map] at hreads
  exact hreads

theorem shares_arpeggio {params text : Text} (h : writeArpeggio p.context.noteContext params = .ok text) :
    ∃ c : Chord R, wholeChord? p.context.noteContext (Text.upper (Text.trim params)) = .ok (some c) ∧
      Shares value p memory c c.notes.length text := by
  obtain ⟨c, hchord, rfl⟩ := writeArpeggio_eq_ok h
  obtain ⟨bass, above, hv⟩ := c.exists_voiced
  have hne : c.notes ≠ [] := hv.notes ▸ List.cons_ne_nil _ _
  exact ⟨c, hchord, shares_notes laws hspares memory
    (leading_of_read hsettings (read_of_wholeChord? hchord)) hne (fun _ => id) (.inr rfl)⟩

theorem shares_broken {chord indexes text : Text} (h : writeBroken p.context.noteContext chord indexes = .ok text) :
    ∃ c : Chord R, wholeChord? p.context.noteContext chord = .ok (some c) ∧
      Shares value p memory c (Text.fields ',' indexes).length text := by
  obtain ⟨c, played, hchord, hplayed, rfl⟩ := writeBroken_eq_ok h
  have hlength := Ornaments.length_of_mapM hplayed
  have hne : played ≠ [] :=
    List.ne_nil_of_length_pos (hlength ▸ List.length_pos_of_ne_nil (Text.fields_ne_nil ',' indexes))
  have hmem : ∀ n ∈ played, n ∈ c.notes := fun n hn => by
    obtain ⟨index, -, hindex⟩ := Ornaments.mem_of_mapM hplayed hn
    exact mem_of_indexed hindex
  rw [← hlength]
  exact ⟨c, hchord, shares_notes laws hspares memory
    (leading_of_read hsettings (read_of_wholeChord? hchord)) hne hmem (.inl rfl)⟩

end

end Ornament

open Ornament

namespace Parser

/-- How notes are read where nothing has been set. -/
abbrev usualNotes : NoteContext Rat := (standard : Parser Rat).context.noteContext

/-- Where what follows a text starts that is played by itself. -/
def reach (text : Text) : Rat :=
  let sequencer := (Sequencer.start 128 (1 / 4 : Rat)).1
  (sequencer.hearAll ((standard : Parser Rat).readText text).events).1.timeline.cursor.latest

end Parser

end ScoreText
