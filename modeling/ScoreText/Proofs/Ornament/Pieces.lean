import ScoreText.Notation.Ornament
import ScoreText.Proofs.Notation.Composing
import ScoreText.Proofs.Sequence.Bounds

/-!
Notes that an ornament writes: a number in brackets, a length and velocities. They are read as that many notes of
that length, whether they stand apart or are joined.
-/

set_option autoImplicit false

namespace ScoreText

open NoteContext

variable {R : Type} [Scalar R]

theorem Text.not_mem_join {sep : Text} {c : Char} (hsep : c ∉ sep) {gs : List Text} (h : ∀ g ∈ gs, c ∉ g) :
    c ∉ Text.join sep gs := by
  induction gs with
  | nil => exact List.not_mem_nil
  | cons g rest ih =>
    obtain ⟨hg, hrest⟩ := List.forall_mem_cons.mp h
    cases rest with
    | nil => exact hg
    | cons g' rest =>
      rw [Text.join, List.mem_append, List.mem_append, not_or, not_or]
      exact ⟨⟨hg, hsep⟩, ih hrest⟩

/-- A note that was read at the front of a group: it opens the group, and has no length where none was written. -/
structure Note.Leading (n : Note R) : Prop where
  ranged : n.Ranged
  unwritten : n.lengthWritten = false → n.length = ((0 : Nat) : R)
  isFirst : n.isFirst = true
  isHarmonic : n.isHarmonic = false

theorem leading_of_readElement {ctx : NoteContext R} (hctx : ctx.settings.Sound) {text s rest : Text}
    {e : Element R} (h : ctx.readElement text s = .ok (e, rest)) : (join .opening e).lead.Leading := by
  have hranged : (join .opening e).lead.Ranged := ranged_join (ranged_readElement hctx h)
  -- a tone and a root have no length and no place in a group, and what follows them gives no place
  have hread : ∀ {m n : Note R} {s left : Text}, m.Unsuffixed → m.Apart → m.length = ((0 : Nat) : R) →
      readSuffix text m s = .ok (n, left) → (n.lengthWritten = false → n.length = ((0 : Nat) : R)) ∧
        n.isHarmonic = false := fun hm hapart hlength hn =>
    have hsuffixed := readSuffix_eq_ok hm hn
    ⟨fun hw => (hsuffixed.unwritten hw).trans hlength, (hsuffixed.apart hapart).isHarmonic⟩
  obtain ⟨⟨tone, afterTone⟩, htone, h⟩ := ok_of_bind h
  obtain ⟨hbare, hplace⟩ : tone.Bare ∧ tone.Apart := ⟨(readTone_eq_ok htone).bare, (readTone_eq_ok htone).apart⟩
  have hset : ({ tone with attack := ctx.settings.attack, decay := ctx.settings.decay } : Note R).Unsuffixed :=
    ⟨hctx.attack, hctx.decay, hbare.startsTie⟩
  dsimp only at h
  split at h
  · obtain ⟨⟨n, left⟩, hn, h⟩ := ok_of_bind h
    cases h
    obtain ⟨hlength, hharmonic⟩ :=
      hread hset ⟨hplace.isFirst, hplace.isMelodic, hplace.isHarmonic⟩ hbare.length hn
    exact ⟨hranged, hlength, rfl, hharmonic⟩
  · obtain ⟨root, hroot, h⟩ := ok_of_bind h
    obtain ⟨⟨inversion, afterInversion⟩, -, h⟩ := ok_of_bind h
    obtain ⟨⟨n, left⟩, hn, h⟩ := ok_of_bind h
    cases h
    rw [chordRoot_same hroot] at hn
    obtain ⟨hlength, hharmonic⟩ := hread (m := { tone with
      attack := ctx.settings.attack, decay := ctx.settings.decay, value := root.value })
      ⟨hset.attack_le, hset.decay_le, hset.startsTie⟩ ⟨hplace.isFirst, hplace.isMelodic, hplace.isHarmonic⟩
      hbare.length hn
    cases inversion <;> exact ⟨hranged, hlength, rfl, hharmonic⟩

theorem leading_of_read {ctx : NoteContext R} (hctx : ctx.settings.Sound) {text rest : Text} {e : Element R}
    (h : ctx.read text = .ok ([e], rest)) : e.lead.Leading := by
  obtain ⟨⟨element, left⟩, helement, h⟩ := ok_of_bind h
  have hleading := leading_of_readElement hctx helement
  dsimp only at h
  split at h
  · cases h
    exact hleading
  · obtain ⟨⟨more, last⟩, -, h⟩ := ok_of_bind h
    cases h
    exact hleading

theorem join_note {R : Type} (joint : Joint) (m : Note R) : join joint (.note m) = .note (joint.mark m) := by
  cases joint <;> rfl

theorem Joint.length_mark {R : Type} (joint : Joint) (m : Note R) : (joint.mark m).length = m.length := by
  cases joint <;> rfl

theorem Joint.place_mark {R : Type} {joint : Joint} {m : Note R} (h : joint ≠ .harmonic) (hm : m.Apart) :
    (joint = .opening → (joint.mark m).isFirst = true) ∧ (joint.mark m).isHarmonic = false := by
  cases joint with
  | opening => exact ⟨fun _ => rfl, hm.isHarmonic⟩
  | harmonic => exact absurd rfl h
  | melodic => exact ⟨nofun, hm.isHarmonic⟩

/-- A number in brackets is read as the note of that number. -/
theorem readTone_numbered (ctx : NoteContext R) (text : Text) {v : Nat} (hv : v ≤ maxData) (rest : Text) :
    ctx.readTone text ('[' :: (Text.ofNat v ++ ']' :: rest)) =
      .ok ({ (Note.ofValue v : Note R) with
        octaveWritten := true, isPercussion := Symbols.percussionName? v == some (Text.ofNat v) }, rest) := by
  have hbracket : ']' ∉ Text.ofNat v := fun h => absurd (Text.isDigit_of_mem_ofNat h) (by decide)
  have hdigits : (!(Text.ofNat v).isEmpty && (Text.ofNat v).all Char.isDigit) = true := by
    rw [Bool.and_eq_true, List.all_eq_true]
    exact ⟨by simp [Text.ofNat_ne_nil], fun c hc => Text.isDigit_of_mem_ofNat hc⟩
  have hnumber : readNumber .badNoteNumber .note text (Text.ofNat v) = .ok v := by
    rw [readNumber, Numeral.nat?_ofNat (hv.trans (by decide +kernel))]
    exact (checkRange_eq_ok_iff _ _ _ _ _).mpr ⟨rfl, Nat.zero_le _, hv⟩
  simp only [readTone, readBracketed, Text.cut?_append hbracket, hdigits, if_true, hnumber, bind, Except.bind, pure,
    Except.pure]

/-- No name of the table is found at the front of what an ornament writes behind a number. -/
def ChordTable.Spares (R : Type) [Scalar R] (table : ChordTable) : Prop :=
  ∀ (length : R) (n : Note R) (rest : Text), Length.Readable length → n.Ranged → Seam rest →
    table.matchStart? (Ornament.pieceSuffix length n ++ rest) = none

/-- Notes that are read of all fields of a text, and nothing else, wherever it stands. -/
def Dialect.Reads (dialect : Dialect R) (memory : Memory) (text : Text) (notes : List (Note R)) : Prop :=
  ∀ position, Parser.readFragments dialect position memory (Text.fields ' ' text) =
    ⟨notes.map .note, memory, .ok ()⟩

namespace Ornament

/-- Notes of a length, read one behind the other from the front of a group. -/
structure Row (length : R) (notes : List (Note R)) : Prop where
  opens : ∀ n ∈ notes.head?, n.isFirst = true
  onward : ∀ n ∈ notes, n.isHarmonic = false
  lasts : ∀ n ∈ notes, n.length = length

/-- A note of a length, as an ornament writes it after the velocities of another. -/
def like (length : R) (n : Note R) : Note R :=
  { n with length := length, lengthWritten := true, startsTie := false, endsTie := false, isRest := false }

theorem pieceSuffix_eq (length : R) (n : Note R) : pieceSuffix length n = Text.upper (like length n).suffix := by
  simp only [pieceSuffix, like, Note.suffix, Bool.false_eq_true, if_false, if_true, List.nil_append,
    List.append_nil]
  rfl

theorem spelled_like {n : Note R} (h : n.Ranged) {length : R} (hl : Length.Readable length) :
    (like length n).Spelled :=
  ⟨h.attack, h.decay, fun _ => hl, fun _ => rfl, fun hrest => nomatch hrest⟩

theorem piece_append (v : Nat) (length : R) (n : Note R) (rest : Text) :
    piece v (pieceSuffix length n) ++ rest = '[' :: (Text.ofNat v ++ ']' :: (pieceSuffix length n ++ rest)) := by
  simp [piece]

theorem exists_bracket (sep : Text) (length : R) (n : Note R) (v : Nat) (vs : List Nat) : ∃ later,
    Text.join sep ((v :: vs).map fun w => piece w (pieceSuffix length n)) = '[' :: later := by
  cases vs <;> exact ⟨_, rfl⟩

theorem length_le_join (sep : Text) (length : R) (n : Note R) (vs : List Nat) :
    vs.length ≤ (Text.join sep (vs.map fun w => piece w (pieceSuffix length n))).length := by
  induction vs with
  | nil => exact Nat.le_refl 0
  | cons v rest ih =>
    cases rest with
    | nil => simp [Text.join, piece]
    | cons w rest =>
      simp only [List.map_cons, Text.join, List.length_cons, List.length_append, piece] at ih ⊢
      omega

theorem space_not_mem_piece {n : Note R} (h : n.Ranged) {length : R} (hl : Length.Readable length) (v : Nat) :
    ' ' ∉ piece v (pieceSuffix length n) := by
  intro hmem
  rw [piece, List.mem_append, List.mem_append, List.mem_append] at hmem
  rcases hmem with ((hmem | hmem) | hmem) | hmem
  · exact absurd hmem (by decide)
  · exact absurd (Text.isDigit_of_mem_ofNat hmem) (by decide)
  · exact absurd hmem (by decide)
  · have hplain := (spelled_like h hl).plain_suffix
    rw [pieceSuffix_eq, Expansion.upper_of_ascii fun c hc => (Expansion.plainChar_spec (hplain c hc).1).1] at hmem
    obtain ⟨c, hc, heq⟩ := List.mem_map.mp hmem
    have hraised := Expansion.plainChar_toUpper (hplain c hc).1
    rw [heq] at hraised
    exact absurd hraised (by decide)

end Ornament

open Ornament

theorem ChordTable.spares_standard : ChordTable.standard.Spares R := fun _ _ _ _ _ hrest => by
  rw [pieceSuffix_eq]
  exact matchStart?_none (Follows.suffix _ hrest).calm

section Reading

variable {ctx : NoteContext R} (hspares : ctx.chords.Spares R) {n : Note R} (hn : n.Ranged) {length : R}
  (hl : Length.Readable length)

include hspares hn hl

/-- A piece is read as a note of what its length is read as. -/
theorem readElement_piece (text : Text) {v : Nat} (hv : v ≤ maxData) {rest : Text} (h : Seam rest) :
    ∃ m : Note R, ctx.readElement text (piece v (pieceSuffix length n) ++ rest) = .ok (.note m, rest) ∧
      m.length = Length.reread length ∧ m.Apart := by
  let tone : Note R := { (Note.ofValue v : Note R) with
    octaveWritten := true
    isPercussion := Symbols.percussionName? v == some (Text.ofNat v)
    attack := ctx.settings.attack
    decay := ctx.settings.decay }
  have hunnamed : ctx.matchChord? tone (pieceSuffix length n ++ rest) = none := hspares length n rest hl hn h
  obtain ⟨attack, decay, hsuffix⟩ := Note.readSuffix_spelled text (m := tone) (spelled_like hn hl) rfl rfl rfl h
  rw [← pieceSuffix_eq] at hsuffix
  refine ⟨{ tone.dressed (like length n) with attack := attack, decay := decay }, ?_, rfl, rfl, rfl, rfl⟩
  rw [piece_append, readElement, readTone_numbered ctx text hv]
  simp only [bind, Except.bind]
  rw [hunnamed]
  change (readSuffix text tone (pieceSuffix length n ++ rest)).bind
    (fun read => .ok (Element.note read.1, read.2)) = _
  rw [hsuffix]
  rfl

/-- Joined pieces are read one behind the other. -/
theorem readJoined_pieces (text : Text) {v : Nat} {vs : List Nat} (hvs : ∀ w ∈ v :: vs, w ≤ maxData)
    {fuel : Nat} (hfuel : vs.length < fuel) {joint : Joint} (hjoint : joint ≠ .harmonic) :
    ∃ notes : List (Note R), ctx.readJoined text fuel joint
        (Text.join ['_'] ((v :: vs).map fun w => piece w (pieceSuffix length n))) = .ok (notes.map .note, []) ∧
      notes.length = vs.length + 1 ∧ (joint = .opening → ∀ m ∈ notes.head?, m.isFirst = true) ∧
      ∀ m ∈ notes, m.isHarmonic = false ∧ m.length = Length.reread length := by
  induction vs generalizing v fuel joint with
  | nil =>
    obtain ⟨fuel, rfl⟩ : ∃ k, fuel = k + 1 := ⟨fuel - 1, by omega⟩
    obtain ⟨m, hread, hm, hapart⟩ := readElement_piece hspares hn hl text (hvs v List.mem_cons_self)
      (by simp [Seam] : Seam [])
    rw [List.append_nil] at hread
    obtain ⟨hfirst, honward⟩ := joint.place_mark hjoint hapart
    refine ⟨[joint.mark m], ?_, rfl, fun ho k hk => Option.some.inj hk ▸ hfirst ho,
      List.forall_mem_singleton.mpr ⟨honward, (joint.length_mark m).trans hm⟩⟩
    rw [List.map_singleton, Text.join, readJoined, hread]
    simp only [bind, Except.bind, readJoint?, join_note, pure, Except.pure, List.map_cons, List.map_nil]
  | cons w rest ih =>
    obtain ⟨fuel, rfl⟩ : ∃ k, fuel = k + 1 := ⟨fuel - 1, by omega⟩
    obtain ⟨hv, hrest⟩ := List.forall_mem_cons.mp hvs
    have hfuel' : rest.length < fuel := by
      rw [List.length_cons] at hfuel
      omega
    obtain ⟨notes, hmore, hcount, -, hnotes⟩ := ih hrest hfuel' (by decide : Joint.melodic ≠ .harmonic)
    obtain ⟨later, hlater⟩ := exists_bracket ['_'] length n w rest
    obtain ⟨m, hread, hm, hapart⟩ := readElement_piece hspares hn hl text hv
      (by simp [Seam] : Seam ('_' :: '[' :: later))
    obtain ⟨hfirst, honward⟩ := joint.place_mark hjoint hapart
    refine ⟨joint.mark m :: notes, ?_, by rw [List.length_cons, hcount, List.length_cons],
      fun ho k hk => Option.some.inj hk ▸ hfirst ho,
      List.forall_mem_cons.mpr ⟨⟨honward, (joint.length_mark m).trans hm⟩, hnotes⟩⟩
    have htext : Text.join ['_'] ((v :: w :: rest).map fun w => piece w (pieceSuffix length n)) =
        piece v (pieceSuffix length n) ++ '_' :: '[' :: later := by
      simp only [List.map_cons] at hlater ⊢
      rw [Text.join, hlater, List.append_assoc]
      rfl
    have hjoint? : readJoint? ('_' :: '[' :: later) = some (.melodic, '[' :: later) := rfl
    rw [hlater] at hmore
    rw [htext, readJoined, hread]
    simp only [bind, Except.bind, hjoint?, hmore, join_note, pure, Except.pure, List.map_cons]

end Reading

section Fields

variable {dialect : Dialect R} (hspares : dialect.chords.Spares R) {n : Note R} (hn : n.Ranged) {length : R}
  (hl : Length.Readable length) (memory : Memory)

theorem readFragment_notes {memory : Memory} {f : Text} (hf : f.head? = some '[') {notes : List (Note R)}
    (h : (Context.mk dialect memory).noteContext.read f = .ok (notes.map .note, [])) (position : Nat) :
    Parser.readFragment dialect f.length position memory f = ⟨notes.map .note, memory, .ok ()⟩ := by
  obtain ⟨r, rfl⟩ := List.head?_eq_some_iff.mp hf
  refine readFragment_ok (List.cons_ne_nil _ _) (Form.family_note (by decide) (by decide)) ?_ position
  rw [Family.read, Fragment.readNotes, h]
  simp [bind, Except.bind, pure, Except.pure, Family.settled, Fragment.elementEvent]

include hspares hn hl

/-- The notes of a group of pieces. -/
theorem read_pieces {v : Nat} {vs : List Nat} (hvs : ∀ w ∈ v :: vs, w ≤ maxData) :
    ∃ notes : List (Note R), (∀ position, Parser.readFragment dialect
        (Text.join ['_'] ((v :: vs).map fun w => piece w (pieceSuffix length n))).length position memory
        (Text.join ['_'] ((v :: vs).map fun w => piece w (pieceSuffix length n))) =
          ⟨notes.map .note, memory, .ok ()⟩) ∧
      notes.length = vs.length + 1 ∧ Row (Length.reread length) notes := by
  generalize htext : Text.join ['_'] ((v :: vs).map fun w => piece w (pieceSuffix length n)) = text
  have hfuel : vs.length < text.length + 1 := by
    have hle := length_le_join ['_'] length n (v :: vs)
    rw [htext, List.length_cons] at hle
    omega
  have hctx : (Context.mk dialect memory).noteContext.chords.Spares R := hspares
  obtain ⟨notes, hread, hcount, hopens, hnotes⟩ :=
    readJoined_pieces hctx hn hl text hvs hfuel (by decide : Joint.opening ≠ .harmonic)
  rw [htext] at hread
  obtain ⟨later, hlater⟩ := exists_bracket ['_'] length n v vs
  exact ⟨notes, readFragment_notes (by rw [← htext, hlater]; rfl) hread, hcount, hopens rfl,
    fun m hm => (hnotes m hm).1, fun m hm => (hnotes m hm).2⟩

/-- The notes of pieces that stand apart. -/
theorem readFragments_pieces {vs : List Nat} (hvs : ∀ w ∈ vs, w ≤ maxData) :
    ∃ notes : List (Note R), (∀ position, Parser.readFragments dialect position memory
        (vs.map fun w => piece w (pieceSuffix length n)) = ⟨notes.map .note, memory, .ok ()⟩) ∧
      notes.length = vs.length ∧ Row (Length.reread length) notes := by
  induction vs with
  | nil => exact ⟨[], fun _ => rfl, rfl, by simp, by simp, by simp⟩
  | cons v rest ih =>
    obtain ⟨hv, hrest⟩ := List.forall_mem_cons.mp hvs
    obtain ⟨first, hfirst, hone, hrow⟩ :=
      read_pieces hspares hn hl memory (List.forall_mem_singleton.mpr hv : ∀ w ∈ v :: [], w ≤ maxData)
    obtain ⟨more, hmore, hcount, hrest⟩ := ih hrest
    simp only [List.map_singleton, Text.join] at hfirst
    refine ⟨first ++ more, fun position => ?_, ?_, ?_⟩
    · simp only [List.map_cons, Parser.readFragments, hfirst, Outcome.andThen, hmore, List.map_append]
    · rw [List.length_append, hone, hcount, List.length_cons]
      exact Nat.add_comm _ _
    · have hhead : (first ++ more).head? = first.head? :=
        List.head?_append_of_ne_nil _ (List.ne_nil_of_length_eq_add_one hone)
      exact ⟨hhead ▸ hrow.opens, List.forall_mem_append.mpr ⟨hrow.onward, hrest.onward⟩,
        List.forall_mem_append.mpr ⟨hrow.lasts, hrest.lasts⟩⟩

/-- An ornament is read as its notes, whether they are joined or stand apart. -/
theorem reads_pieces {sep : Char} (hsep : sep = ' ' ∨ sep = '_') {vs : List Nat} (hne : vs ≠ [])
    (hvs : ∀ w ∈ vs, w ≤ maxData) : ∃ notes : List (Note R),
      dialect.Reads memory (Text.join [sep] (vs.map fun w => piece w (pieceSuffix length n))) notes ∧
        notes.length = vs.length ∧ Row (Length.reread length) notes := by
  have hspace : ∀ g ∈ vs.map fun w => piece w (pieceSuffix length n), ' ' ∉ g :=
    List.forall_mem_map.mpr fun w _ => space_not_mem_piece hn hl w
  rcases hsep with rfl | rfl
  · obtain ⟨notes, hread, hcount, hrow⟩ := readFragments_pieces hspares hn hl memory hvs
    refine ⟨notes, fun position => ?_, hcount, hrow⟩
    rw [Text.fields_join (by simpa using hne) hspace, hread]
  · obtain ⟨v, vs, rfl⟩ := List.exists_cons_of_ne_nil hne
    obtain ⟨notes, hread, hcount, hrow⟩ := read_pieces hspares hn hl memory hvs
    refine ⟨notes, fun position => ?_, hcount, hrow⟩
    rw [Text.fields_self (Text.not_mem_join (by decide) hspace), Parser.readFragments, hread]
    simp only [Outcome.andThen, Parser.readFragments, List.append_nil]

end Fields

end ScoreText
