import ScoreText.Proofs.Bytes.Locality

/-!
The front of a text that is read. Notes, rests and chords, joined as they are, end where nothing goes on with them,
and that much of the text by itself is read as the same elements, to the last field of them.
-/

set_option autoImplicit false

namespace ScoreText

namespace NoteContext

open Text

variable {R : Type} [Scalar R] (ctx : NoteContext R)

/-! ### Elements -/

theorem matchChord?_none {R : Type} {ctx : NoteContext R} {note : Note R} {s front : Text}
    (h : ctx.matchChord? note s = none) (hfront : front <+: s) : ctx.matchChord? note front = none := by
  unfold matchChord? at h ⊢
  split at h
  · exact if_pos ‹_›
  · rw [if_neg ‹_›, ChordTable.matchStart?, List.find?_eq_none]
    intro e he hstart
    refine List.find?_eq_none.mp h e he ?_
    exact List.isPrefixOf_iff_prefix.mpr ((List.isPrefixOf_iff_prefix.mp hstart).trans hfront)

/-- The longest name at the front of a text is the longest one at the front of what ends after it. -/
theorem matchChord?_some {R : Type} {ctx : NoteContext R} {note : Note R} {s name : Text}
    {intervals : Intervals} (h : ctx.matchChord? note s = some (name, intervals)) :
    ∃ rest, s = name ++ rest ∧
      ∀ front, front <+: rest → ctx.matchChord? note (name ++ front) = some (name, intervals) := by
  unfold matchChord? at h ⊢
  split at h
  · cases h
  · obtain ⟨hstart, before, later, hentries, hbefore⟩ := List.find?_eq_some_iff_append.mp h
    obtain ⟨rest, rfl⟩ := List.isPrefixOf_iff_prefix.mp hstart
    refine ⟨rest, rfl, fun front hfront => ?_⟩
    rw [if_neg ‹_›]
    refine List.find?_eq_some_iff_append.mpr
      ⟨List.isPrefixOf_iff_prefix.mpr (List.prefix_append name front), before, later, hentries, fun e he => ?_⟩
    have hother := hbefore e he
    rw [Bool.not_eq_true', Bool.eq_false_iff] at hother ⊢
    intro hstarts
    refine hother (List.isPrefixOf_iff_prefix.mpr ((List.isPrefixOf_iff_prefix.mp hstarts).trans ?_))
    exact (List.prefix_append_right_inj name).mpr hfront

/-- A chord of a name and its intervals over a root. -/
def chordElement {R : Type} (name : Text) (intervals : Intervals) (inversion : Inversion R) (root : Note R) :
    Element R :=
  let chord : Chord R := { root := root, intervals := intervals, name := some name }
  .chord <|
    match inversion with
    | .count n => chord.withInversion n
    | .bass bass => chord.withBass bass

/-- What comes after the name of a chord. -/
def readChord (name : Text) (intervals : Intervals) (root : Note R) (text s : Text) :
    Except Error (Element R × Text) :=
  ctx.readInversion text 0 s >>= fun inversion =>
    readSuffix text root inversion.2 >>= fun p => .ok (chordElement name intervals inversion.1 p.1, p.2)

theorem local_readChord (name : Text) (intervals : Intervals) (root : Note R) (s : Text) :
    ReadsLocally (ctx.readChord name intervals root) s :=
  (ctx.local_readInversion 0 s).bind fun inversion left _ =>
    (local_readSuffix root left).bind fun root _ _ => .ok (chordElement name intervals inversion root)

/-- What comes after a tone, of a note or of a chord. -/
def readDressed (tone : Note R) (text s : Text) : Except Error (Element R × Text) :=
  match ctx.matchChord? tone s with
  | none => readSuffix text tone s >>= fun p => .ok (.note p.1, p.2)
  | some (name, intervals) =>
    ctx.chordRoot tone >>= fun root => ctx.readChord name intervals root text (s.drop name.length)

theorem local_readDressed (tone : Note R) (s : Text) : ReadsLocally (ctx.readDressed tone) s := by
  cases hname : ctx.matchChord? tone s with
  | none =>
    have hnote : ReadsLocally (fun text s => readSuffix text tone s >>= fun p => .ok (Element.note p.1, p.2)) s :=
      (local_readSuffix tone s).bind fun note _ _ => .ok (Element.note note)
    exact hnote.congr fun text front hfront => by rw [readDressed, matchChord?_none hname hfront]
  | some named =>
    obtain ⟨name, intervals⟩ := named
    obtain ⟨rest, rfl, hmatch⟩ := matchChord?_some hname
    have hchord : ReadsLocally (fun text s => ctx.chordRoot tone >>= fun root =>
        ctx.readChord name intervals root text s) rest :=
      .bind_value (x := fun _ => ctx.chordRoot tone) (fun _ _ h _ => h) fun root =>
        ctx.local_readChord name intervals root rest
    refine hchord.skip name fun text front hfront => ?_
    rw [readDressed, hmatch front hfront]
    dsimp only
    rw [List.drop_left]

theorem readElement_eq (text s : Text) : ctx.readElement text s = ctx.readTone text s >>= fun p =>
    ctx.readDressed { p.1 with attack := ctx.settings.attack, decay := ctx.settings.decay } text p.2 := by
  rw [readElement]
  refine bind_congr fun p => ?_
  dsimp only [readDressed]
  cases ctx.matchChord? { p.1 with attack := ctx.settings.attack, decay := ctx.settings.decay } p.2 with
  | none => rfl
  | some named => rfl

theorem local_readElement (s : Text) : ReadsLocally ctx.readElement s := by
  have hparts : ReadsLocally (fun text s => ctx.readTone text s >>= fun p =>
      ctx.readDressed { p.1 with attack := ctx.settings.attack, decay := ctx.settings.decay } text p.2) s :=
    (ctx.local_readTone s).bind fun tone left _ =>
      ctx.local_readDressed { tone with attack := ctx.settings.attack, decay := ctx.settings.decay } left
  exact hparts.congr fun text front _ => ctx.readElement_eq text front

/-! ### Joined elements -/

/-- With time enough, all joined elements are read. -/
theorem readJoined_fuel {fuel limit : Nat} {s : Text} (hfuel : s.length < fuel) (hlimit : s.length < limit)
    (text : Text) (joint : Joint) : ctx.readJoined text fuel joint s = ctx.readJoined text limit joint s := by
  induction fuel generalizing limit joint s with
  | zero => exact absurd hfuel (Nat.not_lt_zero _)
  | succ fuel ih =>
    obtain ⟨limit, rfl⟩ : ∃ n, limit = n + 1 := ⟨limit - 1, by omega⟩
    rw [readJoined, readJoined]
    cases helement : ctx.readElement text s with
    | error e => rfl
    | ok p =>
      obtain ⟨element, left⟩ := p
      have hleft := ((ctx.keeps_readElement text s).suffix _ _ helement).trans (List.tail_suffix s)
      dsimp only [bind, Except.bind]
      split
      · rfl
      · rename_i next after hjoint
        have hshorter := Nat.lt_of_lt_of_le (Scanner.length_readJoint? hjoint) hleft.length_le
        have hmore : ctx.readJoined text fuel next after = ctx.readJoined text limit next after :=
          ih (by omega) (by omega) next
        rw [hmore]

/-- What comes after an element that is joined as it is. -/
def readOnward (joint : Joint) (element : Element R) (text s : Text) : Except Error (List (Element R) × Text) :=
  match readJoint? s with
  | none => .ok ([join joint element], s)
  | some (next, s) =>
    ctx.readJoined text (s.length + 1) next s >>= fun p => .ok (join joint element :: p.1, p.2)

theorem readJoined_eq (joint : Joint) (text s : Text) : ctx.readJoined text (s.length + 1) joint s =
    ctx.readElement text s >>= fun p => ctx.readOnward joint p.1 text p.2 := by
  rw [readJoined]
  cases helement : ctx.readElement text s with
  | error e => rfl
  | ok p =>
    obtain ⟨element, left⟩ := p
    have hleft := ((ctx.keeps_readElement text s).suffix _ _ helement).trans (List.tail_suffix s)
    dsimp only [bind, Except.bind, readOnward]
    cases hjoint : readJoint? left with
    | none => rfl
    | some next =>
      have hshorter := Nat.lt_of_lt_of_le (Scanner.length_readJoint? hjoint) hleft.length_le
      dsimp only
      rw [ctx.readJoined_fuel hshorter (Nat.lt_succ_self _)]
      rfl

/-- How a character joins a note that starts with another. -/
def jointOf? (c d : Char) : Option Joint :=
  if startsNote d then if c = '+' then some .harmonic else if c = '_' then some .melodic else none else none

theorem readJoint?_cons (c d : Char) (r : Text) :
    readJoint? (c :: d :: r) = (jointOf? c d).map fun joint => (joint, d :: r) := by
  rw [readJoint?, jointOf?]
  split
  · split
    · rfl
    · split <;> rfl
  · rfl

theorem readJoint?_none {s front : Text} (h : readJoint? s = none) (hfront : front <+: s) :
    readJoint? front = none := by
  match front, hfront with
  | [], _ => rfl
  | [c], _ => rfl
  | c :: d :: r, ⟨more, hmore⟩ =>
    subst hmore
    rw [List.cons_append, List.cons_append, readJoint?_cons, Option.map_eq_none_iff] at h
    rw [readJoint?_cons, h]
    rfl

/-- What joins a note is told by the note's first character, which is left. -/
theorem readJoint?_some {s after : Text} {joint : Joint} (h : readJoint? s = some (joint, after)) :
    ∃ c d r, s = c :: after ∧ after = d :: r ∧ ∀ r', readJoint? (c :: d :: r') = some (joint, d :: r') := by
  match s with
  | [] => cases h
  | [c] => cases h
  | c :: d :: r =>
    rw [readJoint?_cons] at h
    obtain ⟨other, hother, heq⟩ := Option.map_eq_some_iff.mp h
    cases heq
    exact ⟨c, d, r, rfl, rfl, fun r' => by rw [readJoint?_cons, hother]; rfl⟩

/-- A text goes on with a joined note only if the note's first character is read. -/
theorem local_readJoined (joint : Joint) (s : Text) :
    ReadsLocally (fun text s => ctx.readJoined text (s.length + 1) joint s) s := by
  have honward : ∀ element left, left <:+ s → ReadsLocally (ctx.readOnward joint element) left := by
    intro element left hleft
    cases hjoint : readJoint? left with
    | none =>
      exact (ReadsLocally.ok [join joint element]).congr fun text front hfront => by
        rw [readOnward, readJoint?_none hjoint hfront]
    | some next =>
      obtain ⟨next, after⟩ := next
      obtain ⟨c, d, r, rfl, rfl, hnext⟩ := readJoint?_some hjoint
      have hmore : ReadsLocally (fun text s => ctx.readJoined text (s.length + 1) next s >>= fun p =>
          .ok (join joint element :: p.1, p.2)) (d :: r) :=
        (local_readJoined next (d :: r)).bind fun more rest _ => .ok (join joint element :: more)
      refine hmore.after [c] (fun text => ?_) fun text front p hfront h => ?_
      · rw [List.singleton_append, readOnward, hjoint]
      -- Where the text ends after the joint there is no note to read.
      · rcases List.prefix_cons_iff.mp hfront with rfl | ⟨front, rfl, -⟩
        · cases h
        · rw [List.singleton_append, readOnward, hnext]
          exact h
  have hparts : ReadsLocally (fun text s => ctx.readElement text s >>= fun p =>
      ctx.readOnward joint p.1 text p.2) s := (ctx.local_readElement s).bind honward
  exact hparts.congr fun text front _ => ctx.readJoined_eq joint text front
termination_by s.length
decreasing_by
  have hshorter := hleft.length_le
  rw [List.length_cons] at hshorter
  omega

/-- What is read of a text is read of the front of it that is taken, and of all between that and the text. -/
theorem read_append {text left : Text} {elements : List (Element R)} (h : ctx.read text = .ok (elements, left)) :
    ∃ taken, text = taken ++ left ∧ ∀ front, front <+: left → ctx.read (taken ++ front) = .ok (elements, front) := by
  obtain ⟨taken, htext, htaken⟩ := ctx.local_readJoined .opening text text elements left h
  exact ⟨taken, htext, fun front hfront => htaken (taken ++ front) front hfront⟩

end NoteContext

namespace Scanner

open Text

variable {R : Type} [Scalar R] (ctx : NoteContext R)

/-- What the scanner reads is what the reader of notes does, up to the place where it leaves off. -/
theorem exists_left {text : Text} {elements : List (Element R)} {n : Nat} (h : read ctx text = .ok (elements, n)) :
    ∃ left, ctx.read text = .ok (elements, left) ∧ place text left = n := by
  rw [read_eq] at h
  cases hread : ctx.read text with
  | error e =>
    rw [hread] at h
    cases h
  | ok p =>
    rw [hread] at h
    cases h
    exact ⟨p.2, rfl, rfl⟩

/-- Whatever is read of a text takes some bytes of it, as many as there are at most, and ends between two
characters; and those bytes by themselves are read the same, to the end of them. -/
theorem read_front {text : Text} {elements : List (Element R)} {n : Nat} (h : read ctx text = .ok (elements, n)) :
    0 < n ∧ n ≤ byteSize text ∧
      ∃ front left, splitAt? n text = some (front, left) ∧ text = front ++ left ∧ byteSize front = n ∧
        ctx.read text = .ok (elements, left) ∧ ctx.read front = .ok (elements, []) ∧
        read ctx front = .ok (elements, n) := by
  obtain ⟨left, hread, rfl⟩ := exists_left ctx h
  have hne : text ≠ [] := by
    rintro rfl
    cases hread
  have hpast : 0 < place text left := place_lt hne ((ctx.keeps_read text).suffix _ _ hread)
  obtain ⟨front, rfl, hfront⟩ := ctx.read_append hread
  have hplace : place (front ++ left) left = byteSize front := place_append front left
  have halone : ctx.read front = .ok (elements, []) := by
    rw [← hfront [] List.nil_prefix, List.append_nil]
  refine ⟨hpast, place_le _ _, front, left, ?_, rfl, hplace.symm, hread, halone, ?_⟩
  · rw [hplace]
    exact splitAt?_append front left
  · rw [hplace, read_eq, halone]
    rfl

/-- A chord up to a joint that joins nothing to it. -/
theorem read_front_chord : ∃ elements,
    read (Dialect.standard : Dialect Rat).noteContext "C5MAJ^A3Q.A80+^".toList = .ok (elements, 13) ∧
    read (Dialect.standard : Dialect Rat).noteContext "C5MAJ^A3Q.A80".toList = .ok (elements, 13) := by
  obtain ⟨elements, h⟩ : ∃ elements,
      read (Dialect.standard : Dialect Rat).noteContext "C5MAJ^A3Q.A80+^".toList = .ok (elements, 13) := ⟨_, rfl⟩
  obtain ⟨-, -, front, left, hsplit, -, -, -, -, hread⟩ := read_front _ h
  cases hsplit
  exact ⟨elements, h, hread⟩

end Scanner

end ScoreText
