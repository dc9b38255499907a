import ScoreText.Notation.Parser
import ScoreText.Proofs.Notation.Script

/-!
Progress in reading notes. Every reader leaves an end of the text that it is given, and none fails for
want of a family; a note takes a character at least.
-/

set_option autoImplicit false

namespace ScoreText

/-- A computation that does not fail for want of a family that claims a text. -/
def Recognizes {α : Type} (x : Except Error α) : Prop :=
  ∀ token position, x ≠ .error (.unrecognized token position)

/-- A reading of a text that recognizes it and leaves an end of it. -/
structure Keeps {α : Type} (s : Text) (x : Except Error (α × Text)) : Prop where
  recognizes : Recognizes x
  suffix : ∀ a left, x = .ok (a, left) → left <:+ s

section

variable {α β : Type} {s : Text}

theorem recognizes_ok (a : α) : Recognizes (.ok a) := fun _ _ h => nomatch h

theorem Recognizes.error {e : Error} (h : Recognizes (.error e : Except Error α)) :
    Recognizes (.error e : Except Error β) :=
  fun token position heq => h token position (congrArg Except.error (Except.error.inj heq))

theorem Recognizes.bind {x : Except Error α} {f : α → Except Error β} (hx : Recognizes x)
    (hf : ∀ a, Recognizes (f a)) : Recognizes (x >>= f) := by
  cases x with
  | ok a => exact hf a
  | error e => exact hx.error

theorem Recognizes.mapM {f : α → Except Error β} (hf : ∀ a, Recognizes (f a)) (l : List α) :
    Recognizes (l.mapM f) := by
  induction l with
  | nil => exact recognizes_ok []
  | cons a rest ih =>
    rw [List.mapM_cons]
    exact (hf a).bind fun b => ih.bind fun bs => recognizes_ok _

theorem recognizes_renderPiecesOr {render : α → Except Error Text} (h : ∀ a, Recognizes (render a))
    (pieces : List (Text.Piece α)) : Recognizes (Text.renderPiecesOr render pieces) := by
  induction pieces with
  | nil => exact recognizes_ok []
  | cons piece rest ih =>
    cases piece with
    | kept c => exact ih.bind fun text => recognizes_ok _
    | found a => exact (h a).bind fun head => ih.bind fun text => recognizes_ok _

theorem recognizes_checkRange (quantity : Quantity) (value : Int) (low high : Nat) :
    Recognizes (checkRange quantity value low high) := by
  unfold checkRange
  split <;> exact fun _ _ h => nomatch h

theorem Symbols.recognizes_require (symbols : Symbols) (kind : NameKind) (name : Text) :
    Recognizes (symbols.require kind name) := by
  unfold require
  split <;> exact fun _ _ h => nomatch h

namespace Keeps

theorem ok {left : Text} (h : left <:+ s) (a : α) : Keeps s (.ok (a, left)) :=
  ⟨recognizes_ok _, fun _ _ heq => by cases heq; exact h⟩

theorem error {e : Error} (h : Recognizes (.error e : Except Error (α × Text))) :
    Keeps s (.error e : Except Error (α × Text)) := ⟨h, fun _ _ heq => nomatch heq⟩

theorem mono {t : Text} {x : Except Error (α × Text)} (hx : Keeps s x) (h : s <:+ t) : Keeps t x :=
  ⟨hx.recognizes, fun a left heq => (hx.suffix a left heq).trans h⟩

theorem bind {x : Except Error (α × Text)} {f : α × Text → Except Error (β × Text)} (hx : Keeps s x)
    (hf : ∀ a left, Keeps left (f (a, left))) : Keeps s (x >>= f) := by
  refine ⟨hx.recognizes.bind fun p => (hf p.1 p.2).recognizes, fun b left h => ?_⟩
  obtain ⟨⟨a, middle⟩, ha, h⟩ := ok_of_bind h
  exact ((hf a middle).suffix b left h).trans (hx.suffix a middle ha)

/-- What is computed before a reading goes on does not take from the text. -/
theorem bind_value {x : Except Error α} {f : α → Except Error (β × Text)} (hx : Recognizes x)
    (hf : ∀ a, Keeps s (f a)) : Keeps s (x >>= f) := by
  refine ⟨hx.bind fun a => (hf a).recognizes, fun b left h => ?_⟩
  obtain ⟨a, -, h⟩ := ok_of_bind h
  exact (hf a).suffix b left h

end Keeps

end

namespace Text

theorem suffix_of_cut? {sep : Char} {s a b : Text} (h : cut? sep s = some (a, b)) : b <:+ s := by
  induction s generalizing a with
  | nil => cases h
  | cons c r ih =>
    rw [cut?] at h
    split at h
    · cases h
      exact List.suffix_cons c _
    · obtain ⟨⟨a', b'⟩, hcut, heq⟩ := Option.map_eq_some_iff.mp h
      cases heq
      exact (ih hcut).trans (List.suffix_cons c r)

theorem prefix_of_cut? {sep : Char} {s a b : Text} (h : cut? sep s = some (a, b)) : a <+: s := by
  induction s generalizing a with
  | nil => cases h
  | cons c r ih =>
    rw [cut?] at h
    split at h
    · cases h
      exact List.nil_prefix
    · obtain ⟨⟨a', b'⟩, hcut, heq⟩ := Option.map_eq_some_iff.mp h
      cases heq
      exact List.cons_prefix_cons.mpr ⟨rfl, ih hcut⟩

theorem suffix_of_cutLast? {sep : Char} {s a b : Text} (h : cutLast? sep s = some (a, b)) :
    b <:+ s := by
  obtain ⟨⟨ahead, behind⟩, hcut, heq⟩ := Option.map_eq_some_iff.mp h
  cases heq
  rw [← List.reverse_prefix, List.reverse_reverse]
  exact prefix_of_cut? hcut

theorem suffix_takeDigits (s : Text) : (Numeral.takeDigits s).2 <:+ s := List.dropWhile_suffix _

end Text

namespace NoteContext

variable {R : Type} [Scalar R] (ctx : NoteContext R) (text : Text)

theorem recognizes_readNumber (fault : Fault) (quantity : Quantity) (digits : Text) :
    Recognizes (readNumber fault quantity text digits) := by
  unfold readNumber
  split
  · exact recognizes_checkRange _ _ _ _
  · exact fun _ _ h => nomatch h

theorem suffix_readAccidental {R : Type} (ctx : NoteContext R) (letter : Char) (s : Text) :
    (ctx.readAccidental letter s).2 <:+ s := by
  unfold readAccidental
  split
  · exact List.suffix_cons _ _
  · exact List.suffix_cons _ _
  · exact List.suffix_cons _ _
  · exact List.suffix_rfl

theorem suffix_readOctave (s : Text) : (readOctave s).2 <:+ s := by
  unfold readOctave
  split
  · exact (List.suffix_cons _ _).trans (List.suffix_cons _ _)
  · split
    · exact List.suffix_cons _ _
    · exact List.suffix_rfl
  · exact List.suffix_rfl

theorem keeps_readLetter (s : Text) : Keeps s.tail (ctx.readLetter text s) := by
  unfold readLetter
  split
  · exact .error fun _ _ h => nomatch h
  · rename_i letter r
    split
    · exact .error fun _ _ h => nomatch h
    · dsimp only
      refine .bind_value (recognizes_checkRange _ _ _ _) fun value => .ok ?_ _
      exact (suffix_readOctave _).trans (ctx.suffix_readAccidental letter r)

theorem keeps_readBracketed (s : Text) : Keeps s (ctx.readBracketed text s) := by
  unfold readBracketed
  split
  · exact .error fun _ _ h => nomatch h
  · rename_i inner rest hcut
    have hrest := Text.suffix_of_cut? hcut
    dsimp only
    split
    · exact .bind_value (recognizes_readNumber text _ _ _) fun value => .ok hrest _
    · refine .bind_value (Symbols.recognizes_require _ _ _) fun named => ?_
      exact .bind_value (recognizes_checkRange _ _ _ _) fun value => .ok hrest _

/-- A tone takes the first character at least. -/
theorem keeps_readTone (s : Text) : Keeps s.tail (ctx.readTone text s) := by
  unfold readTone
  split
  · exact .error fun _ _ h => nomatch h
  · exact .ok List.suffix_rfl _
  · exact ctx.keeps_readBracketed text _
  · rename_i c r _ _
    split
    · rename_i hdigit
      refine .bind_value (recognizes_readNumber text _ _ _) fun value => .ok ?_ _
      rw [List.dropWhile_cons_of_pos hdigit]
      exact List.dropWhile_suffix _
    · exact ctx.keeps_readLetter text _

theorem keeps_readInversion (n : Nat) (s : Text) : Keeps s (ctx.readInversion text n s) := by
  induction s generalizing n with
  | nil =>
    rw [readInversion]
    · exact .ok List.suffix_rfl _
    · rintro r ⟨⟩
  | cons c r ih =>
    unfold readInversion
    split
    · rename_i heq
      cases heq
      split
      · refine .bind ((ctx.keeps_readLetter text r).mono ?_) fun bass rest => .ok List.suffix_rfl _
        exact (List.tail_suffix r).trans (List.suffix_cons _ r)
      · exact (ih _).mono (List.suffix_cons _ r)
    · exact .ok List.suffix_rfl _

theorem suffix_readDots (length : R) (s : Text) : (readDots length s).2 <:+ s := by
  induction s generalizing length with
  | nil => exact List.suffix_rfl
  | cons c r ih =>
    unfold readDots
    split
    · rename_i heq
      cases heq
      exact (ih _).trans (List.suffix_cons _ r)
    · exact List.suffix_rfl

theorem suffix_readLengthLetters (fuel : Nat) (sum : Option R) (s : Text) :
    (readLengthLetters fuel sum s).2 <:+ s := by
  induction fuel generalizing sum s with
  | zero => exact List.suffix_rfl
  | succ fuel ih =>
    cases s with
    | nil => exact List.suffix_rfl
    | cons c r =>
      rw [readLengthLetters]
      split
      · exact List.suffix_rfl
      · dsimp only
        refine (ih _ _).trans ((suffix_readDots _ _).trans ?_)
        exact (Text.suffix_takeDigits r).trans (List.suffix_cons c r)

theorem keeps_readLength? (s : Text) :
    Keeps s (readLength? text s : Except Error (Option R × Text)) := by
  unfold readLength?
  split
  · dsimp only
    split
    · exact .ok ((List.dropWhile_suffix _).trans (List.suffix_cons _ _)) _
    · exact .error fun _ _ h => nomatch h
  · exact .ok (suffix_readLengthLetters _ _ _) _

theorem keeps_readTuplet (s : Text) : Keeps s (readTuplet text s : Except Error (R × Text)) := by
  have hdigits := Text.suffix_takeDigits s
  unfold readTuplet
  dsimp only
  split
  · exact .ok hdigits _
  · split
    · rename_i r heq
      rw [heq] at hdigits
      split
      · exact .error fun _ _ h => nomatch h
      · split
        · exact .error fun _ _ h => nomatch h
        · exact .ok ((Text.suffix_takeDigits r).trans ((List.suffix_cons _ r).trans hdigits)) _
    · exact .error fun _ _ h => nomatch h

theorem suffix_readTie (isRest : Bool) (s : Text) : (readTie isRest s).2 <:+ s := by
  unfold readTie
  split
  · split
    · exact List.suffix_rfl
    · exact List.suffix_cons _ _
  · exact List.suffix_rfl

theorem keeps_readTiesAndLength (note : Note R) (s : Text) :
    Keeps s (readTiesAndLength text note s) := by
  unfold readTiesAndLength
  dsimp only
  refine .mono (.bind (keeps_readLength? text _) fun length? rest => ?_) (suffix_readTie note.isRest s)
  split
  · exact .ok List.suffix_rfl _
  · have hend : ∀ (length : R) (left : Text),
        Keeps left (.ok ({ ({ note with endsTie := (readTie note.isRest s).1 } : Note R).withLength length with
          startsTie := (readTie note.isRest left).1 }, (readTie note.isRest left).2)) :=
      fun length left => .ok (suffix_readTie _ _) _
    dsimp only
    split
    · refine .mono (.bind (keeps_readTuplet text _) fun ratio left => ?_) (List.suffix_cons _ _)
      exact hend _ left
    · exact hend _ _

theorem keeps_readVelocities {R : Type} (fuel : Nat) (note : Note R) (s : Text) :
    Keeps s (readVelocities text fuel note s) := by
  induction fuel generalizing note s with
  | zero => exact .ok List.suffix_rfl _
  | succ fuel ih =>
    match s with
    | [] => exact .ok List.suffix_rfl _
    | [c] => exact .ok List.suffix_rfl _
    | c :: d :: r =>
      rw [readVelocities]
      split
      · refine .bind_value (recognizes_readNumber text _ _ _) fun value => (ih _ _).mono ?_
        exact (Text.suffix_takeDigits (d :: r)).trans (List.suffix_cons c (d :: r))
      · exact .ok List.suffix_rfl _

theorem keeps_readSuffix (note : Note R) (s : Text) : Keeps s (readSuffix text note s) :=
  (keeps_readTiesAndLength text note s).bind fun _ _ => keeps_readVelocities text _ _ _

theorem recognizes_chordRoot {R : Type} (ctx : NoteContext R) (note : Note R) :
    Recognizes (ctx.chordRoot note) := by
  unfold chordRoot
  split
  · exact recognizes_ok _
  · exact (recognizes_checkRange _ _ _ _).bind fun value => recognizes_ok _

/-- A note, rest or chord takes the first character at least. -/
theorem keeps_readElement (s : Text) : Keeps s.tail (ctx.readElement text s) := by
  refine (ctx.keeps_readTone text s).bind fun tone afterTone => ?_
  dsimp only
  split
  · exact (keeps_readSuffix text _ _).bind fun note left => .ok List.suffix_rfl _
  · refine .bind_value (recognizes_chordRoot ctx _) fun root => ?_
    refine ((ctx.keeps_readInversion text 0 _).bind fun inversion left => ?_).mono
      (List.drop_suffix _ _)
    exact (keeps_readSuffix text _ _).bind fun root left => .ok List.suffix_rfl _

theorem suffix_of_readJoint? {s rest : Text} {joint : Joint} (h : readJoint? s = some (joint, rest)) :
    rest <:+ s := by
  unfold readJoint? at h
  split at h
  · split at h
    · split at h
      · cases h
        exact List.suffix_cons _ _
      · split at h
        · cases h
          exact List.suffix_cons _ _
        · cases h
    · cases h
  · cases h

theorem keeps_readJoined (fuel : Nat) (joint : Joint) (s : Text) :
    Keeps s (ctx.readJoined text fuel joint s) ∧
      Keeps s.tail (ctx.readJoined text (fuel + 1) joint s) := by
  induction fuel generalizing joint s with
  | zero =>
    refine ⟨.ok List.suffix_rfl _, (ctx.keeps_readElement text s).bind fun element rest => ?_⟩
    dsimp only
    split
    · exact .ok List.suffix_rfl _
    · rename_i next after hjoint
      exact .ok (suffix_of_readJoint? hjoint) _
  | succ fuel ih =>
    refine ⟨(ih joint s).2.mono (List.tail_suffix s), (ctx.keeps_readElement text s).bind
      fun element rest => ?_⟩
    dsimp only
    split
    · exact .ok List.suffix_rfl _
    · rename_i next after hjoint
      refine ((ih next after).2.mono ((List.tail_suffix _).trans (suffix_of_readJoint? hjoint))).bind
        fun more left => .ok List.suffix_rfl _

/-- What holds of every element that is read from an end of a text holds of all that are read of it,
joined as they are. -/
theorem forall_readJoined {P : Element R → Prop} {fuel : Nat} {joint : Joint} {s rest : Text}
    {es : List (Element R)}
    (helement : ∀ t joint e left, t <:+ s → ctx.readElement text t = .ok (e, left) → P (join joint e))
    (h : ctx.readJoined text fuel joint s = .ok (es, rest)) : ∀ e ∈ es, P e := by
  induction fuel generalizing joint s es with
  | zero =>
    cases h
    simp
  | succ fuel ih =>
    obtain ⟨⟨e, left⟩, he, h⟩ := ok_of_bind h
    have hfirst := helement s joint e left List.suffix_rfl he
    dsimp only at h
    split at h
    · cases h
      exact List.forall_mem_singleton.mpr hfirst
    · rename_i next after hjoint
      obtain ⟨⟨more, last⟩, hmore, h⟩ := ok_of_bind h
      cases h
      have hafter : after <:+ s := (suffix_of_readJoint? hjoint).trans
        (((ctx.keeps_readElement text s).suffix _ _ he).trans (List.tail_suffix s))
      refine List.forall_mem_cons.mpr ⟨hfirst, ih (fun t joint e left ht => ?_) hmore⟩
      exact helement t joint e left (ht.trans hafter)

theorem keeps_read : Keeps text.tail (ctx.read text) := (ctx.keeps_readJoined text _ _ _).2

end NoteContext

end ScoreText
