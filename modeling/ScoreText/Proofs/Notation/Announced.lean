import ScoreText.Proofs.Notation.Claiming
import ScoreText.Proofs.Notation.Ranges

/-!
What reading announces: every note has a tone that its tone was read as, and numbers that lie in
their ranges, whatever the text.
-/

set_option autoImplicit false

namespace ScoreText

open NoteContext

variable {R : Type} [Scalar R]

/-- A tone after its ties, its length and its velocities have been read. -/
structure Note.Suffixed (m n : Note R) : Prop where
  same : n = { m with
    length := n.length, lengthWritten := n.lengthWritten, attack := n.attack, decay := n.decay,
    startsTie := n.startsTie, endsTie := n.endsTie }
  attack_le : n.attack ≤ maxData
  decay_le : n.decay ≤ maxData
  unwritten : n.lengthWritten = false → n.length = m.length
  tied : n.startsTie = true → n.lengthWritten = true
  restless : n.isRest = true → n.startsTie = false ∧ n.endsTie = false

/-- A tone with the velocities it goes by, before its ties and its length have been read. -/
structure Note.Unsuffixed (m : Note R) : Prop where
  attack_le : m.attack ≤ maxData
  decay_le : m.decay ≤ maxData
  startsTie : m.startsTie = false

theorem usualVelocity_le : usualVelocity ≤ maxData := by decide

theorem Note.Bare.unsuffixed {m : Note R} (h : m.Bare) : m.Unsuffixed :=
  ⟨h.attack ▸ usualVelocity_le, h.decay ▸ usualVelocity_le, h.startsTie⟩

theorem readTie_rest {s rest : Text} {tie : Bool} (h : readTie true s = (tie, rest)) : tie = false := by
  unfold readTie at h
  split at h <;> exact (Prod.mk.inj h).1.symm

theorem readTiesAndLength_eq_ok {text s rest : Text} {m n : Note R} (hm : m.Unsuffixed)
    (h : readTiesAndLength text m s = .ok (n, rest)) : m.Suffixed n := by
  obtain ⟨⟨ends, afterTie⟩, htie⟩ : ∃ p, readTie m.isRest s = p := ⟨_, rfl⟩
  simp only [readTiesAndLength, htie] at h
  obtain ⟨⟨length?, afterLength⟩, -, h⟩ := ok_of_bind h
  have hends : m.isRest = true → ends = false := fun hr => by
    rw [hr] at htie
    exact readTie_rest htie
  have hstarts : m.startsTie = true → m.lengthWritten = true := fun ht => by
    rw [hm.startsTie] at ht
    cases ht
  have hend : ∀ (length : R) (s' : Text),
      (.ok ({ ({ m with endsTie := ends } : Note R).withLength length with
        startsTie := (readTie m.isRest s').1 }, (readTie m.isRest s').2) : Except Error (Note R × Text)) =
        .ok (n, rest) → m.Suffixed n := by
    intro length s' h
    cases h
    refine ⟨rfl, hm.attack_le, hm.decay_le, (fun hf => by cases hf), fun _ => rfl,
      fun hr => ⟨?_, hends hr⟩⟩
    have hrest : m.isRest = true := hr
    rw [hrest]
    exact readTie_rest rfl
  cases length? with
  | none =>
    cases h
    exact ⟨rfl, hm.attack_le, hm.decay_le, fun _ => rfl, hstarts,
      fun hr => ⟨hm.startsTie, hends hr⟩⟩
  | some length =>
    dsimp only at h
    split at h
    · obtain ⟨⟨ratio, afterTuplet⟩, -, h⟩ := ok_of_bind h
      exact hend _ _ h
    · exact hend _ _ h

/-- What holds of a note whatever its velocities are holds of it when these have been read. -/
theorem readVelocities_eq_ok {R : Type} {P : Note R → Prop}
    (hattack : ∀ note value, value ≤ maxData → P note → P { note with attack := value })
    (hdecay : ∀ note value, value ≤ maxData → P note → P { note with decay := value })
    {text s rest : Text} {fuel : Nat} {note n : Note R} (hnote : P note)
    (h : readVelocities text fuel note s = .ok (n, rest)) : P n := by
  induction fuel generalizing note s with
  | zero =>
    cases h
    exact hnote
  | succ fuel ih =>
    match s, h with
    | [], h =>
      cases h
      exact hnote
    | [c], h =>
      cases h
      exact hnote
    | c :: d :: r, h =>
      rw [readVelocities] at h
      split at h
      · obtain ⟨value, hvalue, h⟩ := ok_of_bind h
        have hle := readNumber_le hvalue
        dsimp only at h
        split at h
        · exact ih (hattack note value hle hnote) h
        · exact ih (hdecay note value hle hnote) h
      · cases h
        exact hnote

theorem readSuffix_eq_ok {text s rest : Text} {m n : Note R} (hm : m.Unsuffixed)
    (h : readSuffix text m s = .ok (n, rest)) : m.Suffixed n := by
  obtain ⟨⟨note, left⟩, hnote, h⟩ := ok_of_bind h
  refine readVelocities_eq_ok (P := m.Suffixed) ?_ ?_ (readTiesAndLength_eq_ok hm hnote) h
  · rintro note value hle ⟨same, -, decay_le, unwritten, tied, restless⟩
    exact ⟨by rw [same], hle, decay_le, unwritten, tied, restless⟩
  · rintro note value hle ⟨same, attack_le, -, unwritten, tied, restless⟩
    exact ⟨by rw [same], attack_le, hle, unwritten, tied, restless⟩

theorem startsTie_chordRoot {R : Type} {ctx : NoteContext R} {m root : Note R}
    (h : ctx.chordRoot m = .ok root) : root.startsTie = m.startsTie := by
  rw [chordRoot_same h]

/-- A note or a chord as it is read on its own. -/
inductive ElementRead (ctx : NoteContext R) : Element R → Prop where
  | note {m n : Note R} (tone : ToneRead ctx m) (suffixed : m.Suffixed n) : ElementRead ctx (.note n)
  | chord {m root n : Note R} {name : Text} {shape : Intervals} (inversion : Nat)
    (tone : ToneRead ctx m) (sounding : m.isRest = false) (rooted : ctx.chordRoot m = .ok root)
    (suffixed : root.Suffixed n) (known : (name, shape) ∈ ctx.chords.entries) :
    ElementRead ctx
      (.chord { root := n, intervals := shape, inversion := inversion, name := some name })

theorem ToneRead.bare {ctx : NoteContext R} {m : Note R} (h : ToneRead ctx m) : m.Bare := by
  cases h <;> exact ⟨rfl, rfl, rfl, rfl, rfl, rfl⟩

theorem readElement_eq_ok {ctx : NoteContext R} (hctx : ctx.settings = .standard) {text s rest : Text}
    {e : Element R} (h : ctx.readElement text s = .ok (e, rest)) : ElementRead ctx e := by
  obtain ⟨⟨m, afterTone⟩, htone, h⟩ := ok_of_bind h
  have hread := readTone_eq_ok htone
  have husual : { m with attack := ctx.settings.attack, decay := ctx.settings.decay } = m := by
    obtain ⟨value, length, attack, decay⟩ := m
    obtain ⟨-, rfl, rfl, -, -, -⟩ := hread.bare
    rw [hctx]
    rfl
  dsimp only at h
  rw [husual] at h
  cases hchord : ctx.matchChord? m afterTone with
  | none =>
    rw [hchord] at h
    obtain ⟨⟨n, left⟩, hn, h⟩ := ok_of_bind h
    cases h
    exact .note hread (readSuffix_eq_ok hread.bare.unsuffixed hn)
  | some found =>
    obtain ⟨name, shape⟩ := found
    rw [hchord] at h
    obtain ⟨root, hroot, h⟩ := ok_of_bind h
    obtain ⟨⟨inversion, afterInversion⟩, -, h⟩ := ok_of_bind h
    obtain ⟨⟨n, left⟩, hn, h⟩ := ok_of_bind h
    cases h
    have hknown : m.isRest = false ∧ (name, shape) ∈ ctx.chords.entries := by
      unfold matchChord? at hchord
      split at hchord
      · cases hchord
      · rename_i hrest
        exact ⟨by simpa using hrest, List.mem_of_find?_eq_some hchord⟩
    have hbare := (Form.chordRoot_bare hread.bare hroot).1
    cases inversion with
    | count k => exact .chord k hread hknown.1 hroot (readSuffix_eq_ok hbare.unsuffixed hn) hknown.2
    | bass bass => exact .chord _ hread hknown.1 hroot (readSuffix_eq_ok hbare.unsuffixed hn) hknown.2

theorem readJoint?_eq_some {s rest : Text} {joint : Joint} (h : readJoint? s = some (joint, rest)) :
    ∃ melodic, joint = linkJoint melodic := by
  unfold readJoint? at h
  split at h
  · split at h
    · split at h
      · exact ⟨false, (Prod.mk.inj (Option.some.inj h)).1.symm⟩
      · split at h
        · exact ⟨true, (Prod.mk.inj (Option.some.inj h)).1.symm⟩
        · cases h
    · cases h
  · cases h

theorem readJoined_eq_ok {ctx : NoteContext R} (hctx : ctx.settings = .standard) {text : Text}
    {fuel : Nat} {joint : Joint} {s rest : Text} {es : List (Element R)}
    (h : ctx.readJoined text (fuel + 1) joint s = .ok (es, rest)) :
    ∃ (e : Element R) (links : List (Bool × Element R)),
      es = join joint e :: links.map (fun l => join (linkJoint l.1) l.2) ∧ ElementRead ctx e ∧
        ∀ l ∈ links, ElementRead ctx l.2 := by
  induction fuel generalizing joint s es with
  | zero =>
    obtain ⟨⟨e, left⟩, he, h⟩ := ok_of_bind h
    have hread := readElement_eq_ok hctx he
    dsimp only at h
    split at h <;> cases h <;> exact ⟨e, [], rfl, hread, by simp⟩
  | succ fuel ih =>
    obtain ⟨⟨e, left⟩, he, h⟩ := ok_of_bind h
    have hread := readElement_eq_ok hctx he
    dsimp only at h
    split at h
    · cases h
      exact ⟨e, [], rfl, hread, by simp⟩
    · rename_i next after hjoint
      obtain ⟨⟨more, last⟩, hmore, h⟩ := ok_of_bind h
      cases h
      obtain ⟨melodic, rfl⟩ := readJoint?_eq_some hjoint
      obtain ⟨e', links, rfl, he', hlinks⟩ := ih hmore
      refine ⟨e, (melodic, e') :: links, rfl, hread, fun l hl => ?_⟩
      rcases List.mem_cons.mp hl with rfl | hl
      · exact he'
      · exact hlinks l hl

/-- Events that a reading may announce from a key on: single ones, and groups of notes. -/
inductive Told : Key → List (Event R) → Prop where
  | nil (key : Key) : Told key []
  | single {key : Key} {e : Event R} {es : List (Event R)} (still : e.sounds = false)
    (range : e.Tellable) (rest : Told (e.keyAfter key) es) : Told key (e :: es)
  | group {key : Key} {e : Element R} {links : List (Bool × Element R)} {es : List (Event R)}
    (first : ElementRead (.usual key) e) (linked : ∀ l ∈ links, ElementRead (.usual key) l.2)
    (rest : Told key es) :
    Told key ((join .opening e :: links.map fun l => join (linkJoint l.1) l.2).map
      Fragment.elementEvent ++ es)

namespace Told

theorem append {key : Key} {es more : List (Event R)} (h : Told key es)
    (hmore : Told (Event.keyAfterAll key es) more) : Told key (es ++ more) := by
  induction h with
  | nil => exact hmore
  | single still range _ ih => exact .single still range (ih hmore)
  | group first linked _ ih =>
    rw [List.append_assoc]
    rw [Event.keyAfterAll_append, (Event.afterAll_elements _ 0 _).1] at hmore
    exact .group first linked (ih hmore)

theorem among (key : Key) {kinds : List EventKind} {es : List (Event R)}
    (h : ∀ e ∈ es, e.Among kinds) : Told key es ∧ Event.keyAfterAll key es = key := by
  induction es with
  | nil => exact ⟨.nil key, rfl⟩
  | cons e rest ih =>
    obtain ⟨still, range, hkey⟩ := (h e List.mem_cons_self).steady
    obtain ⟨htold, hafter⟩ := ih fun e he => h e (List.mem_cons_of_mem _ he)
    refine ⟨.single still range ?_, ?_⟩
    · rwa [hkey]
    · rwa [Event.keyAfterAll, List.foldl_cons, hkey]

/-- A reading that announces such events, and remembers their key. -/
def Tells (key : Key) (reading : Reading R) : Prop :=
  Told key reading.events ∧ reading.memory.Holds (Event.keyAfterAll key reading.events)

theorem tells_among (ctx : Context R) {key : Key} (hm : ctx.memory.Holds key) (fragment : Text)
    {family : Family} (h : family ∉ [Family.atom, .note, .signature]) :
    Tells key (family.read ctx fragment) := by
  obtain ⟨htold, hafter⟩ := among key (Family.among_read ctx fragment h)
  have hsettled : ∀ result : Except Error (List (Event R) × Text),
      (Family.settled ctx.memory result).memory = ctx.memory := by
    intro result
    cases result <;> rfl
  have hmemory : (family.read ctx fragment).memory = ctx.memory := by
    cases family with
    | atom | note | signature => exact absurd h (by decide)
    | barLine | selection | tempo | beatTime | caption | call => exact hsettled _
  exact ⟨htold, by rwa [hmemory, hafter]⟩

theorem told_notes {key : Key} {fragment rest : Text} {es : List (Event R)}
    (h : Fragment.readNotes (.usual key) fragment = .ok (es, rest)) :
    Told key es ∧ Event.keyAfterAll key es = key := by
  obtain ⟨⟨elements, left⟩, hread, h⟩ := ok_of_bind h
  cases h
  obtain ⟨e, links, rfl, he, hlinks⟩ := readJoined_eq_ok rfl hread
  have := Told.group he hlinks (.nil key)
  rw [List.append_nil] at this
  refine ⟨this, ?_⟩
  exact (Event.afterAll_elements key 0 _).1

theorem tells_atom (strict : Bool) {memory : Memory} {key : Key} (hm : memory.Holds key) (fragment : Text) :
    Told key (Fragment.readAtom (⟨Dialect.usual strict, memory⟩ : Context R) fragment).1 ∧
      Event.keyAfterAll key
        (Fragment.readAtom (⟨Dialect.usual strict, memory⟩ : Context R) fragment).1 = key := by
  unfold Fragment.readAtom
  dsimp only
  obtain ⟨⟨changes, failure⟩, hparts⟩ : ∃ p, (Fragment.readAtomParts memory.symbols fragment
    (Text.fields ',' (fragment.drop 1)).dropLast : List (Event R) × Option Error) = p := ⟨_, rfl⟩
  have hchanges := Event.among_parts (R := R) memory.symbols fragment
    (Text.fields ',' (fragment.drop 1)).dropLast
  rw [hparts] at hchanges
  obtain ⟨htold, hafter⟩ := among key hchanges
  simp only [hparts]
  split
  · exact ⟨htold, hafter⟩
  · rw [hm.noteContext]
    split
    · exact ⟨htold, hafter⟩
    · exact ⟨htold, hafter⟩
    · rename_i events hread
      obtain ⟨hnotes, hkey⟩ := told_notes hread
      refine ⟨htold.append (by rwa [hafter]), ?_⟩
      rw [Event.keyAfterAll_append]
      rw [hafter, hkey]

theorem tells_read (strict : Bool) {memory : Memory} {key : Key} (hm : memory.Holds key)
    (family : Family) (fragment : Text) :
    Tells key (family.read (⟨Dialect.usual strict, memory⟩ : Context R) fragment) := by
  cases family with
  | atom =>
    obtain ⟨htold, hafter⟩ := tells_atom (R := R) strict hm fragment
    refine ⟨htold, ?_⟩
    change memory.Holds (Event.keyAfterAll key (Fragment.readAtom _ fragment).1)
    rwa [hafter]
  | note =>
    rw [Family.read, hm.noteContext]
    cases hr : Fragment.readNotes (NoteContext.usual key : NoteContext R) fragment with
    | error e => exact ⟨.nil key, hm⟩
    | ok p =>
      obtain ⟨es, rest⟩ := p
      obtain ⟨htold, hafter⟩ := told_notes hr
      refine ⟨htold, ?_⟩
      change memory.Holds (Event.keyAfterAll key es)
      rwa [hafter]
  | barLine | selection | tempo | beatTime | caption | call =>
    exact tells_among _ hm fragment (by decide)
  | signature =>
    rw [Family.read]
    cases hr : (Fragment.readSignature memory fragment :
        Except Error (List (Event R) × Memory × Text)) with
    | error e => exact ⟨.nil key, hm⟩
    | ok p =>
      obtain ⟨es, memory', rest⟩ := p
      rcases Event.signature_cases hr with ⟨hmeter, meter, rfl⟩ | ⟨k, rfl, rfl⟩
      · obtain ⟨htold, hafter⟩ := among key hmeter
        refine ⟨htold, hm.symbols, ?_⟩
        change memory.key = Event.keyAfterAll key es
        rw [hafter]
        exact hm.key
      · refine ⟨.single rfl k.within (.nil _), hm.symbols, ?_⟩
        exact (Key.ofSignature_fifths k).symm

/-- As `Tells`, of the reading of more than one fragment. -/
def Announced (key : Key) (o : Outcome R) : Prop :=
  Told key o.events ∧ o.memory.Holds (Event.keyAfterAll key o.events)

theorem announced_andThen {key : Key} {o : Outcome R} {next : Memory → Outcome R} (ho : Announced key o)
    (hnext : ∀ memory key', memory.Holds key' → Announced key' (next memory)) :
    Announced key (o.andThen next) := by
  unfold Outcome.andThen
  split
  · exact ho
  · obtain ⟨htold, hholds⟩ := ho
    obtain ⟨hmore, hafter⟩ := hnext _ _ hholds
    refine ⟨htold.append hmore, ?_⟩
    rw [Event.keyAfterAll_append]
    exact hafter

theorem carried_announced :
    Carried fun memory (o : Outcome R) => ∀ key, memory.Holds key → Announced key o where
  idle _ _ key hm := ⟨.nil key, hm⟩
  andThen ho hnext key hm := announced_andThen (ho key hm) fun memory key' hm' => hnext memory key' hm'

theorem announced_fragments (strict : Bool) {position : Nat} {memory : Memory} {key : Key}
    (hm : memory.Holds key) (fragments : List Text) :
    Announced key (Parser.readFragments (Dialect.usual strict : Dialect R) position memory fragments) :=
  carried_announced.readFragments (fun _ t family _ _ hm => tells_read strict hm family t) position memory
    key hm

/-- All that a fresh parser announces, whatever the text, strict or not. -/
theorem readText (strict : Bool) (text : Text) :
    Told .cMajor ((Parser.standard.withStrict strict : Parser R).readText text).events := by
  unfold Parser.readText
  split
  · exact .nil _
  · exact (announced_fragments strict (Parser.holds_usual strict) _).1

end Told

end ScoreText
