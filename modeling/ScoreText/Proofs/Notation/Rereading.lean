import ScoreText.Proofs.Notation.Calls
import ScoreText.Proofs.Notation.Likeness

/-!
Reading, writing and reading again: the events of a text are written, and what is written announces
the same events.
-/

set_option autoImplicit false

namespace ScoreText

open NoteContext

variable {R : Type} [Scalar R]

namespace Event

/-- Events as a writer leaves them, from a track on. -/
def asWritten {R : Type} : Nat → List (Event R) → List (Event R)
  | _, [] => []
  | t, e :: es => e.onTrack t :: asWritten (e.trackAfter t) es

/-- Every note and every chord has one reading, from a key and a track on. -/
def AllCertain : Key → Nat → List (Event R) → Prop
  | _, _, [] => True
  | key, t, e :: es => e.Certain key t ∧ AllCertain (e.keyAfter key) (e.trackAfter t) es

instance allCertainDecidable : (key : Key) → (t : Nat) → (es : List (Event R)) →
    Decidable (AllCertain key t es)
  | _, _, [] => isTrue trivial
  | key, t, e :: es =>
    have := allCertainDecidable (e.keyAfter key) (e.trackAfter t) es
    inferInstanceAs (Decidable (e.Certain key t ∧ AllCertain (e.keyAfter key) (e.trackAfter t) es))

theorem asWritten_elements {R : Type} (track : Nat) (elements : List (Element R))
    (es : List (Event R)) : asWritten track (elements.map Fragment.elementEvent ++ es) =
      (elements.map fun e => (Fragment.elementEvent e).onTrack track) ++ asWritten track es := by
  induction elements with
  | nil => rfl
  | cons e rest ih => cases e <;> exact congrArg _ ih

theorem asWritten_ended {R : Type} (track : Nat) (es : List (Event R)) :
    asWritten track (es ++ [.parsingEnds]) = asWritten track es ++ [.parsingEnds] := by
  induction es generalizing track with
  | nil => rfl
  | cons e es ih => exact congrArg (e.onTrack track :: ·) (ih _)

theorem allCertain_append (key : Key) (t : Nat) (es more : List (Event R)) :
    AllCertain key t (es ++ more) ↔
      AllCertain key t es ∧ AllCertain (keyAfterAll key es) (trackAfterAll t es) more := by
  induction es generalizing key t with
  | nil => exact ⟨fun h => ⟨trivial, h⟩, And.right⟩
  | cons e es ih =>
    rw [List.cons_append, AllCertain, ih, AllCertain, and_assoc]
    rfl

theorem allCertain_elements (key : Key) (t : Nat) (elements : List (Element R)) :
    AllCertain key t (elements.map Fragment.elementEvent) ↔
      ∀ e ∈ elements, (Fragment.elementEvent e).Certain key t := by
  induction elements with
  | nil => simp [AllCertain]
  | cons e rest ih =>
    rw [List.map_cons, AllCertain, List.forall_mem_cons, ← ih]
    cases e <;> rfl

theorem notable_of_tellable {e : Event R} (h : e.Tellable) (still : e.sounds = false)
    (unspoken : e.isVerbal = false) (legible : e.Legible) : e.Notable := by
  cases e with
  | track n => exact .track h
  | layer n => exact .layer h
  | instrument n => exact .instrument h
  | tempo n => exact .tempo h.1 h.2
  | keySignature fifths mode => exact .keySignature ⟨fifths, mode, h⟩
  | timeSignature beats power => exact .timeSignature h.1 h.2.1 h.2.2
  | barLine n => exact .barLine h
  | timeRequest time => exact .timeRequest legible
  | pitchWheel low high => exact .pitchWheel h.1 h.2
  | channelPressure p => exact .channelPressure h
  | polyPressure key p => exact .polyPressure h.1 h.2
  | systemExclusive bytes => exact .systemExclusive h
  | controller number value => exact .controller h.1 h.2
  | parsingStarts | parsingEnds | notePressed _ | noteReleased _ => exact h.elim
  | lyric _ | marker _ | bookmark _ | bookmarkRequest _ | call _ _ => cases unspoken
  | note _ | chord _ => cases still

theorem Heard.alike {e : Event R} {back : List (Event R)} (h : e.Heard back)
    (unspoken : e.isVerbal = false) : ∃ e', back = [e'] ∧ e.Alike e' := by
  cases h with
  | same => exact ⟨e, rfl, .same e⟩
  | time h => exact ⟨_, rfl, .time h⟩
  | lyric | marker => cases unspoken

end Event

namespace Event

/-- Whether an event is a note that goes by a percussion name. -/
def isPercussive {R : Type} : Event R → Bool
  | .note n => n.isPercussion
  | _ => false

theorem percussive_of_alike {es es' : List (Event R)} (h : List.Forall₂ Alike es es') :
    es.map isPercussive = es'.map isPercussive := by
  induction h with
  | nil => rfl
  | cons he _ ih =>
    rw [List.map_cons, List.map_cons, ih]
    cases he with
    | same e => rfl
    | time h => rfl
    | note h => exact congrArg (· :: _) ((Note.beq_iff _ _).mp h).2.2.2.2.2.2.2.2.2.2.2.1
    | chord => rfl

end Event

theorem Scored.ended {key : Key} {track : Nat} {es : List (Event R)} {fs gs : List Text}
    {result : Except Error (List (Event R))} (h : Scored key track es fs gs result) :
    Scored key track (es ++ [.parsingEnds]) fs gs result := by
  have hend : Scored (Event.keyAfterAll key es) (Event.trackAfterAll track es)
      ([.parsingEnds] : List (Event R)) [] [] (.ok []) := .silent rfl rfl (.nil _ _)
  have hall := h.append hend
  rw [List.append_nil, List.append_nil] at hall
  cases result with
  | error e => exact hall
  | ok back => simpa [bind, Except.bind, pure, Except.pure] using hall

namespace Told

section Group

variable {key : Key} {track : Nat}

theorem apart {e : Element R} (h : ElementRead (.usual key) e) : e.lead.Apart := by
  cases h with
  | note tone suffixed => exact suffixed.apart tone.apart
  | chord inversion tone sounding rooted suffixed known =>
    exact suffixed.apart (ToneRead.apart_root tone rooted)

theorem lead_join {R : Type} (joint : Joint) (e : Element R) :
    (join joint e).lead = joint.mark e.lead := by
  cases e <;> rfl

/-- The links of a group are written and read again. -/
theorem links (zero : (((0 : Nat) : R) == ((0 : Nat) : R)) = true) {links : List (Bool × Element R)}
    (h : ∀ l ∈ links, ElementRead (.usual key) l.2)
    (legible : ∀ l ∈ links, (Fragment.elementEvent (join (linkJoint l.1) l.2)).Legible)
    (certain : ∀ l ∈ links, (Fragment.elementEvent (join (linkJoint l.1) l.2)).Certain key track) :
    ∃ (tail : List (Bool × Form R)) (es : List (Element R)),
      List.Forall₂ (Linked track) (links.map fun l => join (linkJoint l.1) l.2) tail ∧
        Form.readTail (.usual key) tail = .ok es ∧
        List.Forall₂ Event.Alike
          (links.map fun l => (Fragment.elementEvent (join (linkJoint l.1) l.2)).onTrack track)
          (es.map Fragment.elementEvent) := by
  induction links with
  | nil => exact ⟨[], [], .nil, rfl, .nil⟩
  | cons l rest ih =>
    rw [List.forall_mem_cons] at h legible certain
    obtain ⟨melodic, e⟩ := l
    obtain ⟨tail, es, htail, hread, halike⟩ := ih h.2 legible.2 certain.2
    obtain ⟨form, e', hform, hform', hsame⟩ :=
      h.1.again zero (linkJoint melodic) legible.1 certain.1
    have hlead := apart h.1
    have hlinked : Linked track (join (linkJoint melodic) e) (melodic, form) := by
      refine ⟨hform, ?_, ?_⟩ <;> rw [lead_join] <;> cases melodic
      · rfl
      · exact hlead.isHarmonic
      · exact fun hm => nomatch hm
      · exact fun _ => rfl
    refine ⟨(melodic, form) :: tail, join (linkJoint melodic) e' :: es, .cons hlinked htail, ?_,
      .cons hsame halike⟩
    rw [Form.readTail, hform']
    simp only [bind, Except.bind, hread, pure, Except.pure]

end Group

/-- What was announced is written so that it is announced again. -/
theorem scored (zero : (((0 : Nat) : R) == ((0 : Nat) : R)) = true) {key : Key}
    {es : List (Event R)} (h : Told key es) {track : Nat} (unspoken : ∀ e ∈ es, e.isVerbal = false)
    (legible : ∀ e ∈ es, e.Legible) (certain : Event.AllCertain key track es) :
    ∃ fs gs back, Scored key track es fs gs (.ok back) ∧
      List.Forall₂ Event.Alike (Event.asWritten track es) back := by
  induction h generalizing track with
  | nil key => exact ⟨[], [], [], .nil key track, .nil⟩
  | @single key e es still range _ ih =>
    rw [List.forall_mem_cons] at unspoken legible
    obtain ⟨fs, gs, back, hscored, halike⟩ := ih unspoken.2 legible.2 certain.2
    obtain ⟨f, g, heard, hf, hturned, hannounces, hheard⟩ :=
      (Event.notable_of_tellable range still unspoken.1 legible.1).written key
    obtain ⟨e', rfl, he⟩ := hheard.alike unspoken.1
    have hstay : e.onTrack track = e := by
      cases e <;> first | rfl | cases still
    refine ⟨f :: fs, g :: gs, e' :: back, .single still hf hturned hannounces hscored, ?_⟩
    rw [Event.asWritten, hstay]
    exact .cons he halike
  | @group key e members es first linked _ ih =>
    rw [Event.allCertain_append, Event.allCertain_elements, (Event.afterAll_elements key track _).1,
      (Event.afterAll_elements key track _).2] at certain
    obtain ⟨hcertain, hrest⟩ := certain
    rw [List.forall_mem_cons, List.forall_mem_map] at hcertain
    have hlegible : ∀ e' ∈ join .opening e :: members.map (fun l => join (linkJoint l.1) l.2),
        (Fragment.elementEvent e').Legible := fun e' he =>
      legible _ (List.mem_append_left _ (List.mem_map_of_mem he))
    rw [List.forall_mem_cons, List.forall_mem_map] at hlegible
    obtain ⟨form, e', hform, hread, hlike⟩ := first.again zero .opening hlegible.1 hcertain.1
    obtain ⟨tail, es', htail, hreadTail, hlikes⟩ := links zero linked hlegible.2 hcertain.2
    obtain ⟨fs, gs, back, hscored, halike⟩ := ih
      (fun e he => unspoken e (List.mem_append_right _ he))
      (fun e he => legible e (List.mem_append_right _ he)) hrest
    have hopens : Opens track (join .opening e) form := by
      refine ⟨hform, ?_, ?_⟩ <;> rw [lead_join]
      · exact (apart first).isHarmonic
      · exact (apart first).isMelodic
    have hgroup : Form.readGroup (.usual key) form tail = .ok (join .opening e' :: es') := by
      simp only [Form.readGroup, hread, hreadTail, bind, Except.bind, pure, Except.pure]
    have hscored := Scored.group hopens htail hscored
    simp only [hgroup, bind, Except.bind, pure, Except.pure] at hscored
    refine ⟨_, _, _, hscored, ?_⟩
    rw [Event.asWritten_elements, List.map_cons, List.map_cons, List.map_map, List.cons_append,
      List.cons_append]
    exact .cons hlike (List.rel_append hlikes halike)

end Told

namespace Parser

variable {text : Text} {events : List (Event R)}

theorem withStrict_false : (Parser.standard.withStrict false : Parser R) = .standard := by
  simp only [Parser.withStrict, Parser.standard, Parser.ofDialect, Dialect.standard,
    Dialect.ofSettings, ReadingSettings.standard]

/-- All that a fresh parser announces can be written, and read again. -/
theorem scored (zero : (((0 : Nat) : R) == ((0 : Nat) : R)) = true) {strict : Bool}
    (announced : ((Parser.standard.withStrict strict : Parser R).parse text).events = events)
    (unspoken : ∀ e ∈ events, e.isVerbal = false) (legible : ∀ e ∈ events, e.Legible)
    (certain : Event.AllCertain .cMajor 0 events) :
    ∃ fs gs back, Scored .cMajor 0 events fs gs (.ok back) ∧
      List.Forall₂ Event.Alike (Event.asWritten 0 events) (.parsingStarts :: back ++ [.parsingEnds]) := by
  subst announced
  obtain ⟨es, hes⟩ : ∃ es,
      ((Parser.standard.withStrict strict : Parser R).readText text).events = es := ⟨_, rfl⟩
  have htold : Told .cMajor es := hes ▸ Told.readText strict text
  have hevents : ((Parser.standard.withStrict strict : Parser R).parse text).events =
      .parsingStarts :: (es ++ [.parsingEnds]) := by
    rw [Parser.parse, hes]
    rfl
  rw [hevents] at unspoken legible certain ⊢
  obtain ⟨fs, gs, back, hscored, halike⟩ := htold.scored zero
    (fun e he => unspoken e (List.mem_cons_of_mem _ (List.mem_append_left _ he)))
    (fun e he => legible e (List.mem_cons_of_mem _ (List.mem_append_left _ he)))
    ((Event.allCertain_append _ _ _ _).mp certain.2).1
  refine ⟨fs, gs, back, .silent rfl rfl hscored.ended, ?_⟩
  rw [Event.asWritten, Event.asWritten_ended]
  exact .cons (.same _) (List.rel_append halike (.cons (.same _) .nil))

/-- What a parser announces is written as a notation from which any fresh parser announces the same,
but for percussion notes, which go by their names on the percussion track. -/
theorem parse_rewritten (zero : (((0 : Nat) : R) == ((0 : Nat) : R)) = true) {strict : Bool}
    (announced : ((Parser.standard.withStrict strict : Parser R).parse text).events = events)
    (unspoken : ∀ e ∈ events, e.isVerbal = false) (legible : ∀ e ∈ events, e.Legible)
    (certain : Event.AllCertain .cMajor 0 events) (again : Bool) :
    ((Parser.standard.withStrict again : Parser R).parse (Pattern.ofEvents events).text).result =
        .ok () ∧
      List.Forall₂ Event.Alike (Event.asWritten 0 events)
        ((Parser.standard.withStrict again : Parser R).parse (Pattern.ofEvents events).text).events := by
  obtain ⟨fs, gs, back, hscored, halike⟩ := scored zero announced unspoken legible certain
  obtain ⟨hback, hresult⟩ := hscored.parse again
  exact ⟨hresult, hback ▸ halike⟩

/-- A walk through keys and tracks: a note by its number, ties, a chord, a percussion note. -/
def tour : Text := "T90 KEY:GMAJ V1 67Q-_C#6-Q @1.5 CMAJ7^HA80 V9 C3Q".toList

theorem tour_rewritten :
    let first := ((Parser.standard.withStrict true : Parser Rat).parse tour).events
    let second := (Parser.standard.withStrict true : Parser Rat).parse (Pattern.ofEvents first).text
    second.result = .ok () ∧ List.Forall₂ Event.Alike (Event.asWritten 0 first) second.events :=
  parse_rewritten (by decide) rfl (by decide +kernel) (by decide +kernel) (by decide +kernel) true

/-- A percussion note by its letter on the percussion track is a percussion note by its name when it
is read again. -/
theorem percussion_renamed :
    let first := (Parser.standard.withStrict true : Parser Rat).parse "V9 C3Q".toList
    let second := (Parser.standard : Parser Rat).parse (Pattern.ofEvents first.events).text
    first.result = .ok () ∧ (∀ e ∈ first.events, e.isVerbal = false) ∧
      ¬ List.Forall₂ Event.Alike first.events second.events := by
  intro first second
  have hunspoken : ∀ e ∈ first.events, e.isVerbal = false := by decide +kernel
  refine ⟨rfl, hunspoken, fun halike => ?_⟩
  obtain ⟨fs, gs, back, hscored, hback⟩ := scored (by decide) (show _ = first.events from rfl) hunspoken
    (by decide +kernel) (by decide +kernel)
  have hsecond : second.events = .parsingStarts :: back ++ [.parsingEnds] := by
    have := (hscored.parse false).1
    rwa [withStrict_false] at this
  rw [hsecond] at halike
  have hnamed := (Event.percussive_of_alike halike).trans (Event.percussive_of_alike hback).symm
  exact absurd hnamed (by decide +kernel)

end Parser

end ScoreText
