import ScoreText.Proofs.Notation.Rereading

/-!
Events that set up the playing of notes. A writer's text of them is read as the very same events,
whatever the numbers that measure times.
-/

set_option autoImplicit false

namespace ScoreText

variable {R : Type}

/-- The kinds of events that say where and how the notes after them are played. -/
def EventKind.setup : List EventKind :=
  [.track, .layer, .instrument, .tempo, .keySignature, .timeSignature, .barLine, .pitchWheel,
    .channelPressure, .polyPressure, .controller, .systemExclusive]

namespace Event

/-- The event sets up the playing of notes, with numbers in their ranges. -/
structure SetsUp (e : Event R) : Prop where
  kind : e.kind ∈ EventKind.setup
  range : e.Tellable

variable {e : Event R}

theorem SetsUp.plain (h : e.SetsUp) : e.sounds = false ∧ e.isVerbal = false := by
  have hkind := h.kind
  cases e <;> first | exact ⟨rfl, rfl⟩ | simp [Event.kind, EventKind.setup] at hkind

variable [Scalar R]

theorem SetsUp.notable (h : e.SetsUp) : e.Notable := by
  have hkind := h.kind
  obtain ⟨still, unspoken⟩ := h.plain
  refine notable_of_tellable h.range still unspoken ?_
  cases e <;> first | exact trivial | simp [Event.kind, EventKind.setup] at hkind

/-- Nothing else is heard in its place. -/
theorem SetsUp.eq_of_heard (h : e.SetsUp) {back : List (Event R)} (hb : e.Heard back) :
    back = [e] := by
  have hkind := h.kind
  cases hb with
  | same => rfl
  | time | lyric | marker => simp [Event.kind, EventKind.setup] at hkind

end Event

variable [Scalar R]

/-- Each event has a fragment of its own, from which it is announced in whatever key the events
before it have left. -/
theorem Scored.setup (key : Key) (track : Nat) {es : List (Event R)} (h : ∀ e ∈ es, e.SetsUp) :
    ∃ fs gs, Scored key track es fs gs (.ok es) := by
  induction es generalizing key track with
  | nil => exact ⟨[], [], .nil key track⟩
  | cons e rest ih =>
    obtain ⟨he, hrest⟩ := List.forall_mem_cons.mp h
    obtain ⟨fs, gs, hscored⟩ := ih (e.keyAfter key) (e.trackAfter track) hrest
    obtain ⟨f, g, back, hf, hturned, hannounces, hheard⟩ := he.notable.written key
    obtain rfl := he.eq_of_heard hheard
    exact ⟨f :: fs, g :: gs, .single he.plain.1 hf hturned hannounces hscored⟩

namespace Parser

/-- What a writer makes of any events that set up the playing of notes is accepted by a fresh parser,
strict or not, and announces exactly these events. -/
theorem setup_rewritten (strict : Bool) {es : List (Event R)} (h : ∀ e ∈ es, e.SetsUp) :
    let o := (Parser.standard.withStrict strict : Parser R).parse (Pattern.ofEvents es).text
    o.result = .ok () ∧ o.events = .parsingStarts :: es ++ [.parsingEnds] := by
  obtain ⟨fs, gs, hscored⟩ := Scored.setup .cMajor 0 h
  obtain ⟨hevents, hresult⟩ := hscored.parse strict
  exact ⟨hresult, hevents⟩

/-- Every kind, most of them at the ends of their ranges. -/
def fullSetup : List (Event Float) :=
  [.track 15, .layer 15, .instrument 127, .tempo 1, .tempo 4294967295, .keySignature (-7) .minor,
    .timeSignature 255 7, .barLine 0, .barLine 18446744073709551615, .pitchWheel 127 127,
    .channelPressure 127, .polyPressure 127 0, .controller 127 0, .systemExclusive [0, 255]]

theorem fullSetup_rewritten :
    (∀ e ∈ fullSetup, e.SetsUp) ∧
      let o := (Parser.standard.withStrict true : Parser Float).parse (Pattern.ofEvents fullSetup).text
      o.result = .ok () ∧ o.events = .parsingStarts :: fullSetup ++ [.parsingEnds] := by
  have hall : ∀ e ∈ fullSetup, e.SetsUp := by
    have hkinds : ∀ e ∈ fullSetup, e.kind ∈ EventKind.setup := by decide
    refine fun e he => ⟨hkinds e he, ?_⟩
    revert e
    simp [fullSetup, Event.Tellable, Fragment.trackCount, maxData, Numeral.largest]
  exact ⟨hall, setup_rewritten true hall⟩

end Parser

end ScoreText
