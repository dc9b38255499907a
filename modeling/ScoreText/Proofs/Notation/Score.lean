import ScoreText.Proofs.Notation.Script

/-!
Events written as a notation that is read again: what is written of them, what the fragments become
in expansion and what is announced for them, all along one list of events.
-/

set_option autoImplicit false

namespace ScoreText

open NoteContext

variable {R : Type} [Scalar R]

/-- Events from a key and a track on, the fragments that a writer makes of them, these after
expansion, and the events that are read from them. -/
inductive Scored : Key → Nat → List (Event R) → List Text → List Text →
    Except Error (List (Event R)) → Prop where
  | nil (key : Key) (track : Nat) : Scored key track [] [] [] (.ok [])
  | silent {key : Key} {track : Nat} {e : Event R} {es : List (Event R)} {fs gs : List Text}
    {result : Except Error (List (Event R))} (still : e.sounds = false)
    (silent : Writer.fragment? e = none) (rest : Scored key track es fs gs result) :
    Scored key track (e :: es) fs gs result
  | single {key : Key} {track : Nat} {e : Event R} {es back : List (Event R)} {f g : Text}
    {fs gs : List Text} {result : Except Error (List (Event R))} (still : e.sounds = false)
    (fragment : Writer.fragment? e = some f)
    (turned : ∀ ctx : NoteContext R, Expansion.Turned .standard ctx f g)
    (announces : Announces g key (e.keyAfter key) back)
    (rest : Scored (e.keyAfter key) (e.trackAfter track) es fs gs result) :
    Scored key track (e :: es) (f :: fs) (g :: gs) (result.map fun more => back ++ more)
  | group {key : Key} {track : Nat} {e : Element R} {links : List (Element R)} {first : Form R}
    {tail : List (Bool × Form R)} {es : List (Event R)} {fs gs : List Text}
    {result : Except Error (List (Event R))} (opens : Opens track e first)
    (linked : List.Forall₂ (Linked track) links tail) (rest : Scored key track es fs gs result) :
    Scored key track ((e :: links).map Fragment.elementEvent ++ es)
      ((e.text track ++ writtenTail track links) :: fs) ((first.text ++ Form.tailText tail) :: gs)
      (do
        let read ← Form.readGroup (.usual key) first tail
        let more ← result
        return read.map Fragment.elementEvent ++ more)

namespace Scored

theorem append {key : Key} {track : Nat} {es more : List (Event R)} {fs gs fs' gs' : List Text}
    {result result' : Except Error (List (Event R))} (h : Scored key track es fs gs result)
    (hmore : Scored (Event.keyAfterAll key es) (Event.trackAfterAll track es) more fs' gs' result') :
    Scored key track (es ++ more) (fs ++ fs') (gs ++ gs') (do
      let first ← result
      let second ← result'
      return first ++ second) := by
  induction h with
  | nil => cases result' <;> exact hmore
  | @silent key track e es fs gs result still silent _ ih =>
    have hstay : e.keyAfter key = key ∧ e.trackAfter track = track := by
      cases e <;> first | exact ⟨rfl, rfl⟩ | cases silent
    rw [Event.keyAfterAll, Event.trackAfterAll, List.foldl_cons, List.foldl_cons, hstay.1,
      hstay.2] at hmore
    exact .silent still silent (ih hmore)
  | @single key track e es back f g fs gs result still fragment turned announces _ ih =>
    have hall := Scored.single still fragment turned announces (ih hmore)
    cases result with
    | error => exact hall
    | ok first =>
      cases result' with
      | error => exact hall
      | ok second =>
        simp only [Except.map, bind, Except.bind, pure, Except.pure, List.append_assoc] at hall ⊢
        exact hall
  | @group key track e links first tail es fs gs result opens linked _ ih =>
    have hstay := Event.afterAll_elements key track (e :: links)
    rw [Event.keyAfterAll_append, Event.trackAfterAll_append, hstay.1, hstay.2] at hmore
    have hall := Scored.group opens linked (ih hmore)
    rw [List.append_assoc]
    cases hread : Form.readGroup (.usual key) first tail with
    | error =>
      rw [hread] at hall
      exact hall
    | ok read =>
      rw [hread] at hall
      cases result with
      | error => exact hall
      | ok first =>
        cases result' with
        | error => exact hall
        | ok second =>
          simp only [bind, Except.bind, pure, Except.pure, List.append_assoc] at hall ⊢
          exact hall

theorem hear_silent {e : Event R} (still : e.sounds = false) (hs : Writer.fragment? e = none)
    (done : List Text) (track : Nat) : Writer.hear ⟨⟨done⟩, track⟩ e = ⟨⟨done⟩, track⟩ := by
  cases e <;> simp_all [Writer.hear, Writer.fragment?, Event.sounds]

theorem hear_single {e : Event R} {f : Text} (still : e.sounds = false)
    (hf : Writer.fragment? e = some f) (done : List Text) (track : Nat) :
    Writer.hear ⟨⟨done⟩, track⟩ e = ⟨⟨done ++ [f]⟩, e.trackAfter track⟩ := by
  cases e <;>
    simp_all [Writer.hear, Writer.fragment?, Event.sounds, Event.trackAfter, Pattern.push]

/-- The fragments are those that a writer makes. -/
theorem writes {key : Key} {track : Nat} {es : List (Event R)} {fs gs : List Text}
    {result : Except Error (List (Event R))} (h : Scored key track es fs gs result)
    (done : List Text) : (es.foldl Writer.hear ⟨⟨done⟩, track⟩).pattern = ⟨done ++ fs⟩ := by
  induction h generalizing done with
  | nil => simp
  | silent still silent rest ih =>
    rw [List.foldl_cons, hear_silent still silent]
    exact ih done
  | @single _ _ _ _ _ f _ fs _ _ still fragment turned announces rest ih =>
    rw [List.foldl_cons, hear_single still fragment, ih, List.append_assoc]
    rfl
  | group opens linked rest ih =>
    rw [List.foldl_append, hear_group opens linked, ih, List.append_assoc]
    rfl

/-- Expansion makes of the fragments what is said of them. -/
theorem turned {key : Key} {track : Nat} {es : List (Event R)} {fs gs : List Text}
    {result : Except Error (List (Event R))} (h : Scored key track es fs gs result)
    (ctx : NoteContext R) : List.Forall₂ (Expansion.Turned .standard ctx) fs gs := by
  induction h with
  | nil => exact .nil
  | silent still silent rest ih => exact ih
  | single still fragment turned announces rest ih => exact .cons (turned ctx) ih
  | group opens linked rest ih => exact .cons (turned_group opens linked ctx) ih

/-- What a reading comes to: these events, or this failure. -/
def Comes {R : Type} (o : Outcome R) : Except Error (List (Event R)) → Prop
  | .ok es => o.events = es ∧ o.result = .ok ()
  | .error e => o.result = .error e

theorem comes_andThen {R : Type} {back : List (Event R)} {memory : Memory} {next : Memory → Outcome R}
    {result : Except Error (List (Event R))} (h : Comes (next memory) result) :
    Comes (Outcome.andThen ⟨back, memory, .ok ()⟩ next) (result.map fun more => back ++ more) := by
  cases result with
  | error e => exact h
  | ok es => exact ⟨congrArg (back ++ ·) h.1, h.2⟩

/-- What is read from the expanded fragments is what is said of them. -/
theorem reads {key : Key} {track : Nat} {es : List (Event R)} {fs gs : List Text}
    {result : Except Error (List (Event R))} (h : Scored key track es fs gs result) (strict : Bool)
    {memory : Memory} (hm : memory.Holds key) (position : Nat) :
    Comes (Parser.readFragments (Dialect.usual strict) position memory gs) result := by
  induction h generalizing memory position with
  | nil => exact ⟨rfl, rfl⟩
  | silent still silent rest ih => exact ih hm position
  | single still fragment turned announces rest ih =>
    obtain ⟨memory', hm', hread⟩ := announces strict memory hm
    rw [Parser.readFragments, hread position]
    exact comes_andThen (ih hm' _)
  | @group key _ _ _ first tail _ _ _ _ opens linked rest ih =>
    rw [Parser.readFragments,
      Form.readFragment_group opens.spells.sound (sound_of_linked linked) hm]
    cases Form.readGroup (.usual key) first tail with
    | error e => rfl
    | ok read => exact comes_andThen (ih hm _)

theorem readFragments_join (dialect : Dialect R) (memory : Memory) {gs : List Text}
    (h : ∀ g ∈ gs, ' ' ∉ g) :
    Parser.readFragments dialect 0 memory (Text.fields ' ' (Text.join [' '] gs)) =
      Parser.readFragments dialect 0 memory gs := by
  cases gs with
  | nil => rfl
  | cons g rest => rw [Text.fields_join (List.cons_ne_nil g rest) h]

/-- What a fresh parser makes of what is written of the events. -/
theorem parse {es : List (Event R)} {fs gs : List Text} {result : Except Error (List (Event R))}
    (h : Scored .cMajor 0 es fs gs result) (strict : Bool) :
    Comes ((Parser.standard.withStrict strict).parse (Pattern.ofEvents es).text)
      (result.map fun back => .parsingStarts :: back ++ [.parsingEnds]) := by
  have hexpand : (Parser.standard.withStrict strict : Parser R).expand (Text.join [' '] fs) =
      .ok (Text.join [' '] gs) :=
    Expansion.expand_join _ rfl rfl rfl (h.turned _)
  have hspace : ∀ g ∈ gs, ' ' ∉ g := by
    have hturned := h.turned (NoteContext.usual .cMajor)
    clear h hexpand
    induction hturned with
    | nil => simp
    | cons hf _ ih =>
      intro g hg
      rcases List.mem_cons.mp hg with rfl | hg
      · exact hf.noSpace
      · exact ih g hg
  have hreads := h.reads strict (Parser.holds_usual (R := R) strict) 0
  have htext : (Pattern.ofEvents es).text = Text.join [' '] fs := by
    rw [Pattern.ofEvents, Pattern.text, h.writes []]
    rfl
  rw [← readFragments_join _ _ hspace] at hreads
  rw [htext, Parser.parse, Parser.readText, hexpand]
  cases result with
  | error e => exact hreads
  | ok back => exact ⟨congrArg (fun back => .parsingStarts :: back ++ [.parsingEnds]) hreads.1, hreads.2⟩

end Scored

end ScoreText
