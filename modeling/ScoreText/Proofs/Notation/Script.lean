import ScoreText.Proofs.Expansion.Joining
import ScoreText.Proofs.Notation.Groups
import ScoreText.Session

/-!
Whole notations that a writer has written: events fragment by fragment, what expansion makes of the
fragments, and what is read from them.
-/

set_option autoImplicit false

namespace ScoreText

open NoteContext

variable {R : Type} [Scalar R]

/-- The standard dialect, strict or not. -/
def Dialect.usual (strict : Bool) : Dialect R :=
  (Parser.standard.withStrict strict).dialect

/-- A usual context in a key. -/
def NoteContext.usual (key : Key) : NoteContext R := ⟨.standard, key, .standard, .standard⟩

theorem NoteContext.usual_spec (key : Key) : (NoteContext.usual key : NoteContext R).Usual := by
  constructor <;> simp only [NoteContext.usual]

/-- Memory with the standard symbols and a key. -/
structure Memory.Holds (memory : Memory) (key : Key) : Prop where
  symbols : memory.symbols = .standard
  key : memory.key = key

theorem Memory.Holds.noteContext {memory : Memory} {key : Key} (h : memory.Holds key) (strict : Bool) :
    (⟨Dialect.usual strict, memory⟩ : Context R).noteContext = NoteContext.usual key := by
  simp only [Context.noteContext, h.symbols, h.key, NoteContext.usual, Dialect.usual,
    Parser.withStrict, Parser.standard, Parser.ofDialect, Dialect.standard, Dialect.ofSettings,
    ReadingSettings.standard]

/-- A fresh parser knows the standard symbols and no key. -/
theorem Parser.holds_usual (strict : Bool) :
    (Parser.standard.withStrict strict : Parser R).memory.Holds .cMajor := by
  constructor <;> simp only [Parser.withStrict, Parser.standard, Parser.ofDialect, Memory.initial,
    Dialect.standard, Dialect.ofSettings]

namespace Event

variable {R : Type}

/-- The key in force after an event. -/
def keyAfter (key : Key) : Event R → Key
  | .keySignature fifths mode => Key.ofSignature fifths mode
  | _ => key

/-- The track that a writer is on after an event. -/
def trackAfter (track : Nat) : Event R → Nat
  | .track n => n
  | _ => track

def keyAfterAll (key : Key) (es : List (Event R)) : Key := es.foldl keyAfter key

def trackAfterAll (t : Nat) (es : List (Event R)) : Nat := es.foldl trackAfter t

theorem keyAfterAll_append (key : Key) (es more : List (Event R)) :
    keyAfterAll key (es ++ more) = keyAfterAll (keyAfterAll key es) more := List.foldl_append

theorem trackAfterAll_append (t : Nat) (es more : List (Event R)) :
    trackAfterAll t (es ++ more) = trackAfterAll (trackAfterAll t es) more := List.foldl_append

/-- Notes and chords leave the key and the track as they are. -/
theorem afterAll_elements (key : Key) (t : Nat) (elements : List (Element R)) :
    keyAfterAll key (elements.map Fragment.elementEvent) = key ∧
      trackAfterAll t (elements.map Fragment.elementEvent) = t := by
  induction elements with
  | nil => exact ⟨rfl, rfl⟩
  | cons e rest ih => cases e <;> exact ih

/-- Whether an event is a note or a chord. -/
def sounds : Event R → Bool
  | .note _ => true
  | .chord _ => true
  | _ => false

/-- Lyrics, markers, bookmarks and calls of functions without an event of their own. -/
def isVerbal : Event R → Bool
  | .lyric _ | .marker _ | .bookmark _ | .bookmarkRequest _ | .call _ _ => true
  | _ => false

end Event

/-- What is read from a fragment after expansion, and the key in force after it. -/
def Announces (g : Text) (key key' : Key) (back : List (Event R)) : Prop :=
  ∀ (strict : Bool) (memory : Memory), memory.Holds key → ∃ memory' : Memory, memory'.Holds key' ∧
    ∀ position, Parser.readFragment (Dialect.usual strict) g.length position memory g =
      ⟨back, memory', .ok ()⟩

theorem readFragment_ok {dialect : Dialect R} {memory memory' : Memory} {g : Text} {family : Family}
    {back : List (Event R)} (hg : g ≠ []) (hfamily : Family.of? g = some family)
    (hread : family.read ⟨dialect, memory⟩ g = ⟨back, memory', .ok []⟩) (position : Nat) :
    Parser.readFragment dialect g.length position memory g = ⟨back, memory', .ok ()⟩ := by
  cases g with
  | nil => exact absurd rfl hg
  | cons c r =>
    simp only [List.length_cons, Parser.readFragment, hfamily, hread, Outcome.andThen, List.length_nil,
      Nat.zero_lt_succ, if_true, List.append_nil]

theorem readFragment_error {dialect : Dialect R} {memory : Memory} {g : Text} {family : Family}
    {e : Error} (hg : g ≠ []) (hfamily : Family.of? g = some family)
    (hread : family.read ⟨dialect, memory⟩ g = ⟨[], memory, .error e⟩) (position : Nat) :
    Parser.readFragment dialect g.length position memory g = ⟨[], memory, .error e⟩ := by
  cases g with
  | nil => exact absurd rfl hg
  | cons c r => simp only [List.length_cons, Parser.readFragment, hfamily, hread]

namespace Form

theorem family_note {c : Char} {r : Text} (hc : startsNote c = true) (htilde : c ≠ '~') :
    Family.of? (c :: r) = some .note := by
  have hatom : Family.atom.claims (c :: r) = false := by simpa [Family.claims] using htilde
  have hnote : Family.note.claims (c :: r) = true := by simpa [Family.claims] using hc
  simp [Family.of?, Family.all, hatom, hnote]

/-- A group is read from its fragment, if its tones are tones. -/
theorem readFragment_group {first : Form R} (hf : first.Sound) {tail : List (Bool × Form R)}
    (htail : ∀ link ∈ tail, link.2.Sound) {memory : Memory} {key : Key} (hm : memory.Holds key)
    (strict : Bool) (position : Nat) :
    Parser.readFragment (Dialect.usual strict) (first.text ++ tailText tail).length position memory
        (first.text ++ tailText tail) =
      match readGroup (.usual key) first tail with
      | .ok es => ⟨es.map Fragment.elementEvent, memory, .ok ()⟩
      | .error e => ⟨[], memory, .error e⟩ := by
  have hread : Family.note.read ⟨Dialect.usual strict, memory⟩ (first.text ++ tailText tail) =
      match readGroup (.usual key) first tail with
      | .ok es => ⟨es.map Fragment.elementEvent, memory, .ok []⟩
      | .error e => ⟨[], memory, .error e⟩ := by
    rw [Family.read, hm.noteContext, Fragment.readNotes, read_text (usual_spec key) hf htail]
    cases readGroup (.usual key) first tail <;> rfl
  obtain ⟨c, r, hc, hstart, htilde⟩ := first.head_text
  have hne : first.text ++ tailText tail ≠ [] := by simp [hc]
  have hfamily : Family.of? (first.text ++ tailText tail) = some .note := by
    rw [hc]
    exact family_note hstart htilde
  cases hg : readGroup (.usual key) first tail with
  | ok es =>
    rw [hg] at hread
    exact readFragment_ok hne hfamily hread position
  | error e =>
    rw [hg] at hread
    exact readFragment_error hne hfamily hread position

end Form

/-- A note or a chord that goes on a group, and how it stands in a notation. -/
structure Linked (track : Nat) (e : Element R) (link : Bool × Form R) : Prop where
  spells : link.2.Spells track e
  harmonic : e.lead.isHarmonic = !link.1
  melodic : link.1 = true → e.lead.isMelodic = true

/-- A note or a chord that opens a group, and how it stands in a notation. -/
structure Opens (track : Nat) (e : Element R) (form : Form R) : Prop where
  spells : form.Spells track e
  harmonic : e.lead.isHarmonic = false
  melodic : e.lead.isMelodic = false

def writtenTail (track : Nat) (es : List (Element R)) : Text :=
  es.flatMap fun e => linkSign (!e.lead.isHarmonic) :: e.text track

theorem writtenTail_cons (track : Nat) (e : Element R) (es : List (Element R)) :
    writtenTail track (e :: es) =
      linkSign (!e.lead.isHarmonic) :: (e.text track ++ writtenTail track es) := by
  simp [writtenTail]

section Group

variable {track : Nat} {es : List (Element R)} {tail : List (Bool × Form R)}

theorem sound_of_linked (h : List.Forall₂ (Linked track) es tail) : ∀ link ∈ tail, link.2.Sound := by
  induction h with
  | nil => simp
  | cons hlink _ ih =>
    intro link hl
    rcases List.mem_cons.mp hl with rfl | hl
    · exact hlink.spells.sound
    · exact ih link hl

theorem upper_tail (h : List.Forall₂ (Linked track) es tail) :
    Text.upper (writtenTail track es) = Form.tailText tail := by
  have hsign : ∀ b, Text.upper [linkSign b] = [linkSign b] := by decide
  induction h with
  | nil => rfl
  | cons hlink _ ih =>
    rw [writtenTail_cons, ← List.singleton_append, Text.upper_append, hsign, Text.upper_append, ih,
      hlink.spells.text, hlink.harmonic, Bool.not_not]
    rfl

theorem plain_tail (h : List.Forall₂ (Linked track) es tail) :
    ∀ c ∈ writtenTail track es, Expansion.plainChar c = true ∧ c ≠ ':' := by
  have hsign : ∀ b, Expansion.plainChar (linkSign b) = true ∧ linkSign b ≠ ':' := by decide
  induction h with
  | nil => simp [writtenTail]
  | cons hlink _ ih =>
    intro c hc
    rw [writtenTail_cons, List.mem_cons, List.mem_append] at hc
    rcases hc with rfl | hc | hc
    · exact hsign _
    · exact hlink.spells.plain c hc
    · exact ih c hc

theorem hear_tail (h : List.Forall₂ (Linked track) es tail) (done : List Text) (last : Text) :
    (es.map Fragment.elementEvent).foldl Writer.hear ⟨⟨done ++ [last]⟩, track⟩ =
      (⟨⟨done ++ [last ++ writtenTail track es]⟩, track⟩ : Writer) := by
  induction h generalizing last with
  | nil => simp [writtenTail]
  | @cons e link es tail hlink _ ih =>
    have hstep : Writer.hear ⟨⟨done ++ [last]⟩, track⟩ (Fragment.elementEvent e) =
        ⟨⟨done ++ [last ++ linkSign (!e.lead.isHarmonic) :: e.text track]⟩, track⟩ := by
      have hwrite : Writer.hear ⟨⟨done ++ [last]⟩, track⟩ (Fragment.elementEvent e) =
          Writer.writeNote ⟨⟨done ++ [last]⟩, track⟩ (e.text track) e.lead := by
        cases e <;> rfl
      rw [hwrite, Writer.writeNote]
      obtain ⟨melodic, form⟩ := link
      cases melodic with
      | false => simp [hlink.harmonic, Pattern.extend, linkSign]
      | true => simp [hlink.harmonic, hlink.melodic rfl, Pattern.extend, linkSign]
    rw [List.map_cons, List.foldl_cons, hstep, ih, writtenTail_cons, List.append_assoc, List.cons_append]

theorem hear_group {e : Element R} {first : Form R} (ho : Opens track e first)
    (h : List.Forall₂ (Linked track) es tail) (done : List Text) :
    ((e :: es).map Fragment.elementEvent).foldl Writer.hear ⟨⟨done⟩, track⟩ =
      (⟨⟨done ++ [e.text track ++ writtenTail track es]⟩, track⟩ : Writer) := by
  have hwrite : Writer.hear ⟨⟨done⟩, track⟩ (Fragment.elementEvent e) =
      Writer.writeNote ⟨⟨done⟩, track⟩ (e.text track) e.lead := by
    cases e <;> rfl
  rw [List.map_cons, List.foldl_cons, hwrite, Writer.writeNote, ho.harmonic, ho.melodic]
  exact hear_tail h done (e.text track)

/-- A written group is raised in expansion, and nothing else happens to it. -/
theorem turned_group {e : Element R} {first : Form R} (ho : Opens track e first)
    (h : List.Forall₂ (Linked track) es tail) (ctx : NoteContext R) :
    Expansion.Turned Functions.standard ctx (e.text track ++ writtenTail track es)
      (first.text ++ Form.tailText tail) := by
  have hupper : Text.upper (e.text track ++ writtenTail track es) =
      first.text ++ Form.tailText tail := by
    rw [Text.upper_append, ho.spells.text, upper_tail h]
  obtain ⟨c, r, hc, hstart, -⟩ := first.head_text
  have hchars : ∀ c ∈ e.text track ++ writtenTail track es,
      Expansion.plainChar c = true ∧ c ≠ ':' := by
    intro c hc
    rcases List.mem_append.mp hc with hc | hc
    · exact ho.spells.plain c hc
    · exact plain_tail h c hc
  have hhead : (Text.upper (e.text track ++ writtenTail track es)).head? = some c := by
    rw [hupper, hc]
    rfl
  have hplain : Expansion.Plain (e.text track ++ writtenTail track es) := by
    refine ⟨fun hnil => ?_, fun c hc => (hchars c hc).1, fun hat => ?_⟩
    · rw [hnil] at hhead
      cases hhead
    · cases hw : e.text track ++ writtenTail track es with
      | nil =>
        rw [hw] at hat
        cases hat
      | cons d s =>
        rw [hw] at hat hhead
        obtain rfl := Option.some.inj hat
        obtain rfl := Option.some.inj hhead
        exact absurd hstart (by decide)
  have hcolon := Expansion.colon_not_mem_upper hchars
  rw [← hupper]
  refine hplain.turned (fun hm => ?_) ?_ _ ctx
  · rw [hhead] at hm
    obtain rfl := Option.some.inj hm
    exact absurd hstart (by decide)
  · rw [Ornaments.broken?, Text.cut?_none hcolon]

end Group

end ScoreText
