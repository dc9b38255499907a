import ScoreText.Notation.Fragment
import ScoreText.Pattern
import ScoreText.Proofs.Notation.Elements

/-!
Groups of joined notes: a group is written as one fragment, and read from it note by note.
-/

set_option autoImplicit false

namespace ScoreText

open NoteContext

/-- How a note is joined to the one before it: behind it, or sounding with it. -/
def linkSign (melodic : Bool) : Char := if melodic then '_' else '+'

def linkJoint (melodic : Bool) : Joint := if melodic then .melodic else .harmonic

section

variable {R ι : Type}

/-- Items written one after the other, each behind the sign that joins it. -/
def linksText (write : ι → Text) (tail : List (Bool × ι)) : Text :=
  tail.flatMap fun link => linkSign link.1 :: write link.2

/-- The elements that joined items are read as, as far as each of them can be read. -/
def readLinks (read : ι → Except Error (Element R)) : List (Bool × ι) → Except Error (List (Element R))
  | [] => .ok []
  | (melodic, i) :: rest => do
    let e ← read i
    let more ← readLinks read rest
    return join (linkJoint melodic) e :: more

/-- A text that is read like this wherever it stands among joined ones. -/
structure ReadsAs [Scalar R] (ctx : NoteContext R) (s : Text) (read : Except Error (Element R)) : Prop where
  starts : ∃ c r, s = c :: r ∧ startsNote c = true
  element (text : Text) {rest : Text} (h : Seam rest) :
    ctx.readElement text (s ++ rest) = read.map fun e => (e, rest)

theorem seam_links (write : ι → Text) (tail : List (Bool × ι)) : Seam (linksText write tail) := by
  cases tail with
  | nil => simp [Seam, linksText]
  | cons link rest =>
    obtain ⟨melodic, i⟩ := link
    intro c hc
    obtain rfl := Option.some.inj hc
    cases melodic
    · exact .inl rfl
    · exact .inr rfl

theorem length_links_le (write : ι → Text) (tail : List (Bool × ι)) :
    tail.length ≤ (linksText write tail).length := by
  induction tail with
  | nil => exact Nat.le_refl 0
  | cons link rest ih =>
    simp only [linksText, List.flatMap_cons, List.length_cons, List.length_append] at ih ⊢
    omega

variable [Scalar R] {ctx : NoteContext R} {write : ι → Text} {read : ι → Except Error (Element R)}

theorem ReadsAs.readJoint? {s : Text} {element : Except Error (Element R)} (h : ReadsAs ctx s element)
    (melodic : Bool) (rest : Text) :
    readJoint? (linkSign melodic :: (s ++ rest)) = some (linkJoint melodic, s ++ rest) := by
  obtain ⟨c, r, rfl, hc⟩ := h.starts
  rw [List.cons_append, NoteContext.readJoint?, if_pos hc]
  cases melodic <;> rfl

/-- Joined items are read one after the other. -/
theorem readJoined_links (text : Text) (tail : List (Bool × ι)) {first : ι}
    (hfirst : ReadsAs ctx (write first) (read first))
    (htail : ∀ link ∈ tail, ReadsAs ctx (write link.2) (read link.2)) {fuel : Nat} (hfuel : tail.length < fuel)
    (joint : Joint) :
    ctx.readJoined text fuel joint (write first ++ linksText write tail) = (do
      let e ← read first
      let more ← readLinks read tail
      return (join joint e :: more, [])) := by
  induction tail generalizing first fuel joint with
  | nil =>
    obtain ⟨fuel, rfl⟩ : ∃ k, fuel = k + 1 := ⟨fuel - 1, by omega⟩
    rw [readJoined, hfirst.element text (seam_links write [])]
    cases read first <;> rfl
  | cons link rest ih =>
    obtain ⟨melodic, next⟩ := link
    obtain ⟨fuel, rfl⟩ : ∃ k, fuel = k + 1 := ⟨fuel - 1, by omega⟩
    have hfuel' : rest.length < fuel := by
      rw [List.length_cons] at hfuel
      omega
    have hnext : ReadsAs ctx (write next) (read next) := htail _ List.mem_cons_self
    have hrest := ih hnext (fun l hl => htail l (List.mem_cons_of_mem _ hl)) hfuel' (linkJoint melodic)
    have htext : linksText write ((melodic, next) :: rest) =
        linkSign melodic :: (write next ++ linksText write rest) := rfl
    rw [readJoined, hfirst.element text (seam_links write _)]
    cases read first with
    | error e => rfl
    | ok e =>
      simp only [Except.map, bind, Except.bind, htext, hnext.readJoint?, hrest, readLinks]
      cases read next with
      | error e => rfl
      | ok f => cases readLinks read rest <;> rfl

theorem read_links {tail : List (Bool × ι)} {first : ι} (hfirst : ReadsAs ctx (write first) (read first))
    (htail : ∀ link ∈ tail, ReadsAs ctx (write link.2) (read link.2)) :
    ctx.read (write first ++ linksText write tail) = (do
      let e ← read first
      let more ← readLinks read tail
      return (join .opening e :: more, [])) := by
  have hlength := length_links_le write tail
  rw [NoteContext.read, readJoined_links _ tail hfirst htail (by simp only [List.length_append]; omega)]

end

namespace Form

variable {R : Type} [Scalar R]

def tailText : List (Bool × Form R) → Text
  | [] => []
  | (melodic, form) :: rest => linkSign melodic :: (form.text ++ tailText rest)

def readTail (ctx : NoteContext R) : List (Bool × Form R) → Except Error (List (Element R))
  | [] => .ok []
  | (melodic, form) :: rest => do
    let e ← form.read ctx
    let more ← readTail ctx rest
    return join (linkJoint melodic) e :: more

/-- The elements that a group is read as. -/
def readGroup (ctx : NoteContext R) (first : Form R) (tail : List (Bool × Form R)) :
    Except Error (List (Element R)) := do
  let e ← first.read ctx
  let more ← readTail ctx tail
  return join .opening e :: more

theorem tailText_eq (tail : List (Bool × Form R)) : tailText tail = linksText text tail := by
  induction tail with
  | nil => rfl
  | cons link rest ih =>
    rw [tailText, ih]
    rfl

theorem readTail_eq (ctx : NoteContext R) (tail : List (Bool × Form R)) :
    readTail ctx tail = readLinks (read ctx) tail := by
  induction tail with
  | nil => rfl
  | cons link rest ih => rw [readTail, ih, readLinks]

theorem head_text (form : Form R) : ∃ c r, form.text = c :: r ∧ startsNote c = true ∧ c ≠ '~' := by
  have htone : ∀ tone : ToneForm, ∃ c r, tone.text = c :: r ∧ startsNote c = true ∧ c ≠ '~' := by
    intro tone
    cases tone with
    | rest => exact ⟨'R', [], rfl, by decide, by decide⟩
    | named name value hn => exact ⟨'[', name ++ [']'], rfl, by decide, by decide⟩
    | spelled s =>
      have hall : ∀ c ∈ ['C', 'D', 'E', 'F', 'G', 'A', 'B'], startsNote c = true ∧ c ≠ '~' := by decide
      exact ⟨s.letter, _, rfl, hall _ s.letter_cases⟩
  cases form with
  | note tone like =>
    obtain ⟨c, r, ht, hc⟩ := htone tone
    exact ⟨c, r ++ Text.upper like.suffix, by rw [Form.text, ht]; rfl, hc⟩
  | chord tone name shape carets like =>
    obtain ⟨c, r, ht, hc⟩ := htone tone
    exact ⟨c, _, by rw [Form.text, ht]; rfl, hc⟩

theorem readsAs {ctx : NoteContext R} (hctx : ctx.Usual) {form : Form R} (hf : form.Sound) :
    ReadsAs ctx form.text (form.read ctx) := by
  obtain ⟨c, r, htext, hstart, -⟩ := form.head_text
  exact ⟨⟨c, r, htext, hstart⟩, fun text _ h => readElement_text hctx text hf h⟩

theorem read_text {ctx : NoteContext R} (hctx : ctx.Usual) {first : Form R} (hf : first.Sound)
    {tail : List (Bool × Form R)} (htail : ∀ link ∈ tail, link.2.Sound) :
    ctx.read (first.text ++ tailText tail) = (readGroup ctx first tail).map fun es => (es, []) := by
  rw [tailText_eq, read_links (readsAs hctx hf) fun link hlink => readsAs hctx (htail link hlink), readGroup,
    readTail_eq]
  cases first.read ctx with
  | error e => rfl
  | ok e => cases readLinks (read ctx) tail <;> rfl

end Form

/-- What a writer on a track writes for a note or a chord. -/
def Element.text {R : Type} [Scalar R] (track : Nat) : Element R → Text
  | .note n => if track = Symbols.percussionTrack then n.percussionText else n.text
  | .chord c => c.text

/-- The form is what is written of an element on a track. -/
structure Form.Spells {R : Type} [Scalar R] (form : Form R) (track : Nat) (e : Element R) : Prop where
  sound : form.Sound
  text : Text.upper (e.text track) = form.text
  plain : ∀ c ∈ e.text track, Expansion.plainChar c = true ∧ c ≠ ':'

end ScoreText
