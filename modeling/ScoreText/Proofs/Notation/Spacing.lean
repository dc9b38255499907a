import ScoreText.Pattern
import ScoreText.Proofs.Expansion.Fieldwise
import ScoreText.Proofs.Notation.Strictness

/-!
How many spaces stand between fragments does not matter, but for the position at which a strict reading
stops. White space of other kinds does not part fragments.
-/

set_option autoImplicit false

namespace ScoreText

open Text

/-- The same error so many characters further on. -/
def Error.later (k : Nat) : Error → Error
  | .unrecognized token position => .unrecognized token (position + k)
  | e => e

namespace Outcome

variable {R : Type}

def later (k : Nat) (o : Outcome R) : Outcome R := { o with result := o.result.mapError (Error.later k) }

theorem later_of_recognizes {o : Outcome R} (h : Recognizes o.result) (k : Nat) : o.later k = o := by
  obtain ⟨events, memory, result⟩ := o
  cases result with
  | ok u => rfl
  | error e =>
    cases e with
    | unrecognized token position => exact absurd rfl (h token position)
    | _ => rfl

theorem later_zero (o : Outcome R) : o.later 0 = o := by
  obtain ⟨events, memory, result⟩ := o
  cases result with
  | ok u => rfl
  | error e => cases e <;> rfl

theorem later_andThen (o : Outcome R) (k : Nat) (next : Memory → Outcome R) :
    (o.andThen next).later k = (o.later k).andThen fun memory => (next memory).later k := by
  obtain ⟨events, memory, result⟩ := o
  cases result <;> rfl

theorem recognizes_andThen {o : Outcome R} {next : Memory → Outcome R} (ho : Recognizes o.result)
    (hnext : ∀ memory, Recognizes (next memory).result) : Recognizes (o.andThen next).result := by
  obtain ⟨events, memory, result⟩ := o
  cases result with
  | ok u => exact hnext memory
  | error e => exact ho

end Outcome

variable {R : Type} [Scalar R]

namespace Parser

section Reading

variable (dialect : Dialect R)

omit [Scalar R] in
theorem unclaimed_later (position k : Nat) (memory : Memory) (s : Text) :
    unclaimed dialect (position + k) memory s = (unclaimed dialect position memory s).later k := by
  unfold unclaimed
  split <;> rfl

/-- A fragment that stands further on is read as it is otherwise. -/
theorem readFragment_later (fuel position k : Nat) (memory : Memory) (s : Text) :
    readFragment dialect fuel (position + k) memory s =
      (readFragment dialect fuel position memory s).later k := by
  induction fuel generalizing position memory s with
  | zero =>
    cases s with
    | nil => rfl
    | cons c r => exact unclaimed_later dialect position k memory (c :: r)
  | succ fuel ih =>
    cases s with
    | nil => rfl
    | cons c r =>
      cases hfamily : Family.of? (c :: r) with
      | none =>
        rw [readFragment, readFragment, hfamily]
        · exact unclaimed_later dialect position k memory (c :: r)
        · exact List.cons_ne_nil c r
        · exact List.cons_ne_nil c r
      | some family =>
        have hkeeps := family.keeps_read ⟨dialect, memory⟩ (c :: r) (Family.claims_of_of? hfamily)
        cases hresult : (family.read ⟨dialect, memory⟩ (c :: r)).result with
        | error e =>
          have hrecognizes := hkeeps.recognizes
          rw [hresult] at hrecognizes
          rw [readFragment_of_error dialect fuel _ hfamily hresult,
            readFragment_of_error dialect fuel _ hfamily hresult]
          exact (Outcome.later_of_recognizes hrecognizes.error k).symm
        | ok left =>
          obtain ⟨taken, htaken⟩ := hkeeps.suffix left hresult
          rw [readFragment_of_ok dialect fuel _ hfamily htaken hresult,
            readFragment_of_ok dialect fuel _ hfamily htaken hresult, Outcome.later_andThen]
          refine congrArg _ (funext fun memory => ?_)
          rw [Nat.add_right_comm]
          exact ih _ memory left

/-- Empty fragments only take the others further on. -/
theorem readFragments_sheds {fs gs : List Text} (h : Sheds fs gs) (position j : Nat) (memory : Memory) :
    ∃ k, readFragments dialect (position + j) memory fs =
      (readFragments dialect position memory gs).later k := by
  induction h generalizing position j memory with
  | nil => exact ⟨0, rfl⟩
  | @keep f fs gs _ ih =>
    rw [readFragments, readFragments, readFragment_later]
    obtain ⟨o, ho⟩ : ∃ o, readFragment dialect f.length position memory f = o := ⟨_, rfl⟩
    rw [ho]
    obtain ⟨events, memory', result⟩ := o
    cases result with
    | error e => exact ⟨j, rfl⟩
    | ok u =>
      obtain ⟨k, hk⟩ := ih (position + f.length + 1) j memory'
      refine ⟨k, ?_⟩
      have hplace : position + j + f.length + 1 = position + f.length + 1 + j := by omega
      rw [Outcome.later_andThen, hplace]
      simp only [Outcome.andThen, Outcome.later, Except.mapError, hk]
  | @shed fs gs _ ih =>
    obtain ⟨k, hk⟩ := ih position (j + 1) memory
    refine ⟨k, ?_⟩
    rw [← hk, readFragments]
    rfl

/-- A permissive reading does not fail for want of a family. -/
theorem recognizes_readFragments (h : dialect.settings.strict = false) (position : Nat) (memory : Memory)
    (fs : List Text) : Recognizes (readFragments dialect position memory fs).result := by
  have hsame : dialect.withStrict false = dialect := by
    rw [Dialect.withStrict, ← h]
  induction fs generalizing position memory with
  | nil => exact recognizes_ok _
  | cons f rest ih =>
    refine Outcome.recognizes_andThen ?_ fun memory => ih _ memory
    rcases beside_readFragment dialect (Nat.le_refl f.length) position memory with
      ⟨hrecognizes, hstrict⟩ | ⟨taken, token, -, -, -, -, hpermissive⟩
    · rw [hstrict, hsame] at hrecognizes
      exact hrecognizes
    · rw [hsame] at hpermissive
      rw [hpermissive]
      exact recognizes_ok _

end Reading

theorem recognizes_parse (p : Parser R) (h : p.isStrict = false) (s : Text) :
    Recognizes (p.parse s).result := by
  have hread : Recognizes (p.readText s).result := by
    have hexpand := p.recognizes_expand s
    unfold readText
    split
    · rename_i e he
      rw [he] at hexpand
      exact hexpand.error
    · exact recognizes_readFragments p.dialect h 0 p.memory _
  exact hread

variable {p : Parser R} {s t : Text}

/-- What is announced of two texts whose fields differ in empty ones only. -/
theorem parse_sheds (hsubst : p.substitution.values.isEmpty = true) (hstages : p.extraStages = [])
    (hs : Ungrouped s) (ht : Ungrouped t) (h : Sheds (Text.fields ' ' s) (Text.fields ' ' t)) :
    ∃ k, p.parse s = (p.parse t).later k := by
  have hread : ∃ k, p.readText s = (p.readText t).later k := by
    unfold readText
    rcases sheds_expand hsubst hstages hs ht h with ⟨e, hu, hv⟩ | ⟨u, v, hu, hv, hshed⟩
    · exact ⟨0, by rw [hu, hv, Outcome.later_zero]⟩
    · rw [hu, hv]
      exact readFragments_sheds p.dialect hshed 0 0 p.memory
  obtain ⟨k, hk⟩ := hread
  exact ⟨k, by rw [parse, hk]; rfl⟩

end Parser

namespace Text

/-- Where all white space is spaces, the words are the fields that are not empty. -/
theorem words_eq_fields {s : Text} (h : ∀ c ∈ s, isBlank c = true → c = ' ') :
    words s = (fields ' ' s).filter (!·.isEmpty) := by
  have hruns : runs s = fields ' ' s := by
    induction s with
    | nil => rfl
    | cons c r ih =>
      obtain ⟨hc, hr⟩ := List.forall_mem_cons.mp h
      rw [runs, fields, ih hr]
      by_cases hspace : c = ' '
      · subst hspace
        rfl
      · refine (if_neg fun hb => hspace (hc hb)).trans (Eq.trans ?_ (if_neg hspace).symm)
        cases fields ' ' r <;> rfl
  rw [words, hruns]

end Text

namespace Parser

/-- A text without groups and instructions is read as its tight form is, in a parser that replaces no keys
and has no stages of the user's: the same is announced and remembered, and the answer is the same but
that a piece that nothing claims may stand further on. A permissive reading, which passes over such
pieces, is the same altogether. Where all white space is spaces, that form is the pattern of the text. -/
theorem parse_spaced {p : Parser R} (hsubst : p.substitution.values.isEmpty = true)
    (hstages : p.extraStages = []) {s : Text} (h : Ungrouped s) :
    (∃ k, p.parse s = (p.parse (tight s)).later k) ∧
      (p.isStrict = false → p.parse s = p.parse (tight s)) ∧
      ((∀ c ∈ s, isBlank c = true → c = ' ') → tight s = (Pattern.ofText s).text) := by
  obtain ⟨k, hk⟩ := parse_sheds hsubst hstages h h.tight (sheds_fields_tight s)
  refine ⟨⟨k, hk⟩, fun hlax => ?_, fun hblank => ?_⟩
  · rw [hk, Outcome.later_of_recognizes (p.recognizes_parse hlax _)]
  · rw [tight, Pattern.text, Pattern.ofText, words_eq_fields hblank]

/-- Two notes are read alike however many spaces part them, but with a line break between them the second
one is lost, which is there in the pattern. -/
theorem spaced_notes_read_alike :
    let p := (standard : Parser Rat)
    p.parse "  C5Q   D5Q ".toList = p.parse (Pattern.ofText "  C5Q   D5Q ".toList).text ∧
      (Event.notes (p.parse "C5Q\nD5Q".toList).events).map Note.value = [60] ∧
      (Event.notes (p.parse (Pattern.ofText "C5Q\nD5Q".toList).text).events).map Note.value =
        [60, 62] := by
  intro p
  obtain ⟨-, hsame, hpattern⟩ := parse_spaced (p := p) rfl rfl (s := "  C5Q   D5Q ".toList) (by decide)
  refine ⟨?_, by decide +kernel, by decide +kernel⟩
  rw [hsame rfl, hpattern (by decide)]

end Parser

end ScoreText
