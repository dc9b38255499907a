import ScoreText.Proofs.Expansion.Behind
import ScoreText.Proofs.Expansion.Captions
import ScoreText.Proofs.Notation.Composing
import ScoreText.Proofs.Notation.Script

/-!
Lyrics and markers arrive as they were written. No stage of expansion touches the text of a caption but
to protect its spaces, and reading brings these back.
-/

set_option autoImplicit false

namespace ScoreText

open Text Stage Expansion

variable {R : Type}

/-- What is announced of a lyric or a marker. -/
def Event.captions (sign : Char) (text : Text) : List (Event R) :=
  if sign = '&' then [.lyric text] else [.marker text, .bookmark text]

namespace Fragment

variable {text : Text}

theorem replaceChar_self {mark value : Char} (h : mark ∉ text) : replaceChar mark value text = text := by
  refine (List.map_congr_left fun c hc => ?_).trans (List.map_id text)
  have hother : c ≠ mark := fun he => h (he ▸ hc)
  exact if_neg hother

/-- Spaces that were protected come back. -/
theorem replaceChar_back (h : Parentheses.protectedSpace ∉ text) :
    replaceChar Parentheses.protectedSpace ' ' (replaceChar ' ' Parentheses.protectedSpace text) =
      text := by
  rw [replaceChar, replaceChar, List.map_map]
  refine (List.map_congr_left fun c hc => ?_).trans (List.map_id text)
  have hother : c ≠ Parentheses.protectedSpace := fun he => h (he ▸ hc)
  by_cases hspace : c = ' '
  · simp [hspace]
  · simp [hspace, hother]

theorem captionText_enclosed (h : Parentheses.protectedSpace ∉ text) :
    captionText ('(' :: (replaceChar ' ' Parentheses.protectedSpace text ++ [')'])) = text := by
  have hinner : ((after? ['('] ('(' :: (replaceChar ' ' Parentheses.protectedSpace text ++ [')']))).bind
      (before? [')'])) = some (replaceChar ' ' Parentheses.protectedSpace text) := by
    simp [after?, before?]
  rw [captionText, hinner]
  exact replaceChar_back h

theorem captionText_bare (hopen : '(' ∉ text) (h : Parentheses.protectedSpace ∉ text) :
    captionText text = text := by
  have hnone : after? ['('] text = none := by
    refine if_neg fun hfront => ?_
    cases text with
    | nil => cases hfront
    | cons c r =>
      have hc : '(' = c := by simpa [List.isPrefixOf] using hfront
      exact hopen (hc ▸ List.mem_cons_self)
  rw [captionText, hnone]
  exact replaceChar_self h

end Fragment

variable [Scalar R]

namespace Parser

/-- A caption is read whole, and nothing is remembered of it. -/
theorem readFragments_caption (dialect : Dialect R) (position : Nat) (memory : Memory) {sign : Char}
    (hsign : sign = '&' ∨ sign = '!') (r : Text) :
    readFragments dialect position memory [sign :: r] =
      ⟨Event.captions sign (Fragment.captionText r), memory, .ok ()⟩ := by
  have hone : readFragment dialect (sign :: r).length position memory (sign :: r) =
      ⟨Event.captions sign (Fragment.captionText r), memory, .ok ()⟩ := by
    rcases hsign with rfl | rfl
    · exact readFragment_ok (List.cons_ne_nil _ _) (rfl : Family.of? _ = some .caption) rfl position
    · exact readFragment_ok (List.cons_ne_nil _ _) (rfl : Family.of? _ = some .caption) rfl position
  rw [readFragments, hone]
  simp [Outcome.andThen, readFragments]

/-- A caption as it can be written: in parentheses, or by itself when it holds no white space. -/
inductive Captions (sign : Char) (text : Text) : Text → Prop where
  | enclosed : Captions sign text (Captioned.enclosed sign text)
  | bare (h : ∀ c ∈ text, isBlank c = false) : Captions sign text (sign :: text)

variable {p : Parser R} {sign : Char} {text a b : Text}

theorem ungrouped_bare (h : Captioned sign text) : Ungrouped (sign :: text) := by
  obtain ⟨hparen, hbrace, -⟩ := h.sign_ne
  have htext : '{' ∉ text := fun hm => (h.chars _ hm).2.2 rfl
  exact ⟨by simpa [hparen.symm] using h.paren_not_mem, by simpa [hbrace.symm] using htext⟩

/-- A caption by itself expands to itself. -/
theorem expand_bare (hp : p.Partwise) (hstages : p.extraStages = []) (h : Captioned sign text)
    (hblank : ∀ c ∈ text, isBlank c = false) : p.expand (sign :: text) = .ok (sign :: text) := by
  have hplain := ungrouped_bare h
  -- without braces it makes no difference which instructions there are
  have hbare : ({ p with instructions := .empty } : Parser R).Partwise := ⟨hp.substitution, hp.stages⟩
  have hsame : p.expand (sign :: text) =
      ({ p with instructions := .empty } : Parser R).expand (sign :: text) :=
    (expand_ungrouped hp hplain).trans (expand_ungrouped hbare hplain).symm
  rw [hsame]
  exact expand_join { p with instructions := .empty } hp.substitution rfl hstages
    (.cons (h.turned_bare hblank _ _) .nil)

section Form

variable {form : Text}

/-- A caption is detached however it is written. -/
theorem Captions.detached (hform : Captions sign text form) (h : Captioned sign text) :
    Detached form := by
  cases hform with
  | bare => exact (ungrouped_bare h).detached
  | enclosed =>
    obtain ⟨hparen, hbrace, hcolon, -, -, hblank⟩ := h.sign_ne
    have hsign : ∀ c ∈ [sign], isBlank c = false ∧ c ≠ '(' ∧ c ≠ ':' :=
      List.forall_mem_singleton.mpr ⟨hblank, hparen, hcolon⟩
    have hcased : Casing.apply (Captioned.enclosed sign text) = behind [sign] text :=
      Except.ok.inj ((casing_run _).trans (Turns.run_join (.cons h.cased_enclosed .nil)))
    have hprotected : Parentheses.protect (behind [sign] text) =
        Captioned.enclosed sign (replaceChar ' ' Parentheses.protectedSpace text) :=
      Except.ok.inj ((captions_run _).trans (Turns.run_join (.cons h.protected_enclosed .nil)))
    have htext : '{' ∉ text := fun hm => (h.chars _ hm).2.2 rfl
    refine ⟨by simp [Captioned.enclosed, htext, hbrace.symm], fun t ht => ?_⟩
    rw [forms, hcased, collect_behind hsign (List.cons_ne_nil _ _) h.paren_not_mem, Parentheses.joinUp,
      closeUp_behind hsign h.paren_not_mem, hprotected] at ht
    have hends : ∀ inner, Closed (Captioned.enclosed sign inner) :=
      fun inner => Closed.concat (sign :: '(' :: inner)
    simp only [List.mem_cons, List.not_mem_nil, or_false] at ht
    rcases ht with rfl | rfl | rfl | rfl | rfl <;> exact hends _

/-- It becomes one fragment that holds its text. -/
theorem Captions.expand (hform : Captions sign text form) (h : Captioned sign text)
    (hspace : Parentheses.protectedSpace ∉ text) (hp : p.Partwise) (hstages : p.extraStages = []) :
    ∃ r, p.expand form = .ok (sign :: r) ∧ ' ' ∉ sign :: r ∧ Fragment.captionText r = text := by
  cases hform with
  | bare hblank =>
    refine ⟨text, expand_bare hp hstages h hblank, fun hm => ?_, Fragment.captionText_bare h.paren_not_mem hspace⟩
    rcases List.mem_cons.mp hm with hm | hm
    · exact h.sign_ne.2.2.2.1 hm.symm
    · exact absurd (hblank _ hm) (by decide)
  | enclosed =>
    have hturned := h.turned_enclosed p.dialect.functions p.context.noteContext
    have hbrace := ((Captions.enclosed : Captions sign text _).detached h).brace
    -- without braces it makes no difference which instructions there are
    have hbare := expand_join { p with instructions := .empty } hp.substitution rfl hstages
      (.cons hturned .nil)
    rw [join, expand_unbraced { p with instructions := .empty } hp.substitution hbrace] at hbare
    refine ⟨_, ?_, hturned.noSpace, Fragment.captionText_enclosed hspace⟩
    rw [expand_unbraced p hp.substitution hbrace]
    exact hbare

/-- However a caption is written, it becomes one fragment that holds its text, and the texts on either side
become what they become by themselves. -/
theorem expand_caption (hsubst : p.substitution.values.isEmpty = true) (hstages : p.extraStages = [])
    (h : Captioned sign text) (hspace : Parentheses.protectedSpace ∉ text)
    (hform : Captions sign text form) (ha : Ungrouped a) (hb : Ungrouped b) :
    ∃ r, ' ' ∉ sign :: r ∧ Fragment.captionText r = text ∧
      ∀ w, p.expand (a ++ ' ' :: (form ++ ' ' :: b)) = .ok w ↔
        ∃ u v, p.expand a = .ok u ∧ p.expand b = .ok v ∧ w = u ++ ' ' :: (sign :: r ++ ' ' :: v) := by
  have hp : p.Partwise := ⟨hsubst, by simp [hstages]⟩
  obtain ⟨r, hr, hnoSpace, htext⟩ := hform.expand h hspace hp hstages
  have hall : ∀ x ∈ [a, form, b], Detached x := by
    simpa using ⟨ha.detached, hform.detached h, hb.detached⟩
  have hparts := expand_parts hp (List.cons_ne_nil a [form, b]) hall
  simp only [join, List.append_assoc, List.singleton_append] at hparts
  refine ⟨r, hnoSpace, htext, fun w => (hparts w).trans ?_⟩
  constructor
  · rintro ⟨_, ⟨⟩ | ⟨hu, ⟨⟩ | ⟨hs, ⟨⟩ | ⟨hv, ⟨⟩⟩⟩⟩, rfl⟩
    obtain rfl := Except.ok.inj (hr.symm.trans hs)
    exact ⟨_, _, hu, hv, by simp [join]⟩
  · rintro ⟨u, v, hu, hv, rfl⟩
    exact ⟨[u, sign :: r, v], .cons hu (.cons hr (.cons hv .nil)), by simp [join]⟩

end Form

/-- A lyric or a marker among texts without groups and instructions is announced by exactly its text,
whatever characters that holds, in a parser that replaces no keys and has no stages of the user's. Before
it comes what the text in front of it announces by itself, and after it what the fragments announce that
the text behind it expands to by itself. -/
theorem caption_verbatim (hsubst : p.substitution.values.isEmpty = true) (hstages : p.extraStages = [])
    (h : Captioned sign text) (hspace : Parentheses.protectedSpace ∉ text) {form : Text}
    (hform : Captions sign text form) (ha : Ungrouped a) (hb : Ungrouped b)
    (hok : (p.parse (a ++ ' ' :: (form ++ ' ' :: b))).result = .ok ()) :
    (p.parse a).result = .ok () ∧ ∃ v, p.expand b = .ok v ∧
      let rest := readFragments p.dialect 0 (p.after a).memory (Text.fields ' ' v)
      rest.result = .ok () ∧
        p.parse (a ++ ' ' :: (form ++ ' ' :: b)) =
          ⟨.parsingStarts :: ((p.readText a).events ++ (Event.captions sign text ++ rest.events)) ++
            [.parsingEnds], rest.memory, .ok ()⟩ := by
  obtain ⟨r, hnoSpace, htext, hexpand⟩ := expand_caption hsubst hstages h hspace hform ha hb
  obtain ⟨w, hw, hread⟩ := ok_of_readText hok
  obtain ⟨u, v, hu, hv, rfl⟩ := (hexpand w).mp hw
  have hfields : Text.fields ' ' (u ++ ' ' :: (sign :: r ++ ' ' :: v)) =
      Text.fields ' ' u ++ ([sign :: r] ++ Text.fields ' ' v) := by
    rw [fields_append_fields, fields_append_fields, fields_self hnoSpace]
  have hfirst : p.readText a = readFragments p.dialect 0 p.memory (Text.fields ' ' u) := by
    rw [readText, hu]
  obtain ⟨first, hfirstAt⟩ : ∃ position, position = positionAfter 0 (Text.fields ' ' u) := ⟨_, rfl⟩
  obtain ⟨later, hlaterAt⟩ : ∃ position, position = positionAfter first [sign :: r] := ⟨_, rfl⟩
  have hjoined : p.readText (a ++ ' ' :: (form ++ ' ' :: b)) =
      (p.readText a).andThen fun memory =>
        (readFragments p.dialect first memory [sign :: r]).andThen fun memory =>
          readFragments p.dialect later memory (Text.fields ' ' v) := by
    rw [hread, hfields, hfirst, readFragments_append, hlaterAt, hfirstAt]
    exact congrArg _ (funext fun memory => readFragments_append p.dialect _ memory _ _)
  have hwhole : ((p.readText a).andThen fun memory =>
        (readFragments p.dialect first memory [sign :: r]).andThen fun memory =>
          readFragments p.dialect later memory (Text.fields ' ' v)).result = .ok () := hjoined ▸ hok
  obtain ⟨hbefore, hafter⟩ := Outcome.ok_of_andThen hwhole
  simp only [readFragments_caption p.dialect first _ h.sign, htext] at hafter hjoined
  have hrest := (Outcome.ok_of_andThen hafter).2
  have hsame := readFragments_position p.dialect hrest 0
  refine ⟨hbefore, v, hv, hsame ▸ hrest, ?_⟩
  have hmemory : (p.after a).memory = (p.readText a).memory := rfl
  rw [parse, hjoined, hmemory, hsame]
  simp only [Outcome.andThen, hbefore]
  rw [hrest]

/-- Words that would mean something elsewhere, with a tab among the white space. -/
def takeName : Text := "Verse 1: take\tM440 again".toList

/-- Between two notes, a marker has its text, and so does the bookmark that it sets. -/
theorem takeName_verbatim :
    let p := (standard : Parser Rat)
    ∃ after, (p.parse ("C5Q".toList ++ ' ' :: (Captioned.enclosed '!' takeName ++
        ' ' :: "D5Q".toList))).events =
      .parsingStarts :: ((p.readText "C5Q".toList).events ++
        ([.marker takeName, .bookmark takeName] ++ after)) ++ [.parsingEnds] := by
  intro p
  have hcaption : Captioned '!' takeName := by decide
  have hok : (p.parse ("C5Q".toList ++ ' ' :: (Captioned.enclosed '!' takeName ++
      ' ' :: "D5Q".toList))).result = .ok () := by decide +kernel
  obtain ⟨-, v, -, -, hparse⟩ :=
    caption_verbatim rfl rfl hcaption (by decide) .enclosed (by decide) (by decide) hok
  exact ⟨_, congrArg Outcome.events hparse⟩

end Parser

end ScoreText
