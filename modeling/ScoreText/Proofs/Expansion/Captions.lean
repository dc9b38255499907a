import ScoreText.Proofs.Expansion.Calls

/-!
Expansion of a lyric or a marker: its case stays, and its spaces are protected.
-/

set_option autoImplicit false

namespace ScoreText

open Text Stage

namespace Expansion

variable {R : Type} [Scalar R]

/-- A lyric or a marker that holds nothing a stage could take for the end of a group. -/
structure Captioned (sign : Char) (text : Text) : Prop where
  sign : sign = '&' ∨ sign = '!'
  chars : ∀ c ∈ text, c ≠ '(' ∧ c ≠ ')' ∧ c ≠ '{'

instance (sign : Char) (text : Text) : Decidable (Captioned sign text) :=
  decidable_of_iff ((sign = '&' ∨ sign = '!') ∧ ∀ c ∈ text, c ≠ '(' ∧ c ≠ ')' ∧ c ≠ '{')
    ⟨fun h => ⟨h.1, h.2⟩, fun h => ⟨h.sign, h.chars⟩⟩

namespace Captioned

variable {sign : Char} {text : Text}

theorem sign_ne (h : Captioned sign text) : sign ≠ '(' ∧ sign ≠ '{' ∧ sign ≠ ':' ∧ sign ≠ ' ' ∧
    sign ≠ 'M' ∧ isBlank sign = false := by
  rcases h.sign with rfl | rfl <;> decide

theorem paren_not_mem (h : Captioned sign text) : '(' ∉ text := fun hm => (h.chars _ hm).1 rfl

theorem close_not_mem (h : Captioned sign text) : ')' ∉ text := fun hm => (h.chars _ hm).2.1 rfl

theorem atFragmentStart_of_fits {behind : Text} (h : Fits behind) :
    Casing.atFragmentStart behind = true := by
  rcases h with rfl | h
  · rfl
  · cases behind with
    | nil => rfl
    | cons c r =>
      obtain rfl := Option.some.inj h
      rfl

/-- Where nothing opens behind it, the payload of a caption is its text. -/
theorem payload_bare (h : Captioned sign text) (hb : ∀ c ∈ text, isBlank c = false) {after : Text}
    (ha : Bound after) : Casing.payload (text ++ after) = text := by
  have hopen : ((text ++ after).head? == some '(') = false := by
    have hfront : text.head? ≠ some '(' := fun hc => h.paren_not_mem (List.mem_of_mem_head? hc)
    simpa using head?_append_ne hfront (by decide) ha
  have hall : ∀ c ∈ text, (!isBlank c) = true := fun c hc => by rw [hb c hc]; rfl
  have hstop : after.takeWhile (fun c => !isBlank c) = [] := by
    rcases ha with rfl | ha
    · rfl
    · cases after with
      | nil => rfl
      | cons c r =>
        obtain rfl := Option.some.inj ha
        rfl
  rw [Casing.payload, hopen, if_neg Bool.false_ne_true, List.takeWhile_append_of_pos hall, hstop,
    List.append_nil]

theorem cased_bare (h : Captioned sign text) (hb : ∀ c ∈ text, isBlank c = false) :
    casing.Turns (sign :: text) (sign :: text) := by
  refine turns_of_whole rfl (List.cons_ne_nil _ _) (fun behind after _ _ =>
    findSpared_none (c := ' ') (by decide) behind (sign :: text ++ after) fun hat =>
      absurd hat (by decide)) fun behind after hfit ha => ?_
  refine ⟨⟨sign :: text, (sign :: text).length⟩, ?_, rfl, rfl⟩
  rw [List.cons_append, show casing.find = Casing.findSpared from rfl]
  simp only [Casing.findSpared, Casing.spared?, h.sign, atFragmentStart_of_fits hfit, and_self, if_true,
    h.payload_bare hb ha, Option.map_some]

/-- Without parentheses there is nothing to protect. -/
theorem protected_bare (h : Captioned sign text) (hb : ∀ c ∈ text, isBlank c = false) :
    captions.Turns (sign :: text) (sign :: text) := by
  have hfront : text.head? ≠ some '(' := fun hc => h.paren_not_mem (List.mem_of_mem_head? hc)
  have hsign : isBlank sign = false := h.sign_ne.2.2.2.2.2
  have henclosed : ∀ after, Bound after → Parentheses.enclosed? (text ++ after) = none := by
    intro after ha
    have hopen := head?_append_ne hfront (by decide) ha
    unfold Parentheses.enclosed?
    split
    · rename_i heq
      rw [heq] at hopen
      exact absurd rfl hopen
    · rfl
  refine turns_of_none (fun _ => rfl) (List.cons_ne_nil _ _) (fun behind after _ ha => ?_)
    fun behind after _ ha pre c post hf => ?_
  · rw [List.cons_append, show captions.find = Parentheses.findCaption from rfl,
      findCaption_later h.sign, henclosed after ha]
    rfl
  · cases pre with
    | nil =>
      obtain ⟨rfl, rfl⟩ := List.cons.inj hf
      cases behind with
      | nil =>
        rw [List.reverse_nil, List.nil_append, show captions.find = Parentheses.findCaption from rfl,
          findCaption_first h.sign, henclosed after ha]
        rfl
      | cons d r =>
        exact findCaption_none (.inl (by simp)) fun hc => by rw [hsign] at hc; cases hc
    | cons d r =>
      have hc : c ∈ text := by
        rw [(List.cons.inj hf).2]
        exact List.mem_append_right r List.mem_cons_self
      exact findCaption_none (.inl (by simp)) fun hblank => by rw [hb c hc] at hblank; cases hblank

/-- Without white space a caption is a sign and its text. -/
theorem turned_bare (h : Captioned sign text) (hb : ∀ c ∈ text, isBlank c = false)
    (functions : Functions) (ctx : NoteContext R) :
    Turned functions ctx (sign :: text) (sign :: text) := by
  obtain ⟨hparen, hbrace, hcolon, hspace, hm, hsign⟩ := h.sign_ne
  have hne : sign :: text ≠ [] := List.cons_ne_nil _ _
  have hblank : ∀ c ∈ sign :: text, isBlank c = false := List.forall_mem_cons.mpr ⟨hsign, hb⟩
  have hnoParen : '(' ∉ sign :: text := by simpa [hparen.symm] using h.paren_not_mem
  have hnoSpace : ' ' ∉ sign :: text := fun hs => absurd (hblank ' ' hs) (by decide)
  have hbehind : ∀ pre post, sign :: text = pre ++ ':' :: post → '(' ∉ post := fun pre post hf hp =>
    hnoParen (hf ▸ List.mem_append_right pre (List.mem_cons_of_mem _ hp))
  refine
    { instructions := instructions_turns hne .empty ?_
      cased := ⟨sign :: text, h.cased_bare hb,
        collected_turns hne (fun hc => hparen (Option.some.inj hc)) fun pre c post hf hc => ?_,
        closed_turns hne hbehind, h.protected_bare hb⟩
      ornaments := ornaments_turns hne hbehind functions ctx
      microtones := microtones_turns hne (fun hc => hm (Option.some.inj hc)) hnoSpace
      unbroken := broken?_none ?_ text
      noSpace := hnoSpace }
  · exact List.not_mem_cons_of_ne_of_not_mem hbrace.symm fun hc => (h.chars _ hc).2.2 rfl
  · rw [hblank c (hf ▸ List.mem_append_right pre List.mem_cons_self)] at hc
    cases hc
  · rcases h.sign with rfl | rfl <;> decide

/-- With white space a caption stands in parentheses. -/
def enclosed (sign : Char) (text : Text) : Text := sign :: '(' :: (text ++ [')'])

theorem mem_enclosed {c : Char} (hc : c ∈ enclosed sign text) :
    c = sign ∨ c = '(' ∨ c ∈ text ∨ c = ')' := by
  simpa [enclosed] using hc

/-- Behind the first two characters no parenthesis opens. -/
theorem enclosed_split (h : Captioned sign text) {pre post : Text} {c : Char}
    (hf : enclosed sign text = pre ++ c :: post) :
    (pre = [] ∧ c = sign) ∨ (pre = [sign] ∧ c = '(' ∧ '(' ∉ post) ∨
      (pre ≠ [] ∧ (c ∈ text ∨ c = ')') ∧ '(' ∉ post) := by
  have hbody : '(' ∉ text ++ [')'] := by simpa using h.paren_not_mem
  cases pre with
  | nil => exact .inl ⟨rfl, (List.cons.inj hf).1.symm⟩
  | cons d r =>
    obtain ⟨hd, hr⟩ := List.cons.inj hf
    subst hd
    cases r with
    | nil =>
      obtain ⟨rfl, rfl⟩ := List.cons.inj hr
      exact .inr (.inl ⟨rfl, rfl, hbody⟩)
    | cons e r =>
      have hrest := (List.cons.inj hr).2
      have hc : c ∈ text ++ [')'] := by rw [hrest]; simp
      refine .inr (.inr ⟨by simp, by simpa using hc, fun hp => hbody ?_⟩)
      rw [hrest]
      simp [hp]

/-- In a caption in parentheses none opens behind a colon. -/
theorem colon_enclosed (h : Captioned sign text) {pre post : Text}
    (hf : enclosed sign text = pre ++ ':' :: post) : '(' ∉ post := by
  obtain ⟨-, -, hcolon, -, -, -⟩ := h.sign_ne
  rcases h.enclosed_split hf with ⟨-, heq⟩ | ⟨-, heq, -⟩ | ⟨-, -, hp⟩
  · exact absurd heq.symm hcolon
  · exact absurd heq (by decide)
  · exact hp

/-- A caption in parentheses keeps its case, whatever follows it. -/
theorem findSpared_enclosed (h : Captioned sign text) {behind : Text} (hfit : Fits behind) (after : Text) :
    Casing.findSpared behind (enclosed sign text ++ after) =
      some ⟨enclosed sign text, (enclosed sign text).length⟩ := by
  have hstart := atFragmentStart_of_fits hfit
  have hclose : ')' ∉ '(' :: text := by simpa using h.close_not_mem
  have hspan := throughParenthesis_append hclose after
  have hpayload : Casing.payload ('(' :: (text ++ ')' :: after)) = '(' :: (text ++ [')']) := hspan
  have hsplit : enclosed sign text ++ after = sign :: '(' :: (text ++ ')' :: after) := by
    simp [enclosed]
  rw [hsplit]
  simp only [Casing.findSpared, Casing.spared?, h.sign, hstart, and_self, if_true, hpayload,
    Option.map_some]
  rfl

theorem cased_enclosed (h : Captioned sign text) :
    casing.Turns (enclosed sign text) (enclosed sign text) :=
  turns_of_whole rfl (List.cons_ne_nil _ _) (fun behind after _ _ =>
    findSpared_none (c := ' ') (by decide) behind (enclosed sign text ++ after) fun hat =>
      absurd hat (by decide)) fun behind after hfit _ =>
        ⟨_, h.findSpared_enclosed hfit after, rfl, rfl⟩

theorem enclosed?_text (h : Captioned sign text) (after : Text) :
    Parentheses.enclosed? ('(' :: (text ++ ')' :: after)) = some text := by
  rw [Parentheses.enclosed?, cut?_append h.close_not_mem]
  rfl

/-- The spaces of a caption are protected, where it starts the text and where it follows a space. -/
theorem protected_enclosed (h : Captioned sign text) :
    captions.Turns (enclosed sign text)
      (enclosed sign (Text.replaceChar ' ' Parentheses.protectedSpace text)) := by
  have hsplit : ∀ after, enclosed sign text ++ after = sign :: '(' :: (text ++ ')' :: after) :=
    fun after => by simp [enclosed]
  refine ⟨List.cons_ne_nil _ _, fun after _ => ?_, fun behind after _ _ => ?_⟩
  · have hfind : captions.find [] (enclosed sign text ++ after) =
        some ⟨⟨[], sign, text⟩, text.length + 3⟩ := by
      rw [hsplit, show captions.find = Parentheses.findCaption from rfl, findCaption_first h.sign,
        h.enclosed?_text]
      rfl
    have := onward_found (List.cons_ne_nil _ _) hfind (by simp) rfl
    simpa [Parentheses.Caption.render, enclosed] using this
  · have hfind : captions.find behind ((' ' :: enclosed sign text) ++ after) =
        some ⟨⟨[' '], sign, text⟩, text.length + 4⟩ := by
      rw [List.cons_append, hsplit, show captions.find = Parentheses.findCaption from rfl,
        findCaption_later h.sign, h.enclosed?_text]
      rfl
    have := onward_found (List.cons_ne_nil _ _) hfind (by simp [enclosed]) rfl
    simpa [Parentheses.Caption.render, enclosed] using this

/-- What holds of a caption holds of it with its spaces protected. -/
theorem replaceSpaces (h : Captioned sign text) :
    Captioned sign (Text.replaceChar ' ' Parentheses.protectedSpace text) := by
  refine ⟨h.sign, fun c hc => ?_⟩
  obtain ⟨d, hd, rfl⟩ := List.mem_map.mp hc
  split
  · decide
  · exact h.chars d hd

theorem space_not_mem_protected (h : Captioned sign text) :
    ' ' ∉ enclosed sign (Text.replaceChar ' ' Parentheses.protectedSpace text) := by
  obtain ⟨-, -, -, hspace, -, -⟩ := h.sign_ne
  intro hs
  rcases mem_enclosed hs with hs | hs | hs | hs
  · exact hspace hs.symm
  · exact absurd hs (by decide)
  · obtain ⟨d, -, hd⟩ := List.mem_map.mp hs
    split at hd
    · exact absurd hd (by decide)
    · rename_i hne
      exact hne hd
  · exact absurd hs (by decide)

theorem turned_enclosed (h : Captioned sign text) (functions : Functions) (ctx : NoteContext R) :
    Turned functions ctx (enclosed sign text)
      (enclosed sign (Text.replaceChar ' ' Parentheses.protectedSpace text)) := by
  obtain ⟨hparen, hbrace, -, -, hm, hsign⟩ := h.sign_ne
  have hne : ∀ t, enclosed sign t ≠ [] := fun t => List.cons_ne_nil _ _
  refine
    { instructions := instructions_turns (hne text) .empty fun hc => ?_
      cased := ⟨enclosed sign text, h.cased_enclosed,
        collected_turns (hne text) (fun hc => hparen (Option.some.inj hc)) fun pre c post hf hc => ?_,
        closed_turns (hne text) fun _ _ => h.colon_enclosed, h.protected_enclosed⟩
      ornaments := ornaments_turns (hne _) (fun _ _ => h.replaceSpaces.colon_enclosed) functions ctx
      microtones := microtones_turns (hne _) (fun hc => hm (Option.some.inj hc)) h.space_not_mem_protected
      unbroken := broken?_none ?_ _
      noSpace := h.space_not_mem_protected }
  · rcases mem_enclosed hc with hc | hc | hc | hc
    · exact hbrace hc.symm
    · exact absurd hc (by decide)
    · exact (h.chars _ hc).2.2 rfl
    · exact absurd hc (by decide)
  · -- white space stands in the text alone, behind the one parenthesis that opens
    rcases h.enclosed_split hf with ⟨-, rfl⟩ | ⟨-, rfl, -⟩ | ⟨-, -, hp⟩
    · rw [hsign] at hc
      cases hc
    · exact absurd hc (by decide)
    · exact fun hopen => hp (List.mem_of_mem_head? hopen)
  · rcases h.sign with rfl | rfl <;> decide

/-- A caption as it stands after expansion. -/
def tied (sign : Char) (text : Text) : Text :=
  if text.any isBlank then enclosed sign (Text.replaceChar ' ' Parentheses.protectedSpace text)
  else sign :: text

theorem turned (h : Captioned sign text) (functions : Functions) (ctx : NoteContext R) :
    Turned functions ctx (Writer.captionText sign text) (tied sign text) := by
  unfold Writer.captionText tied
  split
  · simpa [enclosed] using h.turned_enclosed functions ctx
  · rename_i hb
    exact h.turned_bare (fun c hc => by simpa using fun hc' => hb (List.any_eq_true.mpr ⟨c, hc, hc'⟩))
      functions ctx

end Captioned

end Expansion

end ScoreText
