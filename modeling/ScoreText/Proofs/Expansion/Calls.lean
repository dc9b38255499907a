import ScoreText.Proofs.Expansion.Plain
import ScoreText.Proofs.Text.Cutting

/-!
Expansion of a call with numbers for parameters: it stays as it is.
-/

set_option autoImplicit false

namespace ScoreText

open Text Stage

namespace Expansion

variable {R : Type} [Scalar R]

theorem throughParenthesis_append {s : Text} (h : ')' ∉ s) (after : Text) :
    Casing.throughParenthesis (s ++ ')' :: after) = s ++ [')'] := by
  have hs : ∀ c ∈ s, (c != ')') = true := fun c hc => by
    simp only [bne_iff_ne, ne_eq]
    rintro rfl
    exact h hc
  rw [Casing.throughParenthesis, List.takeWhile_append_of_pos hs, List.dropWhile_append_of_pos hs,
    List.takeWhile_cons_of_neg (by decide), List.dropWhile_cons_of_neg (by decide), List.append_nil]
  rfl

/-- What is spared from an opening parenthesis on reaches to the closing one. -/
theorem findSpared_paren {behind s after : Text} (h : ')' ∉ s) {m : Match Text}
    (hm : Casing.findSpared behind ('(' :: (s ++ ')' :: after)) = some m) :
    m = ⟨'(' :: (s ++ [')']), s.length + 2⟩ := by
  have hs : ')' ∉ '(' :: s := by simpa using h
  have hspan := throughParenthesis_append hs after
  rw [List.cons_append] at hspan
  simp only [Casing.findSpared, Casing.spared?, hspan] at hm
  split at hm
  · rename_i hc
    exact absurd hc.1 (by decide)
  · split at hm
    · rename_i hc
      exact absurd hc.1 (by decide)
    · split at hm
      · simp only [Option.map_some, Option.some.injEq] at hm
        simpa using hm.symm
      · cases hm

/-- A call with a name in upper case and digits between commas. -/
structure Calling (name params : Text) : Prop where
  name_ne_nil : name ≠ []
  name : ∀ c ∈ name, c.isUpper = true
  params : ∀ c ∈ params, c.isDigit = true ∨ c = ','

namespace Calling

def text (name params : Text) : Text := ':' :: (name ++ '(' :: (params ++ [')']))

variable {name params : Text}

theorem char (h : Calling name params) {c : Char} (hc : c ∈ text name params) :
    c = ':' ∨ c.isUpper = true ∨ c = '(' ∨ c.isDigit = true ∨ c = ',' ∨ c = ')' := by
  simp only [text, List.mem_cons, List.mem_append, List.not_mem_nil, or_false] at hc
  rcases hc with rfl | hc | rfl | hc | rfl
  · exact .inl rfl
  · exact .inr (.inl (h.name c hc))
  · exact .inr (.inr (.inl rfl))
  · rcases h.params c hc with hc | rfl
    · exact .inr (.inr (.inr (.inl hc)))
    · simp
  · simp

theorem not_mem (h : Calling name params) {c : Char} (hu : c.isUpper = false)
    (hd : c.isDigit = false) (hother : c ∉ [':', '(', ',', ')']) : c ∉ text name params := by
  intro hc
  rcases h.char hc with rfl | hc | rfl | hc | rfl | rfl
  · simp at hother
  · rw [hu] at hc
    cases hc
  · simp at hother
  · rw [hd] at hc
    cases hc
  · simp at hother
  · simp at hother

theorem upperChar_eq (h : Calling name params) {c : Char} (hc : c ∈ text name params) :
    upperChar c = [c] ∧ isBlank c = false := by
  have hascii : ∀ n < 128, (Char.ofNat n = ':' ∨ (Char.ofNat n).isUpper = true ∨ Char.ofNat n = '(' ∨
      (Char.ofNat n).isDigit = true ∨ Char.ofNat n = ',' ∨ Char.ofNat n = ')') →
      (Char.ofNat n).toUpper = Char.ofNat n ∧ isBlank (Char.ofNat n) = false := by
    decide
  have hlt : c.toNat < 128 := by
    rcases h.char hc with rfl | hc | rfl | hc | rfl | rfl
    · decide
    · exact lt_of_isAlphanum (isAlphanum_of_isUpper hc)
    · decide
    · exact lt_of_isAlphanum (isAlphanum_of_isDigit hc)
    · decide
    · decide
  obtain ⟨hup, hb⟩ := forall_ascii (P := fun c => (c = ':' ∨ c.isUpper = true ∨ c = '(' ∨
    c.isDigit = true ∨ c = ',' ∨ c = ')') → c.toUpper = c ∧ isBlank c = false) hascii hlt (h.char hc)
  exact ⟨by rw [upperChar_of_lt c hlt, hup], hb⟩

theorem upper_eq (h : Calling name params) {s : Text} (hs : ∀ c ∈ s, c ∈ text name params) :
    s.flatMap upperChar = s := by
  induction s with
  | nil => rfl
  | cons c r ih =>
    rw [List.flatMap_cons, (h.upperChar_eq (hs c List.mem_cons_self)).1,
      ih fun d hd => hs d (List.mem_cons_of_mem c hd)]
    rfl

theorem paren_not_mem_params (h : Calling name params) {c : Char} (hc : c = '(' ∨ c = ')' ∨ c = ':') :
    c ∉ params := by
  intro hm
  rcases h.params c hm with hd | rfl
  · rcases hc with rfl | rfl | rfl <;> exact absurd hd (by decide)
  · rcases hc with hc | hc | hc <;> exact absurd hc (by decide)

theorem paren_not_mem_name (h : Calling name params) {c : Char} (hc : c = '(' ∨ c = ')' ∨ c = ':') :
    c ∉ name := by
  intro hm
  have := h.name c hm
  rcases hc with rfl | rfl | rfl <;> exact absurd this (by decide)

/-- The call is found where it starts, whatever stands behind it. -/
theorem findCall_text (h : Calling name params) (behind after : Text) :
    Parentheses.findCall behind (text name params ++ after) =
      some ⟨⟨name, params⟩, (text name params).length⟩ := by
  have hname : ∀ c ∈ name, isNameChar c = true := fun c hc => by
    rw [isNameChar, isAlphanum_of_isUpper (h.name c hc), Bool.true_or]
  have hsplit : text name params ++ after =
      ':' :: (name ++ '(' :: (params ++ ')' :: after)) := by
    simp [text]
  have htake : (name ++ '(' :: (params ++ ')' :: after)).takeWhile isNameChar = name := by
    rw [List.takeWhile_append_of_pos hname, List.takeWhile_cons_of_neg (by decide), List.append_nil]
  have hdrop : (name ++ '(' :: (params ++ ')' :: after)).dropWhile isNameChar =
      '(' :: (params ++ ')' :: after) := by
    rw [List.dropWhile_append_of_pos hname, List.dropWhile_cons_of_neg (by decide)]
  have hempty : name.isEmpty = false := List.isEmpty_eq_false_iff.mpr h.name_ne_nil
  rw [hsplit]
  simp only [Parentheses.findCall, htake, hdrop, hempty, Bool.false_eq_true, if_false,
    Parentheses.enclosed?, cut?_append (h.paren_not_mem_params (.inr (.inl rfl))), Option.map_some,
    text, List.length_cons, List.length_append, List.length_nil]
  congr 2

theorem callText_eq (name params : Text) : Parentheses.Call.text ⟨name, params⟩ = text name params := by
  simp [Parentheses.Call.text, text]

/-- Nothing is raised: what is found of a call is its parameters, and there are no small letters in them. -/
theorem cased (h : Calling name params) : casing.Turns (text name params) (text name params) := by
  have hcase : casing.Turns (text name params) ((text name params).flatMap upperChar) := by
    refine turns_of_local (fun _ => rfl) rfl (List.cons_ne_nil _ _) (fun behind after _ _ =>
      findSpared_none (c := ' ') (by decide) behind (text name params ++ after) fun hat =>
        absurd hat (by decide)) fun behind after _ _ pre c post hf => ?_
    have hmem : c ∈ text name params := hf ▸ List.mem_append_right pre List.mem_cons_self
    by_cases hc : c = '('
    · subst hc
      have hname : '(' ∉ ':' :: name := by simpa using h.paren_not_mem_name (.inl rfl)
      have hparams : '(' ∉ params ++ [')'] := by simpa using h.paren_not_mem_params (.inl rfl)
      obtain ⟨-, -, rfl⟩ := (List.append_cons_inj_of_notMem hname hparams).mp hf
      refine ⟨fun m hm => ?_⟩
      rw [List.append_assoc, List.singleton_append] at hm
      obtain rfl := findSpared_paren (h.paren_not_mem_params (.inr (.inl rfl))) hm
      refine ⟨by simp, by simp, ?_⟩
      have htake : ('(' :: (params ++ [')'] ++ after)).take (params.length + 2) =
          '(' :: (params ++ [')']) := by
        rw [List.take_succ_cons, List.take_left' (by simp)]
      have hkeep := h.upper_eq (s := '(' :: (params ++ [')'])) fun c hc =>
        List.mem_cons_of_mem _ (List.mem_append_right _ hc)
      rw [htake, hkeep]
      rfl
    · refine local_of_none (findSpared_none ⟨?_, ?_, hc⟩ _ _ ?_)
      · exact fun heq => h.not_mem rfl rfl (by decide) (heq ▸ hmem)
      · exact fun heq => h.not_mem rfl rfl (by decide) (heq ▸ hmem)
      · exact fun heq => absurd (heq ▸ hmem) (h.not_mem rfl rfl (by decide))
  rwa [h.upper_eq fun c hc => hc] at hcase

/-- Where calls are closed up, the whole of it is found, and holds no white space. -/
theorem closed (h : Calling name params) : closed.Turns (text name params) (text name params) := by
  have hkept : (text name params).filter (fun d => !isBlank d) = text name params :=
    List.filter_eq_self.mpr fun d hd => by rw [(h.upperChar_eq hd).2]; rfl
  refine turns_of_whole rfl (List.cons_ne_nil _ _)
    (fun behind after _ _ => findCall_none_of_ne (c := ' ') (by decide) behind (text name params ++ after))
    fun behind after _ _ => ⟨_, h.findCall_text behind after, rfl, ?_⟩
  exact congrArg Except.ok (by rw [callText_eq]; exact hkept)

/-- A call is left to others if its function is no ornament. -/
theorem unornamented (h : Calling name params) {functions : Functions} (hnone : functions.ornament? name = none)
    (ctx : NoteContext R) :
    (ornaments functions ctx).Turns (text name params) (text name params) := by
  refine turns_of_whole rfl (List.cons_ne_nil _ _)
    (fun behind after _ _ => findOrnament_none
      (findCall_none_of_ne (c := ' ') (by decide) behind (text name params ++ after)))
    fun behind after _ _ => ⟨⟨⟨name, params⟩, (text name params).length⟩, ?_, rfl, ?_⟩
  · have hletter : name.head?.any Char.isAlpha = true := by
      cases hname : name with
      | nil => exact absurd hname h.name_ne_nil
      | cons c r => exact isAlpha_of_isUpper (h.name c (hname ▸ List.mem_cons_self))
    rw [show (ornaments functions ctx).find = Ornaments.findCall from rfl, Ornaments.findCall,
      h.findCall_text]
    exact Option.filter_some_pos hletter
  · simp only [ornaments, pieceOr, Ornaments.expandCall, hnone, callText_eq]

theorem turned (h : Calling name params) {functions : Functions} (ctx : NoteContext R)
    (hnone : functions.ornament? name = none) :
    Turned functions ctx (text name params) (text name params) := by
  have hne : text name params ≠ [] := List.cons_ne_nil _ _
  have hblank : ∀ c ∈ text name params, isBlank c = false := fun c hc => (h.upperChar_eq hc).2
  have hspace : ' ' ∉ text name params := h.not_mem rfl rfl (by decide)
  refine
    { instructions := instructions_turns hne .empty (h.not_mem rfl rfl (by decide))
      cased := ⟨text name params, h.cased,
        collected_turns hne (fun hc => absurd (Option.some.inj hc) (by decide)) fun pre c post hf hc => ?_,
        h.closed,
        captions_turns hne ⟨fun hc => absurd (Option.some.inj hc) (by decide),
          fun hc => absurd (Option.some.inj hc) (by decide)⟩ hblank⟩
      ornaments := h.unornamented hnone ctx
      microtones := microtones_turns hne (fun hc => absurd (Option.some.inj hc) (by decide)) hspace
      unbroken := rfl
      noSpace := hspace }
  rw [hblank c (hf ▸ List.mem_append_right pre List.mem_cons_self)] at hc
  cases hc

end Calling

end Expansion

end ScoreText
