import ScoreText.Notation.Parser
import ScoreText.Pattern
import ScoreText.Proofs.Text.Numerals
import ScoreText.Proofs.Text.Scanning

/-!
Expansion of a text that is written already: it raises the case of a fragment and ties a caption
together, and does so for each fragment on its own.
-/

set_option autoImplicit false

namespace ScoreText

open Text Stage

namespace Text

theorem head?_append_ne {c : Char} {s after : Text} (hs : s.head? ≠ some c) (hc : c ≠ ' ') (ha : Bound after) :
    (s ++ after).head? ≠ some c := by
  cases s with
  | nil =>
    rcases ha with rfl | ha
    · exact hs
    · rw [List.nil_append, ha]
      exact fun h => hc (Option.some.inj h).symm
  | cons d r => exact hs

theorem head?_dropWhile_append {p : Char → Bool} {c : Char} {s after : Text} (hs : c ∉ s) (hc : c ≠ ' ')
    (hp : p ' ' = false) (ha : Bound after) : ((s ++ after).dropWhile p).head? ≠ some c := by
  induction s with
  | nil =>
    rcases ha with rfl | ha
    · simp
    · cases after with
      | nil => cases ha
      | cons d r =>
        obtain rfl := Option.some.inj ha
        rw [List.nil_append, List.dropWhile_cons_of_neg (by simp [hp])]
        exact fun h => hc (Option.some.inj h).symm
  | cons d r ih =>
    have hr : c ∉ r := fun h => hs (List.mem_cons_of_mem d h)
    rw [List.cons_append, List.dropWhile_cons]
    split
    · exact ih hr
    · exact fun h => hs (Option.some.inj h ▸ List.mem_cons_self)

end Text

namespace Expansion

def instructions (t : Instructions) : Stage Text := ⟨Instructions.findBraces, pieceOr t.expandContents⟩

def casing : Stage Text := ⟨Casing.findSpared, fun piece => .ok (Casing.upperPiece piece)⟩

def collected : Stage Parentheses.Collected :=
  ⟨Parentheses.findCollected, pieceOr fun c => .ok c.render⟩

def closed : Stage Parentheses.Call :=
  ⟨Parentheses.findCall, pieceOr fun c => .ok (c.text.filter fun d => !isBlank d)⟩

def captions : Stage Parentheses.Caption :=
  ⟨Parentheses.findCaption, pieceOr fun c => .ok c.render⟩

variable {R : Type} [Scalar R]

def ornaments (functions : Functions) (ctx : NoteContext R) : Stage Parentheses.Call :=
  ⟨Ornaments.findCall, pieceOr (Ornaments.expandCall functions ctx)⟩

def microtones : Stage Microtone.Written := ⟨Microtone.find, pieceOr Microtone.render⟩

theorem instructions_run (t : Instructions) (s : Text) : t.apply s = (instructions t).run s :=
  renderPiecesOr_eq _ _

theorem casing_run (s : Text) : .ok (Casing.apply s) = casing.run s := flatMap_eq _ _

theorem collected_run (s : Text) : .ok (Parentheses.collect s) = collected.run s :=
  renderPieces_eq _ _

theorem closed_run (s : Text) : .ok (Parentheses.closeUp s) = closed.run s := renderPieces_eq _ _

theorem captions_run (s : Text) : .ok (Parentheses.protect s) = captions.run s := renderPieces_eq _ _

theorem ornaments_run (functions : Functions) (ctx : NoteContext R) (s : Text) :
    Ornaments.expandCalls functions ctx s = (ornaments functions ctx).run s := renderPiecesOr_eq _ _

theorem microtones_run (s : Text) : Microtone.apply s = microtones.run s := renderPiecesOr_eq _ _

theorem findBraces_none {c : Char} (h : c ≠ '{') (behind s : Text) :
    Instructions.findBraces behind (c :: s) = none := by
  unfold Instructions.findBraces
  split
  · rename_i heq
    cases heq
    exact absurd rfl h
  · rfl

theorem findSpared_none {c : Char} (h : c ≠ '&' ∧ c ≠ '!' ∧ c ≠ '(') (behind s : Text)
    (hrequest : c = '@' → Casing.atFragmentStart behind → s.head? ≠ some '#') :
    Casing.findSpared behind (c :: s) = none := by
  obtain ⟨hlyric, hmarker, hparen⟩ := h
  simp only [Casing.findSpared, Casing.spared?, hlyric, hmarker, hparen, or_self, false_and, if_false]
  split
  · rename_i hr
    exact absurd hr.2.2 (hrequest hr.1 hr.2.1)
  · rfl

theorem opening?_none {c : Char} {behind s : Text} {opens : Text → Bool}
    (hstart : behind ≠ [] ∨ opens (c :: s) = false) (hblank : isBlank c = true → opens s = false) :
    Parentheses.opening? behind opens (c :: s) = none := by
  have hfirst : (behind.isEmpty && opens (c :: s)) = false := by
    rcases hstart with h | h
    · rw [List.isEmpty_eq_false_iff.mpr h, Bool.false_and]
    · rw [h, Bool.and_false]
  simp only [Parentheses.opening?, hfirst, Bool.false_eq_true, if_false]
  refine if_neg fun h => ?_
  rw [Bool.and_eq_true] at h
  rw [hblank h.1] at h
  exact absurd h.2 Bool.false_ne_true

theorem findCollected_none {c : Char} {behind s : Text} (hstart : behind ≠ [] ∨ c ≠ '(')
    (hblank : isBlank c = true → s.head? ≠ some '(') :
    Parentheses.findCollected behind (c :: s) = none := by
  have : Parentheses.opening? behind (fun s => s.head? == some '(') (c :: s) = none :=
    opening?_none (hstart.imp_right fun h => by simpa using h) (fun h => by simpa using hblank h)
  simp [Parentheses.findCollected, this]

theorem findCall_none_of_ne {c : Char} (h : c ≠ ':') (behind s : Text) :
    Parentheses.findCall behind (c :: s) = none := by
  unfold Parentheses.findCall
  split
  · rename_i heq
    cases heq
    exact absurd rfl h
  · rfl

theorem findCall_none {c : Char} {behind s after : Text} (h : '(' ∉ s) (ha : Bound after) :
    Parentheses.findCall behind (c :: (s ++ after)) = none := by
  by_cases hc : c = ':'
  · subst hc
    have hhead := head?_dropWhile_append (p := isNameChar) h (by decide) rfl ha
    have hnone : Parentheses.enclosed? ((s ++ after).dropWhile isNameChar) = none := by
      unfold Parentheses.enclosed?
      split
      · rename_i heq
        rw [heq] at hhead
        exact absurd rfl hhead
      · rfl
    simp [Parentheses.findCall, hnone]
  · exact findCall_none_of_ne hc behind _

theorem findOrnament_none {behind here : Text} (h : Parentheses.findCall behind here = none) :
    Ornaments.findCall behind here = none := by
  rw [Ornaments.findCall, h]
  rfl

theorem findCaption_none {c : Char} {behind s : Text} (hstart : behind ≠ [] ∨ (c ≠ '&' ∧ c ≠ '!'))
    (hblank : isBlank c = true → s.head? ≠ some '&' ∧ s.head? ≠ some '!') :
    Parentheses.findCaption behind (c :: s) = none := by
  have : Parentheses.opening? behind (fun s => s.head? == some '&' || s.head? == some '!')
      (c :: s) = none :=
    opening?_none (hstart.imp_right fun h => by simpa using h) (fun h => by simpa using hblank h)
  simp [Parentheses.findCaption, this]

theorem findCaption_first {sign : Char} (h : sign = '&' ∨ sign = '!') (r : Text) :
    Parentheses.findCaption [] (sign :: r) =
      (Parentheses.enclosed? r).map fun inner => ⟨⟨[], sign, inner⟩, inner.length + 3⟩ := by
  rcases h with rfl | rfl <;> cases hr : Parentheses.enclosed? r <;>
    simp [Parentheses.findCaption, Parentheses.opening?, hr]

theorem findCaption_later {sign : Char} (h : sign = '&' ∨ sign = '!') (behind r : Text) :
    Parentheses.findCaption behind (' ' :: sign :: r) =
      (Parentheses.enclosed? r).map fun inner => ⟨⟨[' '], sign, inner⟩, inner.length + 4⟩ := by
  have hspace : isBlank ' ' = true := rfl
  have hlen : ∀ n, 1 + n + 3 = n + 4 := fun n => by omega
  rcases h with rfl | rfl <;> cases hr : Parentheses.enclosed? r <;>
    simp [Parentheses.findCaption, Parentheses.opening?, hr, hspace, hlen]

theorem findMicrotone_none {c : Char} {behind s : Text} (hstart : behind ≠ [] ∨ c ≠ 'M')
    (hspace : c = ' ' → s.head? ≠ some 'M') : Microtone.find behind (c :: s) = none := by
  unfold Microtone.find
  split
  · rename_i heq
    obtain ⟨rfl, rfl⟩ := List.cons.inj heq
    have hb : behind ≠ [] := hstart.resolve_right fun h => h rfl
    rw [List.isEmpty_eq_false_iff.mpr hb]
    rfl
  · rename_i heq
    obtain ⟨rfl, rfl⟩ := List.cons.inj heq
    exact absurd rfl (hspace rfl)
  · rfl

theorem broken?_none {c : Char} (h : startsNote c = false) (s : Text) :
    Ornaments.broken? (c :: s) = none := by
  have hhead : ∀ chord indexes, Text.cut? ':' (c :: s) = some (chord, indexes) →
      chord.head?.any startsNote = false := by
    intro chord indexes hcut
    simp only [Text.cut?] at hcut
    split at hcut
    · obtain rfl := (Prod.mk.inj (Option.some.inj hcut)).1
      rfl
    · obtain ⟨⟨a, b⟩, -, heq⟩ := Option.map_eq_some_iff.mp hcut
      obtain rfl := (Prod.mk.inj heq).1
      exact h
  unfold Ornaments.broken?
  split
  · rename_i chord indexes hcut
    rw [hhead chord indexes hcut]
    rfl
  · rfl

/-!
Fragments that a stage leaves as they are.
-/

section

variable {f : Text} (hne : f ≠ [])

include hne

theorem instructions_turns (t : Instructions) (hbrace : '{' ∉ f) : (instructions t).Turns f f := by
  refine turns_of_none (fun _ => rfl) hne
    (fun behind after _ _ => findBraces_none (c := ' ') (by decide) behind (f ++ after))
    fun behind after _ _ pre c post hf => findBraces_none ?_ (pre.reverse ++ behind) (post ++ after)
  rintro rfl
  exact hbrace (hf ▸ List.mem_append_right pre List.mem_cons_self)

/-- No parenthesis opens at the front or behind white space. -/
theorem collected_turns (hfront : f.head? ≠ some '(')
    (hblank : ∀ pre c post, f = pre ++ c :: post → isBlank c = true → post.head? ≠ some '(') :
    collected.Turns f f := by
  refine turns_of_none (fun _ => rfl) hne
    (fun behind after hb ha => findCollected_none (.inl hb) fun _ => head?_append_ne hfront (by decide) ha)
    fun behind after _ ha pre c post hf => findCollected_none ?_ fun hc =>
      head?_append_ne (hblank pre c post hf hc) (by decide) ha
  cases pre with
  | nil =>
    right
    rintro rfl
    exact hfront (congrArg List.head? hf)
  | cons d r => exact .inl (by simp)

section

variable (hcolon : ∀ pre post, f = pre ++ ':' :: post → '(' ∉ post)

include hcolon

omit hne in
theorem findCall_within {pre post : Text} {c : Char} (hf : f = pre ++ c :: post) (behind : Text) {after : Text}
    (ha : Bound after) : Parentheses.findCall behind (c :: (post ++ after)) = none := by
  by_cases hc : c = ':'
  · subst hc
    exact findCall_none (hcolon pre post hf) ha
  · exact findCall_none_of_ne hc behind (post ++ after)

/-- No parenthesis opens behind a colon. -/
theorem closed_turns : closed.Turns f f :=
  turns_of_none (fun _ => rfl) hne
    (fun behind after _ _ => findCall_none_of_ne (c := ' ') (by decide) behind (f ++ after))
    fun behind _ _ ha pre _ _ hf => findCall_within hcolon hf (pre.reverse ++ behind) ha

theorem ornaments_turns (functions : Functions) (ctx : NoteContext R) : (ornaments functions ctx).Turns f f :=
  turns_of_none (fun _ => rfl) hne
    (fun behind after _ _ => findOrnament_none
      (findCall_none_of_ne (c := ' ') (by decide) behind (f ++ after)))
    fun behind _ _ ha pre _ _ hf => findOrnament_none (findCall_within hcolon hf (pre.reverse ++ behind) ha)

end

theorem captions_turns (hfront : f.head? ≠ some '&' ∧ f.head? ≠ some '!') (hblank : ∀ c ∈ f, isBlank c = false) :
    captions.Turns f f := by
  refine turns_of_none (fun _ => rfl) hne
    (fun behind after hb ha => findCaption_none (.inl hb) fun _ =>
      ⟨head?_append_ne hfront.1 (by decide) ha, head?_append_ne hfront.2 (by decide) ha⟩)
    fun behind after _ _ pre c post hf => findCaption_none ?_ fun hc => ?_
  · cases pre with
    | nil =>
      refine .inr ⟨?_, ?_⟩
      · rintro rfl
        exact hfront.1 (congrArg List.head? hf)
      · rintro rfl
        exact hfront.2 (congrArg List.head? hf)
    | cons d r => exact .inl (by simp)
  · rw [hblank c (hf ▸ List.mem_append_right pre List.mem_cons_self)] at hc
    cases hc

theorem microtones_turns (hfront : f.head? ≠ some 'M') (hspace : ' ' ∉ f) : microtones.Turns f f := by
  refine turns_of_none (fun _ => rfl) hne
    (fun behind after hb ha => findMicrotone_none (c := ' ') (.inl hb) fun _ =>
      head?_append_ne hfront (by decide) ha)
    fun behind after _ _ pre c post hf => findMicrotone_none ?_ fun hc => ?_
  · cases pre with
    | nil =>
      right
      rintro rfl
      exact hfront (congrArg List.head? hf)
    | cons d r => exact .inl (by simp)
  · subst hc
    exact absurd (hf ▸ List.mem_append_right pre List.mem_cons_self) hspace

end

/-- What all stages together make of a fragment, whatever stands around it. -/
structure Turned (functions : Functions) (ctx : NoteContext R) (f g : Text) : Prop where
  instructions : (instructions .empty).Turns f f
  cased : ∃ u, casing.Turns f u ∧ collected.Turns u u ∧ closed.Turns u u ∧ captions.Turns u g
  ornaments : (ornaments functions ctx).Turns g g
  microtones : microtones.Turns g g
  unbroken : Ornaments.broken? g = none
  noSpace : ' ' ∉ g

end Expansion

end ScoreText
