import ScoreText.Proofs.Expansion.Stages

/-!
Expansion of a fragment without groups, captions or calls: only its case changes.
-/

set_option autoImplicit false

namespace ScoreText

open Text Stage

namespace Expansion

variable {R : Type} [Scalar R]

/-- Characters that no stage looks for in the middle of a fragment. -/
def plainChar (c : Char) : Bool :=
  c.toNat < 128 && !isBlank c && c != '{' && c != '(' && c != '&' && c != '!'

structure Plain (f : Text) : Prop where
  ne_nil : f ≠ []
  chars : ∀ c ∈ f, plainChar c = true
  noRequest : f.head? = some '@' → f.tail.head? ≠ some '#'

theorem plainChar_spec {c : Char} (h : plainChar c = true) :
    c.toNat < 128 ∧ isBlank c = false ∧ c ≠ '{' ∧ c ≠ '(' ∧ c ≠ '&' ∧ c ≠ '!' := by
  simpa [plainChar, and_assoc] using h

theorem forall_ascii {P : Char → Prop} (h : ∀ n < 128, P (Char.ofNat n)) {c : Char}
    (hc : c.toNat < 128) : P c := by
  have := h c.toNat hc
  rwa [Char.ofNat_toNat] at this

theorem plainChar_toUpper {c : Char} (h : plainChar c = true) : plainChar c.toUpper = true := by
  have hall : ∀ n < 128, plainChar (Char.ofNat n) = true → plainChar (Char.ofNat n).toUpper = true := by
    decide
  exact forall_ascii (P := fun c => plainChar c = true → plainChar c.toUpper = true) hall
    (plainChar_spec h).1 h

theorem upper_of_ascii {f : Text} (h : ∀ c ∈ f, c.toNat < 128) : upper f = f.map Char.toUpper := by
  induction f with
  | nil => rfl
  | cons c r ih =>
    have hr := ih fun d hd => h d (List.mem_cons_of_mem c hd)
    simp only [upper, List.flatMap_cons] at hr ⊢
    rw [upperChar_of_lt c (h c List.mem_cons_self), hr]
    rfl

theorem colon_not_mem_upper {f : Text} (h : ∀ c ∈ f, plainChar c = true ∧ c ≠ ':') :
    ':' ∉ Text.upper f := by
  have hall : ∀ n < 128, (Char.ofNat n).toUpper = ':' → Char.ofNat n = ':' := by decide
  rw [upper_of_ascii fun c hc => (plainChar_spec (h c hc).1).1]
  intro hmem
  obtain ⟨c, hc, heq⟩ := List.mem_map.mp hmem
  exact (h c hc).2 (forall_ascii (P := fun c => c.toUpper = ':' → c = ':') hall
    (plainChar_spec (h c hc).1).1 heq)

theorem Plain.upper {f : Text} (h : Plain f) : Plain (upper f) := by
  have heq := upper_of_ascii fun c hc => (plainChar_spec (h.chars c hc)).1
  refine ⟨?_, ?_, ?_⟩
  · rw [heq]
    simpa using h.ne_nil
  · intro c hc
    rw [heq] at hc
    obtain ⟨d, hd, rfl⟩ := List.mem_map.mp hc
    exact plainChar_toUpper (h.chars d hd)
  · have hat : ∀ n < 128, (Char.ofNat n).toUpper = '@' → Char.ofNat n = '@' := by decide
    have hhash : ∀ n < 128, (Char.ofNat n).toUpper = '#' → Char.ofNat n = '#' := by decide
    rw [heq]
    intro hhead hnext
    cases f with
    | nil => cases hhead
    | cons c r =>
      cases r with
      | nil => cases hnext
      | cons d r =>
        have hc := (plainChar_spec (h.chars c (by simp))).1
        have hd := (plainChar_spec (h.chars d (by simp))).1
        have hcat := forall_ascii (P := fun c => c.toUpper = '@' → c = '@') hat hc
          (Option.some.inj hhead)
        have hdhash := forall_ascii (P := fun c => c.toUpper = '#' → c = '#') hhash hd
          (Option.some.inj hnext)
        subst hcat
        subst hdhash
        exact h.noRequest rfl rfl

theorem Plain.mem {f pre post : Text} {c : Char} (h : Plain f) (hf : f = pre ++ c :: post) :
    plainChar c = true := h.chars c (by rw [hf]; simp)

theorem Plain.head?_ne {f : Text} (h : Plain f) {c : Char} (hc : plainChar c = false) :
    f.head? ≠ some c := by
  intro hhead
  have := h.chars c (List.mem_of_mem_head? hhead)
  rw [hc] at this
  exact Bool.false_ne_true this

theorem Plain.casing {f : Text} (h : Plain f) : casing.Turns f (Text.upper f) := by
  refine turns_of_local (fun _ => rfl) rfl h.ne_nil (fun behind after _ _ => ?_)
    fun behind after hb ha pre c post hf => local_of_none ?_
  · exact findSpared_none (c := ' ') (by decide) behind (f ++ after) fun hat => absurd hat (by decide)
  · obtain ⟨hascii, hblank, hbrace, hparen, hlyric, hmarker⟩ := plainChar_spec (h.mem hf)
    refine findSpared_none ⟨hlyric, hmarker, hparen⟩ _ _ fun hat hstart hhash => ?_
    subst hat
    cases hpre : pre.reverse with
    | nil =>
      have hpre' : pre = [] := List.reverse_eq_nil_iff.mp hpre
      subst hpre'
      subst hf
      cases post with
      | nil =>
        rcases ha with rfl | ha
        · cases hhash
        · rw [List.nil_append, ha] at hhash
          exact absurd hhash (by decide)
      | cons d r => exact h.noRequest rfl hhash
    | cons d r =>
      have hd : d ∈ f := by
        rw [hf]
        exact List.mem_append_left _ (List.mem_reverse.mp (by rw [hpre]; exact List.mem_cons_self))
      rw [hpre] at hstart
      have hd' := (plainChar_spec (h.chars d hd)).2.1
      simp only [List.cons_append, Casing.atFragmentStart, hd'] at hstart
      exact Bool.false_ne_true hstart

theorem Plain.turned {f : Text} (h : Plain f) (hm : (Text.upper f).head? ≠ some 'M')
    (hb : Ornaments.broken? (Text.upper f) = none) (functions : Functions) (ctx : NoteContext R) :
    Turned functions ctx f (Text.upper f) := by
  have hu := h.upper
  have hother : ∀ {c : Char}, plainChar c = false → c ∉ Text.upper f := fun hc hmem => by
    rw [hu.chars _ hmem] at hc
    cases hc
  have hblank : ∀ c ∈ Text.upper f, isBlank c = false := fun c hc => (plainChar_spec (hu.chars c hc)).2.1
  have hcolon : ∀ pre post, Text.upper f = pre ++ ':' :: post → '(' ∉ post := fun pre post hf hp =>
    hother (c := '(') (by decide) (hf ▸ List.mem_append_right pre (List.mem_cons_of_mem _ hp))
  refine
    { instructions := instructions_turns h.ne_nil .empty fun hc => ?_
      cased := ⟨Text.upper f, h.casing,
        collected_turns hu.ne_nil (hu.head?_ne (by decide)) fun pre c post hf hc => ?_,
        closed_turns hu.ne_nil hcolon,
        captions_turns hu.ne_nil ⟨hu.head?_ne (by decide), hu.head?_ne (by decide)⟩ hblank⟩
      ornaments := ornaments_turns hu.ne_nil hcolon functions ctx
      microtones := microtones_turns hu.ne_nil hm (hother (by decide))
      unbroken := hb
      noSpace := hother (by decide) }
  · exact absurd (h.chars _ hc) (by decide)
  · rw [(plainChar_spec (hu.mem hf)).2.1] at hc
    cases hc

end Expansion

end ScoreText
