import ScoreText.Proofs.Text.Numerals
import ScoreText.Theory.Note

/-!
What a number can look like when it is written: digits with a point, a minus sign, or the letters of what is
no number. So do lengths and velocities, but for the slash in front of a length without a name.
-/

set_option autoImplicit false

namespace ScoreText

namespace Text

def isNumberChar (c : Char) : Bool := c.isAlphanum || c == '.' || c == '-'

theorem lt_of_isNumberChar {c : Char} (h : isNumberChar c = true) : c.toNat < 128 := by
  simp only [isNumberChar, Bool.or_eq_true, beq_iff_eq] at h
  rcases h with (h | rfl) | rfl
  · exact lt_of_isAlphanum h
  · decide
  · decide

/-- In capitals such characters are still such characters. -/
theorem isNumberChar_upper {s : Text} (h : ∀ c ∈ s, isNumberChar c = true ∨ c = '/') :
    ∀ c ∈ upper s, isNumberChar c = true ∨ c = '/' := by
  have hall : ∀ n < 128, isNumberChar (Char.ofNat n) = true → isNumberChar (Char.ofNat n).toUpper = true := by
    decide
  intro c hc
  obtain ⟨d, hd, hc⟩ := List.mem_flatMap.mp hc
  rcases h d hd with hnumber | rfl
  · have hlt := lt_of_isNumberChar hnumber
    have hupper := hall d.toNat hlt
    rw [Char.ofNat_toNat] at hupper
    rw [upperChar_of_lt d hlt, List.mem_singleton] at hc
    exact .inl (hc ▸ hupper hnumber)
  · exact .inr (List.mem_singleton.mp hc)

theorem isNumberChar_ofNat {n : Nat} {c : Char} (h : c ∈ ofNat n) : isNumberChar c = true := by
  rw [isNumberChar, isAlphanum_of_isDigit (isDigit_of_mem_ofNat h)]
  rfl

theorem isNumberChar_positional {digits : Nat} {place : Int} {c : Char} (h : c ∈ positional digits place) :
    isNumberChar c = true := by
  have hzeros : ∀ {n : Nat}, c ∈ List.replicate n '0' → isNumberChar c = true := by
    intro n hc
    rw [List.eq_of_mem_replicate hc]
    rfl
  unfold positional at h
  dsimp only at h
  split at h
  · rcases List.mem_append.mp h with h | h
    · exact isNumberChar_ofNat h
    · exact hzeros h
  · have hpadded : ∀ {n : Nat}, c ∈ List.replicate n '0' ++ ofNat digits → isNumberChar c = true := by
      intro n hc
      rcases List.mem_append.mp hc with hc | hc
      · exact hzeros hc
      · exact isNumberChar_ofNat hc
    rw [List.mem_append, List.mem_append] at h
    rcases h with (h | h) | h
    · exact hpadded (List.mem_of_mem_take h)
    · rw [List.mem_singleton.mp h]
      rfl
    · exact hpadded (List.mem_of_mem_drop h)

end Text

/-- Numbers that are written in such characters. -/
class Scalar.Written (R : Type) [Scalar R] : Prop where
  chars : ∀ (x : R), ∀ c ∈ Scalar.text x, Text.isNumberChar c = true

instance : Scalar.Written Float where
  chars x c h := by
    have hsign : ∀ negative : Bool, ∀ d ∈ (if negative then ['-'] else [] : Text),
        Text.isNumberChar d = true := by decide
    change c ∈ Float.text x at h
    unfold Float.text at h
    split at h
    · exact (by decide : ∀ d ∈ "NaN".toList, Text.isNumberChar d = true) c h
    · dsimp only at h
      split at h
      · rcases List.mem_append.mp h with h | h
        · exact hsign _ c h
        · exact (by decide : ∀ d ∈ "inf".toList, Text.isNumberChar d = true) c h
      · split at h
        · rcases List.mem_append.mp h with h | h
          · exact hsign _ c h
          · rw [List.mem_singleton.mp h]
            rfl
        · rcases List.mem_append.mp h with h | h
          · exact hsign _ c h
          · exact Text.isNumberChar_positional h

instance : Scalar.Written Rat where
  chars q c h := by
    have hkept : ∀ {places scaled : Nat}, c ∈ (if places = 0 then Text.ofNat scaled
        else (((Text.positional scaled (-(places : Int))).reverse.dropWhile (· = '0')).dropWhile
          (· = '.')).reverse) → Text.isNumberChar c = true := by
      intro places scaled hc
      split at hc
      · exact Text.isNumberChar_ofNat hc
      · have hin := (List.dropWhile_sublist _).subset ((List.dropWhile_sublist _).subset (List.mem_reverse.mp hc))
        exact Text.isNumberChar_positional (List.mem_reverse.mp hin)
    change c ∈ Rat.text q at h
    unfold Rat.text at h
    dsimp only at h
    split at h
    · rcases List.mem_cons.mp h with rfl | h
      · rfl
      · exact hkept h
    · exact hkept h

variable {R : Type} [Scalar R] [Scalar.Written R]

namespace Length

theorem chars_text (l : R) : ∀ c ∈ text l, Text.isNumberChar c = true ∨ c = '/' := by
  have hnames : (named (R := R)).map Prod.fst = letters.tail.flatMap fun c =>
      [[c.toLower, '.'], [c.toLower]] := rfl
  have hnamed : ∀ name ∈ letters.tail.flatMap (fun c => [[c.toLower, '.'], [c.toLower]]),
      ∀ c ∈ name, Text.isNumberChar c = true := by decide
  intro c h
  unfold text at h
  split at h
  · dsimp only at h
    split at h
    · rw [List.mem_singleton.mp h]
      exact .inl rfl
    · rcases List.mem_cons.mp h with rfl | h
      · exact .inl rfl
      · exact .inl (Text.isNumberChar_ofNat h)
  · split at h
    · rename_i name value hfind
      refine .inl (hnamed name ?_ c h)
      rw [← hnames]
      exact List.mem_map.mpr ⟨_, List.mem_of_find?_eq_some hfind, rfl⟩
    · rcases List.mem_cons.mp h with rfl | h
      · exact .inr rfl
      · exact .inl (Scalar.Written.chars l c h)

end Length

omit [Scalar R] [Scalar.Written R] in
theorem Note.chars_velocityText (n : Note R) : ∀ c ∈ n.velocityText, Text.isNumberChar c = true := by
  have heach : ∀ {sign : Char} {usual : Prop} [Decidable usual] {value : Nat} {c : Char},
      Text.isNumberChar sign = true → c ∈ (if usual then [] else sign :: Text.ofNat value) →
        Text.isNumberChar c = true := by
    intro sign usual _ value c hsign hc
    split at hc
    · cases hc
    · rcases List.mem_cons.mp hc with rfl | hc
      · exact hsign
      · exact Text.isNumberChar_ofNat hc
  intro c h
  rw [Note.velocityText] at h
  rcases List.mem_append.mp h with h | h
  · exact heach rfl h
  · exact heach rfl h

theorem Note.chars_suffix (n : Note R) : ∀ c ∈ n.suffix, Text.isNumberChar c = true ∨ c = '/' := by
  have hdash : ∀ (tie : Bool), ∀ c ∈ (if tie then ['-'] else [] : Text), Text.isNumberChar c = true := by decide
  intro c hc
  rw [suffix, List.mem_append, List.mem_append, List.mem_append] at hc
  rcases hc with ((hc | hc) | hc) | hc
  · exact .inl (hdash _ c hc)
  · split at hc
    · exact Length.chars_text n.length c hc
    · cases hc
  · exact .inl (hdash _ c hc)
  · exact .inl (n.chars_velocityText c hc)

end ScoreText
