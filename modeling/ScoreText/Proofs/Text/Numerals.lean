import ScoreText.Number.Numeral
import ScoreText.Text.Upper

/-!
Numbers written in digits read back, also with something behind them that is no digit.
-/

set_option autoImplicit false

namespace ScoreText

namespace Text

theorem isDigit_of_mem_ofNat {n : Nat} {c : Char} (h : c ∈ ofNat n) : c.isDigit :=
  Nat.isDigit_of_mem_toDigits (by decide) (by decide) h

theorem ofNat_ne_nil (n : Nat) : ofNat n ≠ [] := Nat.toDigits_ne_nil

theorem toNat_of_isDigit {c : Char} (h : c.isDigit) : '0'.toNat ≤ c.toNat ∧ c.toNat ≤ '9'.toNat := by
  simpa [Char.isDigit, UInt32.le_iff_toNat_le] using h

theorem toNat_of_isUpper {c : Char} (h : c.isUpper) : 'A'.toNat ≤ c.toNat ∧ c.toNat ≤ 'Z'.toNat := by
  obtain ⟨hlo, hhi⟩ : c.val ≥ 'A'.val ∧ c.val ≤ 'Z'.val := of_decide_eq_true h
  exact ⟨UInt32.le_iff_toNat_le.mp hlo, UInt32.le_iff_toNat_le.mp hhi⟩

theorem toNat_of_isLower {c : Char} (h : c.isLower) : 'a'.toNat ≤ c.toNat ∧ c.toNat ≤ 'z'.toNat := by
  obtain ⟨hlo, hhi⟩ := (Bool.and_eq_true _ _).mp h
  exact ⟨UInt32.le_iff_toNat_le.mp (of_decide_eq_true hlo),
    UInt32.le_iff_toNat_le.mp (of_decide_eq_true hhi)⟩

/-- Letters and digits in this sense are ASCII. -/
theorem lt_of_isAlphanum {c : Char} (h : c.isAlphanum) : c.toNat < 128 := by
  have hcases : ((c.isUpper || c.isLower) || c.isDigit) = true := h
  rw [Bool.or_eq_true, Bool.or_eq_true] at hcases
  rcases hcases with (h | h) | h
  · exact Nat.lt_of_le_of_lt (toNat_of_isUpper h).2 (by decide)
  · exact Nat.lt_of_le_of_lt (toNat_of_isLower h).2 (by decide)
  · exact Nat.lt_of_le_of_lt (toNat_of_isDigit h).2 (by decide)

theorem isAlpha_of_isUpper {c : Char} (h : c.isUpper = true) : c.isAlpha = true :=
  Bool.or_eq_true_iff.mpr (.inl h)

theorem isAlphanum_of_isUpper {c : Char} (h : c.isUpper = true) : c.isAlphanum = true := by
  change ((c.isUpper || c.isLower) || c.isDigit) = true
  rw [h]
  rfl

theorem isAlphanum_of_isDigit {c : Char} (h : c.isDigit = true) : c.isAlphanum = true :=
  Bool.or_eq_true_iff.mpr (.inr h)

theorem toUpper_of_isDigit {c : Char} (h : c.isDigit) : c.toUpper = c := by
  obtain ⟨hlo, hhi⟩ := toNat_of_isDigit h
  have hnine : '9'.toNat = 57 := rfl
  have ha : 'a'.val.toNat = 97 := rfl
  have hval : c.val.toNat = c.toNat := rfl
  refine dif_neg fun hl => ?_
  have := UInt32.le_iff_toNat_le.mp hl.1
  omega

theorem upperChar_of_isDigit {c : Char} (h : c.isDigit) : upperChar c = [c] := by
  obtain ⟨hlo, hhi⟩ := toNat_of_isDigit h
  have hnine : '9'.toNat = 57 := rfl
  rw [upperChar_of_lt c (by omega), toUpper_of_isDigit h]

theorem upper_ofNat (n : Nat) : upper (ofNat n) = ofNat n := by
  have : ∀ s : Text, (∀ c ∈ s, c.isDigit) → upper s = s := by
    intro s
    induction s with
    | nil => exact fun _ => rfl
    | cons c r ih =>
      intro h
      simp only [upper, List.flatMap_cons] at ih ⊢
      rw [upperChar_of_isDigit (h c List.mem_cons_self),
        ih fun d hd => h d (List.mem_cons_of_mem c hd)]
      rfl
  exact this _ fun c => isDigit_of_mem_ofNat

end Text

namespace Numeral

/-- A text that a run of digits in front of it ends at. -/
def Ends (rest : Text) : Prop := ∀ c ∈ rest.head?, ¬ c.isDigit

theorem takeDigits_append_of_ends {digits rest : Text} (h : ∀ c ∈ digits, c.isDigit)
    (hrest : Ends rest) : takeDigits (digits ++ rest) = (digits, rest) := by
  have htake : ∀ r : Text, Ends r → r.takeWhile Char.isDigit = [] ∧ r.dropWhile Char.isDigit = r := by
    intro r hr
    cases r with
    | nil => exact ⟨rfl, rfl⟩
    | cons c r =>
      have hc : ¬ c.isDigit := hr c rfl
      exact ⟨List.takeWhile_cons_of_neg hc, List.dropWhile_cons_of_neg hc⟩
  rw [takeDigits, List.takeWhile_append_of_pos h, List.dropWhile_append_of_pos h, (htake rest hrest).1,
    (htake rest hrest).2, List.append_nil]

theorem takeDigits_ofNat (n : Nat) {rest : Text} (h : Ends rest) :
    takeDigits (Text.ofNat n ++ rest) = (Text.ofNat n, rest) :=
  takeDigits_append_of_ends (fun _ => Text.isDigit_of_mem_ofNat) h

theorem digit?_of_isDigit {c : Char} (h : c.isDigit) : digit? 10 c = some (c.toNat - '0'.toNat) := by
  obtain ⟨hlo, hhi⟩ := Text.toNat_of_isDigit h
  have hzero : '0'.toNat = 48 := rfl
  have hnine : '9'.toNat = 57 := rfl
  simp only [digit?, h, if_true]
  rw [if_pos (by omega)]

theorem valueFrom?_digits {s : Text} (h : ∀ c ∈ s, c.isDigit) (acc : Nat) :
    valueFrom? 10 acc s = some (Nat.ofDigitChars 10 s acc) := by
  induction s generalizing acc with
  | nil => rfl
  | cons c r ih =>
    rw [valueFrom?, digit?_of_isDigit (h c List.mem_cons_self), Option.bind_some,
      ih fun d hd => h d (List.mem_cons_of_mem c hd), Nat.ofDigitChars_cons, Nat.mul_comm]

theorem value?_ofNat (n : Nat) : value? 10 (Text.ofNat n) = some n := by
  have hne : (Text.ofNat n).isEmpty = false := by
    rw [List.isEmpty_eq_false_iff]
    exact Text.ofNat_ne_nil n
  rw [value?, hne, if_neg Bool.false_ne_true, valueFrom?_digits fun _ => Text.isDigit_of_mem_ofNat]
  exact congrArg some Nat.ofDigitChars_ten_toDigits

theorem unsigned?_of_isDigit {base : Nat} {c : Char} {r : Text} (h : c.isDigit) :
    unsigned? base (c :: r) = value? base (c :: r) := by
  unfold unsigned?
  split
  · rename_i heq
    cases heq
    exact absurd h (by decide)
  · rfl

theorem unsigned?_ofNat (n : Nat) : unsigned? 10 (Text.ofNat n) = some n := by
  cases hs : Text.ofNat n with
  | nil => exact absurd hs (Text.ofNat_ne_nil n)
  | cons c r =>
    have hc : c.isDigit := Text.isDigit_of_mem_ofNat (by rw [hs]; exact List.mem_cons_self)
    rw [unsigned?_of_isDigit hc, ← hs, value?_ofNat]

theorem nat?_ofNat {limit n : Nat} (h : n ≤ limit) : nat? limit (Text.ofNat n) = some n := by
  rw [nat?, unsigned?_ofNat]
  simp [h]

end Numeral

end ScoreText
