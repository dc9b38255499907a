import Mathlib.Algebra.Order.Field.Rat
import Mathlib.Tactic.FieldSimp
import Mathlib.Tactic.Ring
import ScoreText.Proofs.Text.Numerals
import ScoreText.Number.Scalar

/-!
Fractions whose decimal expansion ends are written with all their digits, and read as they are.
-/

set_option autoImplicit false

namespace ScoreText

/-- Digits on both sides of a point, or without one, and the number that they stand for. -/
structure Decimal.Expands (s : Text) (q : Rat) : Prop where
  chars : ∀ c ∈ s, c.isDigit = true ∨ c = '.'
  head : ∃ c r, s = c :: r ∧ c.isDigit = true
  read : ∃ d, Decimal.ofText? s = some d ∧ (Scalar.ofDecimal d : Rat) = q

namespace Decimal

theorem ofText?_digit {c : Char} {r : Text} (h : c.isDigit = true) {mantissa : Nat} {scale : Int}
    (hu : unsigned? (c :: r) = some (mantissa, scale, [])) :
    ofText? (c :: r) = some ⟨false, mantissa, scale⟩ := by
  have hsign : c ≠ '-' ∧ c ≠ '+' :=
    ⟨fun hc => absurd (hc ▸ h) (by decide), fun hc => absurd (hc ▸ h) (by decide)⟩
  unfold ofText?
  split
  rename_i negative body heq
  split at heq
  · rename_i hcons
    exact absurd (List.cons.inj hcons).1 hsign.1
  · rename_i hcons
    exact absurd (List.cons.inj hcons).1 hsign.2
  · obtain ⟨rfl, rfl⟩ := Prod.mk.inj heq
    rw [hu]
    rfl

theorem ofDecimal_places (mantissa places : Nat) :
    (Scalar.ofDecimal ⟨false, mantissa, -(places : Int)⟩ : Rat) = mantissa / 10 ^ places := by
  have hzero : (-(places : Int)).toNat = 0 := by omega
  have hneg : (- -(places : Int)).toNat = places := by omega
  change ((mantissa * Nat.pow 10 (-(places : Int)).toNat : Nat) : Rat) /
    ((Nat.pow 10 (- -(places : Int)).toNat : Nat) : Rat) = _
  rw [hzero, hneg]
  push_cast
  simp

section

variable {whole fraction : Text} (hw : ∀ c ∈ whole, c.isDigit = true) (hne : whole ≠ [])
  (hf : ∀ c ∈ fraction, c.isDigit = true)

include hw hne

theorem value?_digits : Numeral.value? 10 whole = some (Nat.ofDigitChars 10 whole 0) := by
  rw [Numeral.value?, if_neg (by simpa using hne), Numeral.valueFrom?_digits hw]

theorem expands_whole : Expands whole (Nat.ofDigitChars 10 whole 0 : Nat) := by
  obtain ⟨c, r, rfl⟩ := List.exists_cons_of_ne_nil hne
  have hc := hw c List.mem_cons_self
  refine ⟨fun d hd => .inl (hw d hd), ⟨c, r, rfl, hc⟩,
    ⟨false, Nat.ofDigitChars 10 (c :: r) 0, 0⟩, ofText?_digit hc ?_, ?_⟩
  · have htake : Numeral.takeDigits (c :: r) = (c :: r, []) := by
      have hends : Numeral.Ends [] := by simp [Numeral.Ends]
      have := Numeral.takeDigits_append_of_ends hw hends
      rwa [List.append_nil] at this
    simp only [unsigned?, htake, value?_digits hw hne, Option.map_some]
  · have := ofDecimal_places (Nat.ofDigitChars 10 (c :: r) 0) 0
    simpa using this

include hf

theorem expands_point : Expands (whole ++ '.' :: fraction)
    ((Nat.ofDigitChars 10 (whole ++ fraction) 0 : Nat) / 10 ^ fraction.length) := by
  obtain ⟨c, r, rfl⟩ := List.exists_cons_of_ne_nil hne
  have hc := hw c List.mem_cons_self
  refine ⟨fun d hd => ?_, ⟨c, _, rfl, hc⟩, ⟨false, _, -(fraction.length : Int)⟩,
    ofText?_digit hc ?_, ofDecimal_places _ _⟩
  · rcases List.mem_append.mp hd with hd | hd
    · exact .inl (hw d hd)
    · exact (List.mem_cons.mp hd).symm.imp_left (hf d)
  · have htake : Numeral.takeDigits (c :: r ++ '.' :: fraction) = (c :: r, '.' :: fraction) :=
      Numeral.takeDigits_append_of_ends hw (by simp [Numeral.Ends])
    have hplaces : Numeral.takeDigits fraction = (fraction, []) := by
      have hends : Numeral.Ends [] := by simp [Numeral.Ends]
      have := Numeral.takeDigits_append_of_ends hf hends
      rwa [List.append_nil] at this
    have hall : ∀ d ∈ c :: r ++ fraction, d.isDigit = true := fun d hd =>
      (List.mem_append.mp hd).elim (hw d) (hf d)
    change unsigned? (c :: r ++ '.' :: fraction) = _
    rw [unsigned?, htake]
    simp only [hplaces, value?_digits hall (List.cons_ne_nil _ _), Option.map_some]

end

end Decimal

namespace Text

/-- A number over a power of ten is written with as many digits behind the point. -/
theorem positional_eq (n : Nat) {places : Nat} (h : 0 < places) : ∃ whole fraction : Text,
    positional n (-(places : Int)) = whole ++ '.' :: fraction ∧ whole ≠ [] ∧
      fraction.length = places ∧ (∀ c ∈ whole, c.isDigit = true) ∧
      (∀ c ∈ fraction, c.isDigit = true) ∧ Nat.ofDigitChars 10 (whole ++ fraction) 0 = n := by
  obtain ⟨padded, hpadded⟩ : ∃ padded : Text,
      padded = List.replicate (places + 1 - (ofNat n).length) '0' ++ ofNat n := ⟨_, rfl⟩
  have hdigits : ∀ c ∈ padded, c.isDigit = true := by
    intro c hc
    rw [hpadded, List.mem_append] at hc
    rcases hc with hc | hc
    · rw [List.eq_of_mem_replicate hc]
      decide
    · exact isDigit_of_mem_ofNat hc
  have hlength : places < padded.length := by
    rw [hpadded, List.length_append, List.length_replicate]
    omega
  have hvalue : Nat.ofDigitChars 10 padded 0 = n := by
    rw [hpadded, Nat.ofDigitChars_append, Nat.ofDigitChars_replicate_zero, Nat.mul_zero]
    exact Nat.ofDigitChars_ten_toDigits
  refine ⟨padded.take (padded.length - places), padded.drop (padded.length - places), ?_, ?_, ?_,
    fun c hc => hdigits c (List.mem_of_mem_take hc), fun c hc => hdigits c (List.mem_of_mem_drop hc), ?_⟩
  · have hneg : ¬ 0 ≤ -(places : Int) := by omega
    have hplaces : (- -(places : Int)).toNat = places := by omega
    simp only [positional, if_neg hneg, hplaces, ← hpadded]
    simp
  · intro hnil
    have := congrArg List.length hnil
    simp only [List.length_take, List.length_nil] at this
    omega
  · rw [List.length_drop]
    omega
  · rw [List.take_append_drop, hvalue]

end Text

namespace Rat

/-- The digits that are left when the zeros at the end are taken off, and the point if it is at the
end then. -/
theorem trimmed {whole fraction : Text} (hne : whole ≠ []) (hw : ∀ c ∈ whole, c.isDigit = true)
    (hf : ∀ c ∈ fraction, c.isDigit = true) : ∃ (kept : Text) (zeros : Nat),
    fraction = kept ++ List.replicate zeros '0' ∧
      (((whole ++ '.' :: fraction).reverse.dropWhile (· = '0')).dropWhile (· = '.')).reverse =
        if kept = [] then whole else whole ++ '.' :: kept := by
  obtain ⟨ending, left, hsplit⟩ : ∃ ending left, fraction.reverse.takeWhile (· = '0') = ending ∧
      fraction.reverse.dropWhile (· = '0') = left := ⟨_, _, rfl, rfl⟩
  have hending : ending = List.replicate ending.length '0' := by
    refine List.eq_replicate_of_mem fun c hc => ?_
    rw [← hsplit.1] at hc
    have hall := @List.all_takeWhile _ (· = '0') fraction.reverse
    simpa using List.all_eq_true.mp hall c hc
  have hboth : ending ++ left = fraction.reverse := by
    rw [← hsplit.1, ← hsplit.2]
    exact List.takeWhile_append_dropWhile
  have hdot : ∀ c r, (whole.reverse : Text) = c :: r → c ≠ '.' := by
    intro c r hr hc
    have hmem : c ∈ whole := List.mem_reverse.mp (hr ▸ List.mem_cons_self)
    exact absurd (hc ▸ hw c hmem) (by decide)
  refine ⟨left.reverse, ending.length, ?_, ?_⟩
  · rw [← hending, ← List.reverse_reverse fraction, ← hboth, List.reverse_append, hending]
    simp
  · rw [List.reverse_append, List.reverse_cons, List.append_assoc, List.singleton_append,
      List.dropWhile_append, hsplit.2]
    cases left with
    | nil =>
      cases hr : (whole.reverse : Text) with
      | nil => exact absurd (List.reverse_eq_nil_iff.mp hr) hne
      | cons c r =>
        have hkept : (whole.reverse : Text).dropWhile (· = '.') = whole.reverse := by
          rw [hr, List.dropWhile_cons_of_neg (by simpa using hdot c r hr)]
        simp [hkept, ← hr]
    | cons c r =>
      have hc : c ≠ '.' := by
        rintro rfl
        have hmem : '.' ∈ fraction := by
          rw [← List.mem_reverse, ← hboth]
          simp
        exact absurd (hf '.' hmem) (by decide)
      simp [hc]

/-- A fraction is written with as many digits as its denominator has in base two, without the zeros at the end. -/
theorem text_expands_cut {q : Rat} (hq : 0 ≤ q) : Decimal.Expands (Rat.text q)
    ((q.num.natAbs * Nat.pow 10 (Nat.log2 q.den) / q.den : Nat) / 10 ^ Nat.log2 q.den) := by
  have hneg : ¬ q < 0 := not_lt.mpr hq
  obtain ⟨places, hlog⟩ : ∃ places, places = Nat.log2 q.den := ⟨_, rfl⟩
  obtain ⟨n, hn⟩ : ∃ n, n = q.num.natAbs * Nat.pow 10 places / q.den := ⟨_, rfl⟩
  simp only [Rat.text, if_neg hneg, ← hlog, ← hn]
  split
  · rename_i hzero
    have hdigits : ∀ c ∈ Text.ofNat n, c.isDigit = true := fun c hc => Text.isDigit_of_mem_ofNat hc
    have hexpands := Decimal.expands_whole hdigits (Text.ofNat_ne_nil n)
    have hnumber : Nat.ofDigitChars 10 (Text.ofNat n) 0 = n := Nat.ofDigitChars_ten_toDigits
    rwa [hnumber, ← div_one (n : Rat), ← pow_zero (10 : Rat), ← hzero] at hexpands
  · rename_i hplaces
    obtain ⟨whole, fraction, hbody, hne, hlength, hw, hf, hdigits⟩ :=
      Text.positional_eq n (Nat.pos_of_ne_zero hplaces)
    obtain ⟨kept, zeros, hkept, htrimmed⟩ := trimmed hne hw hf
    have hk : ∀ c ∈ kept, c.isDigit = true := fun c hc => hf c (hkept ▸ List.mem_append_left _ hc)
    rw [hbody, htrimmed]
    rw [hkept, ← List.append_assoc, Nat.ofDigitChars_append, Nat.ofDigitChars_replicate_zero] at hdigits
    have hsum : kept.length + zeros = places := by
      rw [← hlength, hkept, List.length_append, List.length_replicate]
    have hvalue : (n : Rat) / 10 ^ places = (Nat.ofDigitChars 10 (whole ++ kept) 0 : Nat) / 10 ^ kept.length := by
      rw [← hdigits, ← hsum]
      push_cast
      rw [pow_add]
      field_simp
    rw [hvalue]
    split
    · rename_i hnil
      subst hnil
      have hexpands := Decimal.expands_whole hw hne
      rwa [List.append_nil, List.length_nil, pow_zero, div_one]
    · exact Decimal.expands_point hw hne hk

theorem text_expands {q : Rat} (hq : 0 ≤ q) {places : Nat} (hden : q.den = 2 ^ places) :
    Decimal.Expands (Rat.text q) q := by
  have hcut := text_expands_cut hq
  have hlog : Nat.log2 q.den = places := by rw [hden, Nat.log2_two_pow]
  obtain ⟨n, hn⟩ : ∃ n, n = q.num.natAbs * Nat.pow 10 (Nat.log2 q.den) / q.den := ⟨_, rfl⟩
  rw [← hn, hlog] at hcut
  have hten : Nat.pow 10 (Nat.log2 q.den) = 5 ^ places * 2 ^ places := by
    rw [hlog, ← Nat.mul_pow]
    rfl
  have hfive : n = q.num.natAbs * 5 ^ places := by
    rw [hn, hten, hden, ← Nat.mul_assoc, Nat.mul_div_cancel _ (Nat.two_pow_pos places)]
  have hnum : ((q.num.natAbs : Nat) : Rat) = q.num := by
    rw [Nat.cast_natAbs, abs_of_nonneg (Rat.num_nonneg.mpr hq)]
  have hsplit : (10 : Rat) ^ places = 5 ^ places * 2 ^ places := by
    rw [← mul_pow]
    norm_num
  have hvalue : q = n / 10 ^ places :=
    calc q = q.num / q.den := (Rat.num_div_den q).symm
      _ = q.num / 2 ^ places := by rw [hden]; push_cast; rfl
      _ = q.num * 5 ^ places / (2 ^ places * 5 ^ places) := by field_simp
      _ = n / 10 ^ places := by rw [hfive, hsplit, mul_comm (2 ^ places)]; push_cast; rw [hnum]
  rwa [← hvalue] at hcut

end Rat

end ScoreText
