import Mathlib.Data.Nat.Prime.Basic
import Mathlib.Tactic.Positivity
import ScoreText.Proofs.Notation.Signs
import ScoreText.Proofs.Number.Exact
import ScoreText.Timeline.Tempo

/-!
Exact fractions whose denominator is a power of two, which the lengths and times of ticks are: their
written forms are read as they are.
-/

set_option autoImplicit false

namespace ScoreText

open NoteContext

theorem Decimal.Expands.raised {s : Text} {q : Rat} (h : Decimal.Expands s q) :
    ∀ c ∈ s, isRaised c = true := by
  intro c hc
  rcases h.chars c hc with hd | rfl
  · exact isRaised_of_isDigit hd
  · decide

/-- A tick is a fraction over a power of two where the resolution is a power of two. -/
theorem Tick.dyadic_toBeats (tick power : Nat) :
    0 ≤ (Tick.toBeats tick (2 ^ power) : Rat) ∧
      ∃ places, (Tick.toBeats tick (2 ^ power) : Rat).den = 2 ^ places := by
  have htick : (Tick.toBeats tick (2 ^ power) : Rat) =
      ((tick : Int) : Rat) / (((2 ^ (power + 2) : Nat) : Int) : Rat) := by
    change (tick : Rat) / (((2 ^ power : Nat) : Rat) * ((4 : Nat) : Rat)) = _
    push_cast
    rw [pow_add]
    norm_num
  refine ⟨?_, ?_⟩
  · rw [htick]
    positivity
  · have hdvd := Rat.den_dvd (tick : Int) ((2 ^ (power + 2) : Nat) : Int)
    rw [Rat.divInt_eq_div, ← htick, Int.natCast_dvd_natCast] at hdvd
    obtain ⟨places, -, hplaces⟩ := (Nat.dvd_prime_pow Nat.prime_two).mp hdvd
    exact ⟨places, hplaces⟩

namespace Length

theorem legible_whole (n : Nat) : ∃ l' : Rat,
    readLength? [] (Text.upper (if n = 1 then ['w'] else 'w' :: Text.ofNat n)) = .ok (some l', []) ∧
      (((n : Rat) == l') : Bool) = true := by
  have hupper : Text.upper ['w'] = ['W'] := by decide
  split
  · rename_i hone
    subst hone
    exact ⟨1, by rw [hupper]; decide +kernel, by decide⟩
  · have htext : Text.upper ('w' :: Text.ofNat n) = 'W' :: Text.ofNat n := by
      rw [← List.singleton_append, Text.upper_append, hupper, Text.upper_ofNat]
      rfl
    have htake : Numeral.takeDigits (Text.ofNat n) = (Text.ofNat n, []) := Fragment.takeDigits_self n
    have hletter : (ofLetter? 'W' : Option Rat) = some 1 := by decide +kernel
    have hscaled : (Scalar.scaled n 0 : Rat) = n := by
      change ((n * 1 : Nat) : Rat) / ((1 : Nat) : Rat) = n
      simp
    refine ⟨0 + 1 * n, ?_, by simp⟩
    have hdots : readDots (1 * (n : Rat)) [] = (1 * (n : Rat), []) := rfl
    rw [htext, readLength?]
    · simp only [List.length_cons, readLengthLetters, hletter, htake, Numeral.value?_ofNat, hscaled,
        hdots]
      cases (Text.ofNat n).length <;> rfl
    · intro r hr
      exact absurd (List.cons.inj hr).1 (by decide)

theorem legible_named : ∀ entry ∈ (named : List (Text × Rat)),
    (∀ c ∈ entry.1, c.isAlphanum = true ∨ c = '.' ∨ c = '/') ∧ readsAs entry.1 entry.2 = true := by
  decide +kernel

theorem text_of_lt {q : Rat} (h : ¬ (((1 : Nat) : Rat) ≤ q ∧ Scalar.isWhole q = true)) :
    (∃ name, (name, q) ∈ (named : List (Text × Rat)) ∧ text q = name) ∨ text q = '/' :: Rat.text q := by
  rw [text, if_neg h]
  split
  · rename_i name value hfind
    refine .inl ⟨name, ?_, rfl⟩
    have hvalue := List.find?_some hfind
    rw [← eq_of_beq hvalue]
    exact List.mem_of_find?_eq_some hfind
  · exact .inr rfl

/-- A length is written by its name, or else with its decimals. -/
theorem legible_or_decimals {q : Rat} (hq : 0 ≤ q) : Legible q ∨ text q = '/' :: Rat.text q := by
  by_cases hwhole : ((1 : Nat) : Rat) ≤ q ∧ Scalar.isWhole q = true
  · left
    have htext : text q = if Scalar.toNat q = 1 then ['w'] else 'w' :: Text.ofNat (Scalar.toNat q) :=
      if_pos hwhole
    have hnat : ((Scalar.toNat q : Nat) : Rat) = q := by
      have hone : q.den = 1 := eq_of_beq hwhole.2
      have hfloor : Scalar.toNat q = q.num.toNat := by
        change q.floor.toNat = _
        rw [Rat.floor_def, hone, Nat.cast_one, Int.ediv_one]
      have hnum : ((q.num.toNat : Int) : Rat) = q.num := by
        rw [Int.toNat_of_nonneg (Rat.num_nonneg.mpr hq)]
      calc ((Scalar.toNat q : Nat) : Rat) = ((q.num.toNat : Int) : Rat) := by rw [hfloor]; rfl
        _ = q.num / q.den := by rw [hnum, hone, Nat.cast_one, div_one]
        _ = q := Rat.num_div_den q
    refine ⟨fun c hc => ?_, ?_⟩
    · rw [htext] at hc
      split at hc
      · rw [List.mem_singleton.mp hc]
        decide
      · rcases List.mem_cons.mp hc with rfl | hc
        · decide
        · exact .inl (by simp [Char.isAlphanum, Text.isDigit_of_mem_ofNat hc])
    · have := legible_whole (Scalar.toNat q)
      rwa [← htext, hnat] at this
  · refine (text_of_lt hwhole).imp_left fun ⟨name, hmem, htext⟩ => ?_
    obtain ⟨hchars, hread⟩ := legible_named _ hmem
    exact ⟨by rwa [htext], by rw [htext]; exact (readsAs_iff _ q).mp hread⟩

/-- Decimals are read as what they stand for. -/
theorem read_decimals {q l : Rat} (htext : text q = '/' :: Rat.text q) (h : Decimal.Expands (Rat.text q) l) :
    (∀ c ∈ text q, c.isAlphanum = true ∨ c = '.' ∨ c = '/') ∧
      readLength? [] (Text.upper (text q)) = .ok (some l, []) := by
  obtain ⟨d, hd, hvalue⟩ := h.read
  have hchars : ∀ c ∈ Rat.text q, (c.isDigit || c == '.') = true := fun c hc => by
    simpa using h.chars c hc
  have hupper : Text.upper (text q) = '/' :: Rat.text q := by
    rw [htext]
    refine upper_of_raised fun c hc => ?_
    rcases List.mem_cons.mp hc with rfl | hc
    · decide
    · exact h.raised c hc
  refine ⟨fun c hc => ?_, ?_⟩
  · rw [htext] at hc
    rcases List.mem_cons.mp hc with rfl | hc
    · exact .inr (.inr rfl)
    · exact (h.chars c hc).imp (fun h => by simp [Char.isAlphanum, h]) .inl
  · have htake : (Rat.text q).takeWhile (fun c => c.isDigit || c == '.') = Rat.text q :=
      List.takeWhile_eq_self_iff.mpr hchars
    have hdrop : (Rat.text q).dropWhile (fun c => c.isDigit || c == '.') = [] :=
      List.dropWhile_eq_nil_iff.mpr hchars
    rw [hupper]
    simp only [readLength?, htake, hdrop, hd, hvalue]

/-- A length that is a fraction over a power of two is read as it is written. -/
theorem legible_dyadic {q : Rat} (hq : 0 ≤ q) {places : Nat} (hden : q.den = 2 ^ places) :
    Legible q := by
  rcases legible_or_decimals hq with h | htext
  · exact h
  · obtain ⟨hchars, hread⟩ := read_decimals htext (Rat.text_expands hq hden)
    exact ⟨hchars, q, hread, beq_self_eq_true q⟩

/-- Any other fraction is read as some length. -/
theorem readable_of_nonneg {q : Rat} (hq : 0 ≤ q) : Readable q := by
  rcases legible_or_decimals hq with h | htext
  · exact h.readable
  · obtain ⟨hchars, hread⟩ := read_decimals htext (Rat.text_expands_cut hq)
    exact ⟨hchars, by simp only [reread, hread]⟩

end Length

namespace Fragment

/-- As `Length.legible_dyadic`, of a time. -/
theorem legibleTime_dyadic {q : Rat} (hq : 0 ≤ q) {places : Nat} (hden : q.den = 2 ^ places) :
    LegibleTime q := by
  have hexpands := Rat.text_expands hq hden
  obtain ⟨d, hd, hvalue⟩ := hexpands.read
  obtain ⟨c, r, htext, hdigit⟩ := hexpands.head
  refine ⟨hexpands.chars, q, ?_, beq_self_eq_true q⟩
  have hnot : ¬ (q < ((0 : Nat) : Rat) ∨ (!Scalar.isFinite q) = true) := by
    rintro (h | h)
    · exact absurd h (not_lt.mpr hq)
    · cases h
  have hhash : ∀ name, Rat.text q ≠ '#' :: name := by
    intro name hname
    rw [htext] at hname
    exact absurd ((List.cons.inj hname).1 ▸ hdigit) (by decide)
  change readBeatTime ('@' :: Rat.text q) = _
  unfold readBeatTime
  split
  · rename_i name hname
    exact absurd hname (hhash name)
  · rename_i literal _
    split
    · rename_i hnone
      exact absurd (hd.symm.trans hnone) (Option.some_ne_none d)
    · rename_i read hread
      obtain rfl := Option.some.inj (hd.symm.trans hread)
      dsimp only
      rw [hvalue, if_neg hnot]

end Fragment

end ScoreText
