import Mathlib.Tactic.IntervalCases
import ScoreText.Notation.Parser
import ScoreText.Sequence.Replay

/-!
A tempo goes into a sequence as the microseconds of a quarter note, in three bytes, and comes out as the tempo
nearest to them. Three bytes are too few for the slowest tempos, and whole microseconds too coarse for fast ones.
-/

set_option autoImplicit false

namespace ScoreText

/-- The number that bytes write, highest first. -/
def ofBytes (bytes : List UInt8) : Nat := bytes.foldl (fun n b => n * 256 + b.toNat) 0

namespace Tempo

theorem quarterMicros_of_pos {bpm : Nat} (h : 1 ≤ bpm) : quarterMicros bpm = 60000000 / bpm := by
  rw [quarterMicros, Nat.max_eq_left h]

/-- A quarter note fits three bytes from the fourth tempo on. -/
theorem quarterMicros_lt_iff (bpm : Nat) : quarterMicros bpm < 2 ^ 24 ↔ 4 ≤ bpm := by
  constructor
  · intro h
    by_contra hslow
    have : bpm < 4 := by omega
    interval_cases bpm <;> simp [quarterMicros] at h
  · intro h
    rw [quarterMicros_of_pos (by omega)]
    calc 60000000 / bpm ≤ 60000000 / 4 := Nat.div_le_div_left h (by omega)
      _ < 2 ^ 24 := by decide

/-- A tempo comes back from whole microseconds where those that are left over are less than half a one for each. -/
theorem ofQuarterMicros_quarterMicros_iff {bpm : Nat} (h : 1 ≤ bpm) :
    ofQuarterMicros (quarterMicros bpm) = bpm ↔ 2 * (60000000 % bpm) < quarterMicros bpm := by
  have hminute : bpm * quarterMicros bpm + 60000000 % bpm = 60000000 := by
    rw [quarterMicros_of_pos h]
    exact Nat.div_add_mod 60000000 bpm
  rcases Nat.eq_zero_or_pos (quarterMicros bpm) with hzero | hpos
  · have hfast : 60000000 < bpm := by
      rw [quarterMicros_of_pos h] at hzero
      exact (Nat.div_eq_zero_iff_lt h).mp hzero
    have hback : ofQuarterMicros 0 = 60000000 := by decide
    rw [hzero, hback]
    omega
  · rw [ofQuarterMicros, Nat.max_eq_left hpos, Nat.div_eq_iff (by omega)]
    rw [Nat.mul_left_comm bpm 2]
    omega

/-- Up to this tempo no microsecond matters. -/
theorem mod_lt_quarterMicros {bpm : Nat} (hl : 1 ≤ bpm) (hh : bpm ≤ 5000) :
    2 * (60000000 % bpm) < quarterMicros bpm := by
  have hleft : 60000000 % bpm < bpm := Nat.mod_lt _ hl
  have hlong : 60000000 / 5000 ≤ quarterMicros bpm := by
    rw [quarterMicros_of_pos hl]
    exact Nat.div_le_div_left hh hl
  omega

end Tempo

namespace Sequencer

variable {R : Type} [Scalar R]

theorem ofBytes_threeBytes (n : Nat) : ofBytes (threeBytes n) = n % 2 ^ 24 := by
  simp only [ofBytes, threeBytes, List.foldl, Nat.toUInt8_eq, UInt8.toNat_ofNat']
  omega

omit [Scalar R] in
theorem eventsOf_threeBytes (n : Nat) :
    (Replay.eventsOf (.metaEvent MetaKind.tempo.number (threeBytes n)) : List (Event R)) =
      [.tempo (Tempo.ofQuarterMicros (ofBytes (threeBytes n)))] := by
  simp [Replay.eventsOf, Replay.metaEvents, threeBytes, ofBytes, Nat.add_mul, Nat.mul_assoc]

/-- The three slowest tempos are cut to faster ones. -/
theorem ofQuarterMicros_cut_ne {bpm : Nat} (h : bpm < 4) :
    Tempo.ofQuarterMicros (Tempo.quarterMicros bpm % 2 ^ 24) ≠ bpm := by
  interval_cases bpm <;> simp [Tempo.quarterMicros, Tempo.ofQuarterMicros]

/-- A tempo is written as the last three bytes of its quarter note in microseconds: the whole of it just from four
beats a minute on. It is told again just when, besides, less than half a microsecond for each is left over, as it is
up to a tempo of five thousand. -/
theorem tempo_retold_iff (s : Sequencer R) (bpm : Nat) :
    let bytes := threeBytes (Tempo.quarterMicros bpm)
    let told : List (Event R) := Replay.eventsOf (.metaEvent MetaKind.tempo.number bytes)
    (s.hear (.tempo bpm)).2 = [s.emitAt s.timeline.time (.metaEvent MetaKind.tempo.number bytes)] ∧
      ofBytes bytes = Tempo.quarterMicros bpm % 2 ^ 24 ∧
      (ofBytes bytes = Tempo.quarterMicros bpm ↔ 4 ≤ bpm) ∧
      (told = [.tempo bpm] ↔ 4 ≤ bpm ∧ 2 * (60000000 % bpm) < Tempo.quarterMicros bpm) ∧
      (4 ≤ bpm → bpm ≤ 5000 → told = [.tempo bpm]) := by
  intro bytes told
  have hbytes : ofBytes bytes = Tempo.quarterMicros bpm % 2 ^ 24 := ofBytes_threeBytes _
  have hwhole : Tempo.quarterMicros bpm % 2 ^ 24 = Tempo.quarterMicros bpm ↔ 4 ≤ bpm := by
    rw [Nat.mod_eq_iff_lt (by decide), Tempo.quarterMicros_lt_iff]
  have htold : told = [.tempo bpm] ↔ 4 ≤ bpm ∧ 2 * (60000000 % bpm) < Tempo.quarterMicros bpm := by
    have hone : told = [.tempo (Tempo.ofQuarterMicros (ofBytes bytes))] := eventsOf_threeBytes _
    rw [hone, hbytes, List.singleton_inj, Event.tempo.injEq]
    by_cases h : 4 ≤ bpm
    · rw [hwhole.mpr h, Tempo.ofQuarterMicros_quarterMicros_iff (by omega)]
      exact (and_iff_right h).symm
    · exact iff_of_false (ofQuarterMicros_cut_ne (by omega)) fun hslow => h hslow.1
  refine ⟨rfl, hbytes, by rw [hbytes, hwhole], htold, fun hl hh => ?_⟩
  exact htold.mpr ⟨hl, Tempo.mod_lt_quarterMicros (by omega) hh⟩

/-- One beat a minute is read of a notation, written as fewer microseconds than it takes and told as six. -/
theorem slowest_tempo_cut :
    let bytes := threeBytes (Tempo.quarterMicros 1)
    let told : List (Event Rat) := Replay.eventsOf (.metaEvent MetaKind.tempo.number bytes)
    let s : Sequencer Rat := (Sequencer.start 128 (1 / 4)).1
    (∃ before after, ((Parser.standard : Parser Rat).parse "T1".toList).events = before ++ .tempo 1 :: after) ∧
      (s.hear (.tempo 1)).2 = [.addEvent 0 0 (.metaEvent 81 [147, 135, 0])] ∧
      ofBytes bytes = 9668352 ∧ Tempo.quarterMicros 1 = 60000000 ∧ ofBytes bytes ≠ Tempo.quarterMicros 1 ∧
      told = [.tempo 6] ∧ told ≠ [.tempo 1] ∧
      (Replay.eventsOf (.metaEvent 81 (threeBytes (Tempo.quarterMicros 5000))) : List (Event Rat)) =
        [.tempo 5000] := by
  intro bytes told s
  obtain ⟨-, hbytes, hwhole, htold, -⟩ := tempo_retold_iff s 1
  obtain ⟨-, -, -, -, hfast⟩ := tempo_retold_iff s 5000
  have hread : ((Parser.standard : Parser Rat).parse "T1".toList).events =
      [.parsingStarts] ++ .tempo 1 :: [.parsingEnds] := by rfl
  refine ⟨⟨_, _, hread⟩, by decide +kernel, hbytes, rfl, ?_, rfl, ?_, hfast (by omega) (by omega)⟩
  · exact fun h => absurd (hwhole.mp h) (by omega)
  · exact fun h => absurd (htold.mp h).1 (by omega)

end Sequencer

end ScoreText
