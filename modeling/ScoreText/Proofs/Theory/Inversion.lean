import Mathlib.Data.List.Rotate
import ScoreText.Theory.Chord

/-!
Inverted chords. Where each degree of a chord sounds, and when the note that stands first is the lowest of them and
in the pitch class that the bass note names: always while an ordinary chord has more notes than it is inverted times,
and never after that.
-/

set_option autoImplicit false

namespace ScoreText

theorem rotateLeft_eq_rotate {α : Type} (l : List α) (n : Nat) : l.rotateLeft n = l.rotate n := by
  rw [List.rotateLeft, List.rotate_eq_drop_append_take_mod]
  dsimp only
  split
  · rename_i hle
    rcases Nat.le_one_iff_eq_zero_or_eq_one.mp hle with h | h
    · rw [List.eq_nil_of_length_eq_zero h]
      simp
    · rw [h, Nat.mod_one, List.drop_zero, List.take_zero, List.append_nil]
  · rfl

/-- A list turned so that one of its places comes first. -/
theorem head?_rotateLeft {α : Type} {l : List α} (hne : l ≠ []) (n : Nat) :
    (l.rotateLeft n).head? = l[n % l.length]? := by
  have hlt : n % l.length < l.length := Nat.mod_lt _ (List.length_pos_of_ne_nil hne)
  rw [rotateLeft_eq_rotate, List.rotate_eq_drop_append_take_mod, List.drop_eq_getElem_cons hlt, List.cons_append,
    List.head?_cons, List.getElem?_eq_getElem hlt]

theorem mem_rotateLeft {α : Type} {l : List α} {n : Nat} {a : α} : a ∈ l.rotateLeft n ↔ a ∈ l := by
  rw [rotateLeft_eq_rotate, List.mem_rotate]

namespace Intervals

theorem steps_ne_nil {pattern : Text} {shape : Intervals} (h : ofText pattern = .ok shape) : shape.steps ≠ [] := by
  unfold ofText at h
  dsimp only at h
  split at h
  · cases h
  · rename_i hne
    split at h
    · cases h
    · cases h
      simpa [steps] using hne

end Intervals

namespace Chord

variable {R : Type} [Scalar R] {c : Chord R}

/-- Semitones above the root at which a degree sounds. The first degree is the root, whatever is written for it, and
an inversion lifts as many of the lowest as it counts by an octave. -/
def height (c : Chord R) (degree : Nat) : Int :=
  (if degree = 0 then 0 else (c.intervals.steps[degree]?).getD 0)
    + if degree < c.inversion then (octaveSize : Int) else 0

/-- The degree of the note that stands first. -/
def leading (c : Chord R) : Nat := c.inversion % c.intervals.steps.length

/-- The semitones above the root of the degree that the bass note stands for. -/
def bassStep (c : Chord R) : Int := (c.intervals.steps[min c.inversion (c.intervals.steps.length - 1)]?).getD 0

/-- The first note is the lowest, and the bass note has its pitch class. -/
def BassFirst (c : Chord R) : Prop :=
  ∃ bass rest, c.notes = bass :: rest ∧ (∀ n ∈ rest, bass.value ≤ n.value) ∧
    Tone.position bass.value = Tone.position c.bassNote.value

/-- A chord low enough, over a pattern that can be read and stays within two octaves, for no note to be cut off. -/
structure Fits (c : Chord R) : Prop where
  root : c.root.value ≤ 60
  pattern : ∃ text, Intervals.ofText text = .ok c.intervals
  steps : ∀ s ∈ c.intervals.steps, 0 ≤ s ∧ s ≤ 24

/-- The notes from the root up, before any is lifted. -/
def upright (c : Chord R) : List (Note R) := c.root :: (c.intervals.steps.drop 1).map (noteAbove c.root)

/-- The notes in the order of their degrees, the lowest of them lifted. -/
def lifted (c : Chord R) : List (Note R) := (c.upright.take c.inversion).map raise ++ c.upright.drop c.inversion

theorem notes_eq (c : Chord R) : c.notes = assignRoles c.root (c.lifted.rotateLeft c.inversion) := rfl

theorem getElem?_lifted (c : Chord R) (i : Nat) :
    c.lifted[i]? = c.upright[i]?.map fun n => if i < c.inversion then raise n else n := by
  rw [lifted]
  generalize c.upright = notes
  generalize c.inversion = count
  induction notes generalizing i count with
  | nil => simp
  | cons n rest ih =>
    cases count with
    | zero => simp
    | succ count =>
      cases i with
      | zero => simp
      | succ i => simpa using ih i count

theorem length_lifted (h : c.Fits) : c.lifted.length = c.intervals.steps.length := by
  obtain ⟨text, hpattern⟩ := h.pattern
  have hpos := List.length_pos_of_ne_nil (Intervals.steps_ne_nil hpattern)
  rw [lifted, List.length_append, List.length_map, ← List.length_append, List.take_append_drop, upright,
    List.length_cons, List.length_map, List.length_drop]
  omega

theorem value_upright (h : c.Fits) {i : Nat} (hi : i < c.intervals.steps.length) :
    ∃ n, c.upright[i]? = some n ∧
      (n.value : Int) = c.root.value + if i = 0 then 0 else (c.intervals.steps[i]?).getD 0 := by
  cases i with
  | zero => exact ⟨c.root, rfl, by simp⟩
  | succ i =>
    obtain ⟨hlow, hhigh⟩ := h.steps _ (List.getElem_mem hi)
    have hroot := h.root
    refine ⟨noteAbove c.root c.intervals.steps[i + 1], ?_, ?_⟩
    · rw [upright, List.getElem?_cons_succ, List.getElem?_map, List.getElem?_drop, Nat.add_comm 1 i,
        List.getElem?_eq_getElem hi, Option.map_some]
    · rw [List.getElem?_eq_getElem hi, if_neg (Nat.succ_ne_zero i), Option.getD_some]
      simp only [noteAbove, Note.ofValue, maxData]
      omega

/-- Each degree sounds at its height above the root. -/
theorem value_lifted (h : c.Fits) {i : Nat} (hi : i < c.intervals.steps.length) :
    ∃ n, c.lifted[i]? = some n ∧ (n.value : Int) = c.root.value + c.height i := by
  obtain ⟨n, hn, hvalue⟩ := value_upright h hi
  have hroot := h.root
  have hstep : (if i = 0 then 0 else (c.intervals.steps[i]?).getD 0) ≤ 24 := by
    rw [List.getElem?_eq_getElem hi, Option.getD_some]
    have := (h.steps _ (List.getElem_mem hi)).2
    split <;> omega
  refine ⟨_, by rw [getElem?_lifted, hn, Option.map_some], ?_⟩
  rw [height]
  generalize (if i = 0 then 0 else (c.intervals.steps[i]?).getD 0) = step at *
  split
  · simp only [raise, maxData, octaveSize]
    omega
  · omega

theorem forall_mem_lifted (h : c.Fits) {P : Int → Prop} :
    (∀ n ∈ c.lifted, P n.value) ↔ ∀ i < c.intervals.steps.length, P (c.root.value + c.height i) := by
  constructor
  · intro hall i hi
    obtain ⟨n, hn, hvalue⟩ := value_lifted h hi
    exact hvalue ▸ hall n (List.mem_of_getElem? hn)
  · intro hall n hn
    obtain ⟨i, hi⟩ := List.mem_iff_getElem?.mp hn
    have hlt : i < c.intervals.steps.length := by
      rw [← length_lifted h]
      exact (List.getElem?_eq_some_iff.mp hi).1
    obtain ⟨m, hm, hvalue⟩ := value_lifted h hlt
    obtain rfl : n = m := Option.some.inj (hi.symm.trans hm)
    exact hvalue ▸ hall i hlt

omit [Scalar R] in
theorem leading_lt (h : c.Fits) : c.leading < c.intervals.steps.length := by
  obtain ⟨text, hpattern⟩ := h.pattern
  exact Nat.mod_lt _ (List.length_pos_of_ne_nil (Intervals.steps_ne_nil hpattern))

/-- The first note sounds at the height of the degree that comes first, and all notes at those of their degrees. -/
theorem exists_bass (h : c.Fits) : ∃ bass rest, c.notes = bass :: rest ∧
    (bass.value : Int) = c.root.value + c.height c.leading ∧
    ((∀ n ∈ rest, bass.value ≤ n.value) ↔ ∀ i < c.intervals.steps.length, c.height c.leading ≤ c.height i) := by
  obtain ⟨first, hfirst, hvalue⟩ := value_lifted h (leading_lt h)
  have hne : c.lifted ≠ [] := List.ne_nil_of_mem (List.mem_of_getElem? hfirst)
  have hhead : (c.lifted.rotateLeft c.inversion).head? = some first := by
    rw [head?_rotateLeft hne, length_lifted h]
    exact hfirst
  obtain ⟨others, hturned⟩ := List.head?_eq_some_iff.mp hhead
  have hlowest : (∀ n ∈ c.lifted, (first.value : Int) ≤ n.value) ↔ ∀ n ∈ others, first.value ≤ n.value := by
    have hmem : ∀ n, n ∈ c.lifted ↔ n ∈ first :: others := fun n => hturned ▸ mem_rotateLeft.symm
    simp only [hmem, List.forall_mem_cons, Int.ofNat_le]
    exact and_iff_right (le_refl _)
  rw [forall_mem_lifted h (P := fun v => (first.value : Int) ≤ v), hvalue] at hlowest
  refine ⟨_, _, c.notes_eq.trans (congrArg (assignRoles c.root) hturned), hvalue, ?_⟩
  rw [List.forall_mem_map]
  refine hlowest.symm.trans (forall_congr' fun i => imp_congr_right fun _ => ?_)
  omega

theorem position_bassNote (h : c.Fits) :
    (Tone.position c.bassNote.value : Int) = (c.root.value + c.bassStep) % octaveSize := by
  have hroot := h.root
  have hbass : c.bassNote.value = min (c.root.value / octaveSize * octaveSize +
      (((c.root.value : Int) + c.bassStep) % octaveSize).toNat) maxData := rfl
  rw [hbass, Tone.position]
  generalize c.bassStep = step
  simp only [octaveSize, maxData] at *
  omega

theorem bassFirst_iff_heights (h : c.Fits) : c.BassFirst ↔
    (∀ i < c.intervals.steps.length, c.height c.leading ≤ c.height i) ∧
      c.height c.leading % octaveSize = c.bassStep % octaveSize := by
  obtain ⟨bass, rest, hnotes, hvalue, hlowest⟩ := exists_bass h
  have hbassNote := position_bassNote h
  have hclass : Tone.position bass.value = Tone.position c.bassNote.value ↔
      c.height c.leading % octaveSize = c.bassStep % octaveSize := by
    generalize c.bassNote.value = noted at *
    generalize c.bassStep = step at *
    simp only [Tone.position, octaveSize] at *
    omega
  rw [← hlowest, ← hclass]
  constructor
  · rintro ⟨bass', rest', hnotes', hfirst⟩
    obtain ⟨rfl, rfl⟩ := List.cons.inj (hnotes.symm.trans hnotes')
    exact hfirst
  · exact fun hfirst => ⟨bass, rest, hnotes, hfirst⟩

/-- A pattern that starts on the root and rises within an octave, as most do. -/
structure Close (c : Chord R) : Prop where
  root : c.intervals.steps.head? = some 0
  rising : c.intervals.steps.Pairwise (· < ·)
  within : ∀ s ∈ c.intervals.steps, s < octaveSize

section

omit [Scalar R]

theorem Close.step_zero (h : c.Close) : (c.intervals.steps[0]?).getD 0 = 0 := by
  rw [← List.head?_eq_getElem?, h.root, Option.getD_some]

theorem Close.step_lt (h : c.Close) {i j : Nat} (hij : i < j) (hj : j < c.intervals.steps.length) :
    (c.intervals.steps[i]?).getD 0 < (c.intervals.steps[j]?).getD 0 ∧
      (c.intervals.steps[j]?).getD 0 < octaveSize := by
  have hi : i < c.intervals.steps.length := hij.trans hj
  rw [List.getElem?_eq_getElem hi, List.getElem?_eq_getElem hj, Option.getD_some, Option.getD_some]
  exact ⟨List.pairwise_iff_getElem.mp h.rising i j hi hj hij, h.within _ (List.getElem_mem hj)⟩

theorem Close.step_nonneg (h : c.Close) {i : Nat} (hi : i < c.intervals.steps.length) :
    0 ≤ (c.intervals.steps[i]?).getD 0 := by
  rcases Nat.eq_zero_or_pos i with rfl | hpos
  · exact Int.le_of_eq h.step_zero.symm
  · have := (h.step_lt hpos hi).1
    rw [h.step_zero] at this
    omega

theorem Close.height_eq (h : c.Close) (i : Nat) :
    c.height i = (c.intervals.steps[i]?).getD 0 + if i < c.inversion then (octaveSize : Int) else 0 := by
  rw [height]
  split
  · rename_i hi
    rw [hi, h.step_zero]
  · rfl

end

/-- The bass of a close chord is first until the chord is inverted as many times as it has notes. -/
theorem Close.bassFirst_iff_lt (h : c.Close) (hfits : c.Fits) :
    c.BassFirst ↔ c.inversion < c.intervals.steps.length ∨ c.intervals.steps.length = 1 := by
  have hleading := leading_lt hfits
  obtain ⟨count, hcount⟩ : ∃ count, count = c.intervals.steps.length := ⟨_, rfl⟩
  rw [bassFirst_iff_heights hfits]
  simp only [h.height_eq, bassStep, leading, ← hcount] at hleading ⊢
  rcases Nat.lt_or_ge c.inversion count with hlt | hge
  · -- the degree that comes first is not lifted, those below it are
    rw [Nat.mod_eq_of_lt hlt, if_neg (Nat.lt_irrefl _), Nat.min_eq_left (by omega), Int.add_zero]
    refine iff_of_true ⟨fun i hi => ?_, rfl⟩ (.inl hlt)
    rcases Nat.lt_trichotomy i c.inversion with hi' | rfl | hi'
    · obtain ⟨-, hwithin⟩ := h.step_lt hi' (hcount ▸ hlt)
      have hzero := h.step_nonneg (hcount ▸ hi)
      rw [if_pos hi']
      omega
    · exact Int.le_of_eq (by rw [if_neg (Nat.lt_irrefl _), Int.add_zero])
    · have := (h.step_lt hi' (hcount ▸ hi)).1
      rw [if_neg (by omega)]
      omega
  · rw [if_pos (hleading.trans_le hge), Nat.min_eq_right (by omega)]
    rcases Nat.lt_or_ge 1 count with hmany | hone
    · -- the root is the lowest note, the bass note is taken from the last degree
      refine iff_of_false (fun ⟨hlowest, hclass⟩ => ?_) (by omega)
      have hroot := hlowest 0 (by omega)
      rw [if_pos (by omega), h.step_zero] at hroot
      obtain ⟨habove, hwithin⟩ := h.step_lt (i := 0) (j := count - 1) (by omega) (by omega)
      have hfirst : 0 ≤ (c.intervals.steps[c.inversion % count]?).getD 0 := h.step_nonneg (by omega)
      rw [h.step_zero] at habove
      simp only [octaveSize] at *
      omega
    · obtain rfl : count = 1 := by omega
      refine iff_of_true ⟨fun i hi => ?_, ?_⟩ (.inr rfl)
      · obtain rfl : i = 0 := by omega
        exact Int.le_of_eq (by rw [Nat.mod_one, if_pos (by omega)])
      · rw [Nat.mod_one, h.step_zero]
        rfl

/-- The note that stands first is the lowest, in the pitch class of the bass note, just when no other degree sounds
lower than the one that comes first and that has the pitch class of the degree the bass note is taken from. In a
close chord that is so until it is inverted as many times as it has notes. -/
theorem bassFirst_iff (h : c.Fits) :
    (c.BassFirst ↔ (∀ i < c.intervals.steps.length, c.height c.leading ≤ c.height i) ∧
      c.height c.leading % octaveSize = c.bassStep % octaveSize) ∧
    (c.Close → (c.BassFirst ↔ c.inversion < c.intervals.steps.length ∨ c.intervals.steps.length = 1)) :=
  ⟨bassFirst_iff_heights h, fun hclose => hclose.bassFirst_iff_lt h⟩

/-- C major above middle C, inverted a number of times. -/
def invertedTriad (count : Nat) : Chord Rat :=
  { root := .ofValue 60, intervals := ⟨["1".toList, "3".toList, "5".toList]⟩, inversion := count }

/-- The ninth above C with the ninth in the bass, which lies above the lifted third. -/
def invertedNinth : Chord Rat :=
  { root := .ofValue 48, intervals := ⟨["1".toList, "3".toList, "5".toList, "9".toList]⟩, inversion := 3 }

/-- A triad inverted three times is a triad an octave up, over a bass note that is still its fifth. -/
theorem invertedTriad_past_its_notes :
    (invertedTriad 2).Fits ∧ (invertedTriad 2).BassFirst ∧ (invertedTriad 3).Fits ∧ ¬ (invertedTriad 3).BassFirst ∧
      invertedNinth.Fits ∧ ¬ invertedNinth.BassFirst := by
  have hfits : ∀ count, (invertedTriad count).Fits := fun count =>
    ⟨(by decide : (invertedTriad 0).root.value ≤ 60), ⟨"1 3 5".toList, rfl⟩,
      (by decide : ∀ s ∈ (invertedTriad 0).intervals.steps, 0 ≤ s ∧ s ≤ 24)⟩
  have hclose : ∀ count, (invertedTriad count).Close := fun count =>
    have h : (invertedTriad 0).intervals.steps.head? = some 0 ∧ (invertedTriad 0).intervals.steps.Pairwise (· < ·) ∧
      ∀ s ∈ (invertedTriad 0).intervals.steps, s < octaveSize := by decide
    ⟨h.1, h.2.1, h.2.2⟩
  have hninth : invertedNinth.Fits := ⟨by decide, ⟨"1 3 5 9".toList, rfl⟩, by decide⟩
  refine ⟨hfits 2, ((bassFirst_iff (hfits 2)).2 (hclose 2)).mpr (by decide), hfits 3, fun h => ?_, hninth, fun h => ?_⟩
  · exact absurd (((bassFirst_iff (hfits 3)).2 (hclose 3)).mp h) (by decide)
  · exact absurd ((bassFirst_iff hninth).1.mp h) (by decide)

end Chord

end ScoreText
