import Mathlib.Data.List.Destutter
import Mathlib.Data.Rat.Floor
import ScoreText.Live.Ramp
import ScoreText.Proofs.Live.Courses

/-!
The course of a ramp. A value is told only when it differs from the one before, and values that are rounded
from even progress never turn back: what is told goes strictly from one end to the other, however many parts
of the way are looked at and however they are spaced, and so does what a ramp tells that a scheduler calls.
-/

set_option autoImplicit false

namespace ScoreText

/-- Without its repetitions, a list in which each is related to all after it is strictly ordered. -/
theorem pairwise_destutter_ne {α : Type} [DecidableEq α] {r s : α → α → Prop} [Trans s s s]
    (hs : ∀ a b, r a b → a ≠ b → s a b) {l : List α} (h : l.Pairwise r) :
    (l.destutter (· ≠ ·)).Pairwise s := by
  have hkept := (h.sublist (l.destutter_sublist (· ≠ ·))).isChain
  have hmoved := l.isChain_destutter (· ≠ ·)
  rw [List.isChain_iff_getElem] at hkept hmoved
  refine List.IsChain.pairwise (List.isChain_iff_getElem.mpr fun i hi => ?_)
  exact hs _ _ (hkept i hi) (hmoved i hi)

theorem getLast?_destutter'_ne {α : Type} [DecidableEq α] (l : List α) (a : α) :
    (l.destutter' (· ≠ ·) a).getLast? = (a :: l).getLast? := by
  induction l generalizing a with
  | nil => rfl
  | cons b rest ih =>
    by_cases h : a = b
    · subst h
      rw [List.destutter'_cons_neg _ (by simp), ih, List.getLast?_cons_cons]
    · rw [List.destutter'_cons_pos _ h, List.getLast?_cons, ih, List.getLast?_cons_cons]
      simp [List.getLast?_cons]

namespace Ramp

/-- What a ramp tells when it is begun and goes along parts of the way. -/
def told (r : Ramp) (portions : List Rat) : List Nat := r.begin.2.toList ++ r.begin.1.updates portions

/-- What a ramp tells as it is called. -/
def answers (r : Ramp) : List Call → List Nat
  | [] => []
  | call :: rest =>
    let (r, told) := r.call Rat call
    told.toList ++ r.answers rest

/-- The parts of the way in calls. -/
def portions (calls : List Call) : List Rat :=
  calls.filterMap fun
    | .update elapsed duration => some (Call.portion elapsed duration)
    | _ => none

/-- Values that run from one end to the other: strictly up, strictly down, or not at all. -/
structure Runs (start goal : Nat) (values : List Nat) : Prop where
  first : values.head? = some start
  last : values.getLast? = some goal
  within : ∀ v ∈ values, min start goal ≤ v ∧ v ≤ max start goal
  rises : start < goal → values.Pairwise (· < ·)
  falls : goal < start → values.Pairwise (· > ·)
  stays : start = goal → values = [start]

/-! ### Values on the way -/

theorem clampUnit_eq (p : Rat) : Scalar.clampUnit p = max 0 (min 1 p) := by
  rw [Scalar.clampUnit]
  split
  · rename_i h
    have hneg : p < ((0 : Nat) : Rat) := h
    rw [Nat.cast_zero] at hneg
    exact (max_eq_left ((min_le_right 1 p).trans hneg.le)).symm
  · rename_i hneg
    have hpos : ¬ p < ((0 : Nat) : Rat) := hneg
    rw [Nat.cast_zero, not_lt] at hpos
    split
    · rename_i h
      have hpast : ((1 : Nat) : Rat) < p := h
      rw [Nat.cast_one] at hpast
      rw [min_eq_left hpast.le]
      exact (max_eq_right zero_le_one).symm
    · rename_i h
      have hwithin : ¬ ((1 : Nat) : Rat) < p := h
      rw [Nat.cast_one, not_lt] at hwithin
      rw [min_eq_right hwithin, max_eq_right hpos]

theorem valueAt_eq (r : Ramp) (p : Rat) :
    r.valueAt p = ⌊(r.start : Rat) + ((r.goal : Rat) - r.start) * max 0 (min 1 p) + 1 / 2⌋.toNat := by
  rw [← clampUnit_eq]
  rfl

theorem round_of_eq (n : Nat) {q : Rat} (h : q = n) : ⌊q + 1 / 2⌋.toNat = n := by
  have hfloor : ⌊q + 1 / 2⌋ = (n : Int) := by
    rw [h, Int.floor_eq_iff]
    constructor
    · push_cast
      linarith
    · push_cast
      linarith
  rw [hfloor, Int.toNat_natCast]

theorem valueAt_of_one_le (r : Ramp) {p : Rat} (h : 1 ≤ p) : r.valueAt p = r.goal := by
  rw [valueAt_eq, min_eq_left h, max_eq_right zero_le_one]
  exact round_of_eq r.goal (by ring)

theorem valueAt_le_valueAt {r : Ramp} {p q : Rat}
    (h : ((r.goal : Rat) - r.start) * max 0 (min 1 p) ≤ ((r.goal : Rat) - r.start) * max 0 (min 1 q)) :
    r.valueAt p ≤ r.valueAt q := by
  rw [valueAt_eq, valueAt_eq]
  refine Int.toNat_le_toNat (Int.floor_le_floor ?_)
  linarith

theorem valueAt_mono {r : Ramp} (hup : r.start ≤ r.goal) {p q : Rat} (h : p ≤ q) :
    r.valueAt p ≤ r.valueAt q :=
  valueAt_le_valueAt (mul_le_mul_of_nonneg_left (max_le_max_left 0 (min_le_min_left 1 h))
    (sub_nonneg.mpr (Nat.cast_le.mpr hup)))

theorem valueAt_anti {r : Ramp} (hdown : r.goal ≤ r.start) {p q : Rat} (h : p ≤ q) :
    r.valueAt q ≤ r.valueAt p :=
  valueAt_le_valueAt (mul_le_mul_of_nonpos_left (max_le_max_left 0 (min_le_min_left 1 h))
    (sub_nonpos.mpr (Nat.cast_le.mpr hdown)))

theorem valueAt_of_le_zero (r : Ramp) {p : Rat} (h : p ≤ 0) : r.valueAt p = r.start := by
  rw [valueAt_eq, max_eq_left ((min_le_right 1 p).trans h)]
  exact round_of_eq r.start (by ring)

/-- No value lies beyond the ends. -/
theorem valueAt_within (r : Ramp) (p : Rat) :
    (r.start ≤ r.goal → r.start ≤ r.valueAt p ∧ r.valueAt p ≤ r.goal) ∧
      (r.goal ≤ r.start → r.goal ≤ r.valueAt p ∧ r.valueAt p ≤ r.start) := by
  have hstart : r.valueAt (min 0 p) = r.start := valueAt_of_le_zero r (min_le_left 0 p)
  have hgoal : r.valueAt (max 1 p) = r.goal := valueAt_of_one_le r (le_max_left 1 p)
  have hlow : min 0 p ≤ p := min_le_right 0 p
  have hhigh : p ≤ max 1 p := le_max_right 1 p
  refine ⟨fun hup => ⟨?_, ?_⟩, fun hdown => ⟨?_, ?_⟩⟩
  · exact hstart.symm.le.trans (valueAt_mono hup hlow)
  · exact (valueAt_mono hup hhigh).trans hgoal.le
  · exact hgoal.symm.le.trans (valueAt_anti hdown hhigh)
  · exact (valueAt_anti hdown hlow).trans hstart.le

/-! ### What is told -/

theorem updates_eq {r : Ramp} {v : Nat} (h : r.last = some v) (ps : List Rat) :
    v :: r.updates ps = (ps.map r.valueAt).destutter' (· ≠ ·) v := by
  induction ps generalizing r v with
  | nil => rfl
  | cons p rest ih =>
    by_cases hsame : v = r.valueAt p
    · have hquiet : r.update p = (r, none) := by rw [update, tell, h, hsame, if_pos rfl]
      rw [updates, hquiet, List.map_cons, List.destutter'_cons_neg _ (by simpa using hsame)]
      exact ih h
    · have hmoved : r.update p = ({ r with last := some (r.valueAt p) }, some (r.valueAt p)) := by
        rw [update, tell, h, if_neg fun heq => hsame (Option.some.inj heq)]
      rw [updates, hmoved, List.map_cons, List.destutter'_cons_pos _ hsame]
      exact congrArg (v :: ·) (ih (r := { r with last := some (r.valueAt p) }) rfl)

theorem begin_eq {r : Ramp} (hnew : r.last = none) :
    r.begin = ({ r with last := some r.start }, some r.start) := by
  rw [begin, tell, hnew, if_neg (Option.some_ne_none _).symm]

/-- A new ramp tells where it starts and its value at each part of the way, without repetitions. -/
theorem told_eq {r : Ramp} (hnew : r.last = none) (ps : List Rat) :
    r.told ps = (r.start :: ps.map r.valueAt).destutter (· ≠ ·) := by
  rw [told, begin_eq hnew, List.destutter_cons']
  exact updates_eq (r := { r with last := some r.start }) rfl ps

theorem runs_told {r : Ramp} (hnew : r.last = none) {ps : List Rat} (hsorted : ps.Pairwise (· ≤ ·))
    (hwhole : ∃ p ∈ ps.getLast?, 1 ≤ p) : Runs r.start r.goal (r.told ps) := by
  have hrise : r.start ≤ r.goal → (r.start :: ps.map r.valueAt).Pairwise (· ≤ ·) := fun hup =>
    List.pairwise_cons.mpr ⟨List.forall_mem_map.mpr fun p _ => ((valueAt_within r p).1 hup).1,
      List.pairwise_map.mpr (hsorted.imp (valueAt_mono hup))⟩
  have hfall : r.goal ≤ r.start → (r.start :: ps.map r.valueAt).Pairwise (· ≥ ·) := fun hdown =>
    List.pairwise_cons.mpr ⟨List.forall_mem_map.mpr fun p _ => ((valueAt_within r p).2 hdown).2,
      List.pairwise_map.mpr (hsorted.imp (valueAt_anti hdown))⟩
  have hends : (r.start :: ps.map r.valueAt).getLast? = some r.goal := by
    obtain ⟨p, hp, hpast⟩ := hwhole
    rw [List.getLast?_cons, List.getLast?_map, Option.mem_def.mp hp]
    exact congrArg some (valueAt_of_one_le r hpast)
  have hmem : ∀ v ∈ r.told ps, v = r.start ∨ ∃ p : Rat, v = r.valueAt p := by
    intro v hv
    rw [told_eq hnew] at hv
    refine (List.mem_cons.mp ((List.destutter_sublist _ _).subset hv)).imp_right fun hv => ?_
    obtain ⟨p, -, rfl⟩ := List.mem_map.mp hv
    exact ⟨p, rfl⟩
  have hfirst : r.told ps = r.start :: ({ r with last := some r.start } : Ramp).updates ps := by
    rw [told, begin_eq hnew]
    rfl
  have hstrict : r.start ≤ r.goal → (r.told ps).Pairwise (· < ·) := fun hup => by
    rw [told_eq hnew]
    exact pairwise_destutter_ne (fun _ _ => lt_of_le_of_ne) (hrise hup)
  have hwithin : ∀ v ∈ r.told ps, (r.start ≤ r.goal → r.start ≤ v ∧ v ≤ r.goal) ∧
      (r.goal ≤ r.start → r.goal ≤ v ∧ v ≤ r.start) := by
    intro v hv
    rcases hmem v hv with rfl | ⟨p, rfl⟩
    · exact ⟨fun hup => ⟨Nat.le_refl _, hup⟩, fun hdown => ⟨hdown, Nat.le_refl _⟩⟩
    · exact valueAt_within r p
  refine ⟨?_, ?_, fun v hv => ?_, fun hup => hstrict hup.le, fun hdown => ?_, fun hstay => ?_⟩
  · rw [hfirst, List.head?_cons]
  · rw [told_eq hnew, List.destutter_cons', getLast?_destutter'_ne, hends]
  · have := hwithin v hv
    omega
  · rw [told_eq hnew]
    exact pairwise_destutter_ne (fun _ _ hge hne => lt_of_le_of_ne hge hne.symm) (hfall hdown.le)
  · -- Strictly rising values that do not rise are one.
    have hone := hstrict hstay.le
    rw [hfirst] at hone hwithin ⊢
    refine congrArg (r.start :: ·) (List.eq_nil_iff_forall_not_mem.mpr fun v hv => ?_)
    have hlt := (List.pairwise_cons.mp hone).1 v hv
    have hle := ((hwithin v (List.mem_cons_of_mem _ hv)).1 hstay.le).2
    omega

/-! ### Ramps that a scheduler calls -/

/-- Once it is begun, a ramp answers updates, and its end with nothing. -/
theorem answers_eq_updates {calls : List Call} (h : .start ∉ calls) (r : Ramp) :
    r.answers calls = r.updates (portions calls) := by
  induction calls generalizing r with
  | nil => rfl
  | cons c rest ih =>
    obtain ⟨hc, hrest⟩ := not_or.mp (mt List.mem_cons.mpr h)
    cases c with
    | start => exact absurd rfl hc
    | update elapsed duration =>
      have hparts : portions (.update elapsed duration :: rest) =
          Call.portion elapsed duration :: portions rest := rfl
      rw [hparts, updates]
      exact congrArg ((r.update (Call.portion elapsed duration : Rat)).2.toList ++ ·) (ih hrest _)
    | finish => exact ih hrest r

theorem answers_whole (r : Ramp) (n d : Nat) :
    r.answers ((Course.whole n d).map Prod.snd) = r.told (portions ((Course.whole n d).map Prod.snd)) := by
  obtain ⟨rest, hwhole, hrest⟩ : ∃ rest, (Course.whole n d).map Prod.snd = .start :: rest ∧ .start ∉ rest := by
    refine ⟨_, rfl, ?_⟩
    split <;> simp
  rw [hwhole]
  exact congrArg (r.begin.2.toList ++ ·) (answers_eq_updates hrest r.begin.1)

/-- A glide is told of each millisecond's part of its duration, or of the whole way at once. -/
theorem portions_whole (n d : Nat) :
    portions ((Course.whole n d).map Prod.snd) =
      if d = 0 then [1] else (List.range' 1 d).map fun e : Nat => (e : Rat) / d := by
  have hone : (Call.portion 0 0 : Rat) = 1 := by rw [Call.portion, if_pos rfl]; exact Nat.cast_one
  by_cases hd : d = 0
  · simp [Course.whole, portions, hd, hone]
  · have hpart : ∀ e : Nat, (Call.portion e d : Rat) = (e : Rat) / d := fun e => by
      rw [Call.portion, if_neg hd]
    simp [Course.whole, portions, hd, hpart, List.filterMap_append, List.filterMap_map, Function.comp_def]

theorem portions_spec (d : Nat) :
    let ps : List Rat := if d = 0 then [1] else (List.range' 1 d).map fun e : Nat => (e : Rat) / d
    ps.Pairwise (· ≤ ·) ∧ ps.getLast? = some 1 := by
  intro ps
  by_cases hd : d = 0
  · simp [ps, hd]
  · have hpos : (0 : Rat) < d := Nat.cast_pos.mpr (Nat.pos_of_ne_zero hd)
    simp only [ps, if_neg hd]
    constructor
    · refine List.pairwise_map.mpr (List.Pairwise.imp (fun {a b} hlt => ?_) List.pairwise_lt_range')
      exact div_le_div_of_nonneg_right (Nat.cast_le.mpr hlt.le) hpos.le
    · obtain ⟨e, rfl⟩ : ∃ e, d = e + 1 := ⟨d - 1, by omega⟩
      have hlast : (List.range' 1 (e + 1)).getLast? = some (e + 1) := by
        rw [List.range'_concat, List.getLast?_concat]
        exact congrArg some (by omega)
      rw [List.getLast?_map, hlast]
      exact congrArg some (div_self hpos.ne')

end Ramp

namespace Machine

open Record Course

variable {C E I : Type}

/-- A glide that nothing stopped has been called for its whole course when its last millisecond is done. -/
theorem callsOf_eq_whole (script : Script C E I) (time : Nat) (moves : List (Move C E I)) {k n d : Nat}
    (horder : (glideOrders ((startAt C E I time).run script moves).record)[k]? = some (n, d))
    (hspared : ¬ Halted k ((startAt C E I time).run script moves).record)
    (hdone : ((startAt C E I time).run script moves).HasCompleted (last n d)) :
    callsOf k ((startAt C E I time).run script moves).record = whole n d := by
  obtain ⟨reached, hcalls, hpast⟩ :=
    ((onCourse_run script time moves).follows k n d (Option.some_ne_none k).symm horder hspared).exists_upTo
  exact hcalls.trans (upTo_eq_whole (hpast _ hdone))

end Machine

namespace Ramp

open Record

/-- A ramp tells values that begin with its start and end with its goal, never beyond them, that go strictly up
or strictly down, or one value when the ends are the same: along all parts of the way that do not decrease and
come to the whole, and so in answer to the calls of a scheduler, whatever the duration. -/
theorem runs_from_end_to_end (start goal : Nat) :
    (∀ ps : List Rat, ps.Pairwise (· ≤ ·) → (∃ p ∈ ps.getLast?, 1 ≤ p) →
      Runs (min start maxData) (min goal maxData) ((between start goal).told ps)) ∧
    ∀ (C E I : Type) (script : Script C E I) (time : Nat) (moves : List (Move C E I)) (k n d : Nat),
      let m := (Machine.startAt C E I time).run script moves
      let calls := (callsOf k m.record).map Prod.snd
      (glideOrders m.record)[k]? = some (n, d) → ¬ Halted k m.record → m.HasCompleted (Course.last n d) →
        portions calls = (if d = 0 then [1] else (List.range' 1 d).map fun e : Nat => (e : Rat) / d) ∧
        (portions calls).Pairwise (· ≤ ·) ∧ (portions calls).getLast? = some 1 ∧
        (between start goal).answers calls = (between start goal).told (portions calls) ∧
        Runs (min start maxData) (min goal maxData) ((between start goal).answers calls) := by
  have hruns : ∀ ps : List Rat, ps.Pairwise (· ≤ ·) → (∃ p ∈ ps.getLast?, 1 ≤ p) →
      Runs (min start maxData) (min goal maxData) ((between start goal).told ps) := fun _ hsorted hwhole =>
    runs_told (r := between start goal) rfl hsorted hwhole
  refine ⟨hruns, ?_⟩
  intro C E I script time moves k n d m calls horder hspared hdone
  have hcalls : calls = (Course.whole n d).map Prod.snd := by
    rw [← Machine.callsOf_eq_whole script time moves horder hspared hdone]
  obtain ⟨hsorted, hlast⟩ := portions_spec d
  rw [hcalls, answers_whole, portions_whole]
  exact ⟨rfl, hsorted, hlast, rfl, hruns _ hsorted ⟨1, hlast, le_rfl⟩⟩

/-- A script that leaves glides to themselves. -/
def idle : Script Unit Unit Unit := ⟨fun _ => [], fun _ => [], fun work _ => (work, [])⟩

/-- A glide over two milliseconds and one over none, and three milliseconds from begin to end. -/
def threeMilliseconds : List (Move Unit Unit Unit) :=
  [.call (.glide () 2), .call (.glide () 0)] ++ List.replicate 11 .step

/-- A ramp down along uneven parts of the way, and the same ramp as the scheduler calls it. -/
theorem falling_ramp_runs :
    let m := (Machine.startAt Unit Unit Unit 0).run idle threeMilliseconds
    (between 200 124).told [-1, 1 / 2, 1 / 2, 3 / 4, 1, 2] = [127, 126, 125, 124] ∧
      Runs 127 124 ((between 200 124).told [-1, 1 / 2, 1 / 2, 3 / 4, 1, 2]) ∧
      (glideOrders m.record)[0]? = some (0, 2) ∧ (glideOrders m.record)[1]? = some (0, 0) ∧
      (∀ k, ¬ Halted k m.record) ∧ m.HasCompleted 3 ∧
      portions ((callsOf 0 m.record).map Prod.snd) = [1 / 2, 1] ∧
      Runs 127 124 ((between 200 124).answers ((callsOf 0 m.record).map Prod.snd)) ∧
      portions ((callsOf 1 m.record).map Prod.snd) = [1] ∧
      Runs 127 124 ((between 200 124).answers ((callsOf 1 m.record).map Prod.snd)) := by
  intro m
  have hspared : ∀ k, ¬ Halted k m.record := fun k => not_halted (by decide)
  obtain ⟨htold, hcalled⟩ := runs_from_end_to_end 200 124
  have hruns := htold [-1, 1 / 2, 1 / 2, 3 / 4, 1, 2] (by decide +kernel) ⟨2, rfl, by decide +kernel⟩
  obtain ⟨hparts, -, -, -, hlong⟩ :=
    hcalled Unit Unit Unit idle 0 threeMilliseconds 0 0 2 rfl (hspared 0) (.inr ⟨rfl, rfl⟩)
  obtain ⟨hpart, -, -, -, hshort⟩ :=
    hcalled Unit Unit Unit idle 0 threeMilliseconds 1 0 0 rfl (hspared 1) (.inl (by decide))
  refine ⟨by decide +kernel, hruns, rfl, rfl, hspared, .inr ⟨rfl, rfl⟩, hparts.trans (by decide +kernel), hlong,
    hpart, hshort⟩

end Ramp

end ScoreText
