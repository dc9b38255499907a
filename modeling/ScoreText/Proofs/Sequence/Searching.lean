import ScoreText.Proofs.Sequence.Insertion

/-!
Where an event goes may be found by a search that is right only about lists in which all that it is to
pass stands in front. Tracks are such lists at every moment, so that a search leads to the same sequence
as looking at one event after another, and to the stable sort of what is added.
-/

set_option autoImplicit false

namespace ScoreText

/-- A predicate holds of all that stands in front of a place in a list, and of nothing behind it. -/
structure TurnsAt {α : Type} (p : α → Bool) (l : List α) (place : Nat) : Prop where
  front : ∀ a ∈ l.take place, p a = true
  back : ∀ a ∈ l.drop place, p a = false
  le_length : place ≤ l.length

/-- A search for the place where a predicate turns, if there is one. Of other lists nothing is said. -/
def FindsTurns {α : Type} (search : (α → Bool) → List α → Nat) : Prop :=
  ∀ p l place, TurnsAt p l place → search p l = place

/-- Halves a stretch of a list, of `size` from `base` on, until one place of it is left. -/
def bisectFrom {α : Type} (p : α → Bool) (l : List α) (base size : Nat) : Nat :=
  if size ≤ 1 then if l[base]?.any p then base + 1 else base
  else
    let half := size / 2
    bisectFrom p l (if l[base + half]?.any p then base + half else base) (size - half)
termination_by size

/-- Binary search. -/
def bisect {α : Type} (p : α → Bool) (l : List α) : Nat := bisectFrom p l 0 l.length

section Bisection

variable {α : Type} {p : α → Bool} {l : List α} {place : Nat}

/-- What stands at an index passes just when that is in front of the place. -/
theorem TurnsAt.any_getElem? (h : TurnsAt p l place) (i : Nat) : l[i]?.any p = decide (i < place) := by
  by_cases hi : i < place
  · have hlength : i < l.length := Nat.lt_of_lt_of_le hi h.le_length
    have hmem : l[i] ∈ l.take place := List.mem_take_iff_getElem.mpr ⟨i, by omega, rfl⟩
    simp [List.getElem?_eq_getElem hlength, h.front _ hmem, hi]
  · rw [decide_eq_false hi]
    cases hget : l[i]? with
    | none => rfl
    | some a =>
      have hmem : a ∈ l.drop place := by
        refine List.mem_of_getElem? (i := i - place) ?_
        rw [List.getElem?_drop, Nat.add_sub_cancel' (Nat.le_of_not_lt hi), hget]
      simp [h.back a hmem]

/-- As long as the place is within the stretch, it stays so. -/
theorem TurnsAt.bisectFrom_eq (h : TurnsAt p l place) {base size : Nat} (hbase : base ≤ place)
    (hsize : place ≤ base + size) : bisectFrom p l base size = place := by
  fun_induction bisectFrom p l base size with
  | case1 base size hsmall hpass =>
    have := h.any_getElem? base
    simp only [hpass, true_eq_decide_iff] at this
    omega
  | case2 base size hsmall hstop =>
    have := h.any_getElem? base
    simp only [Bool.eq_false_iff.mpr hstop, false_eq_decide_iff] at this
    omega
  | case3 base size hlarge half ih =>
    have hmiddle := h.any_getElem? (base + half)
    simp only [dite_eq_ite] at ih
    refine ih ?_ ?_
    all_goals
      rw [hmiddle]
      simp only [decide_eq_true_eq]
      split <;> omega

theorem finds_bisect : FindsTurns (bisect (α := α)) := fun _ _ _ h =>
  h.bisectFrom_eq (Nat.zero_le _) (by simpa using h.le_length)

end Bisection

namespace Sequence

open Stable

variable (search : (TimedEvent → Bool) → List TimedEvent → Nat)

/-- Puts an event at the place that a search finds behind all at its tick or before. -/
def insertBy (e : TimedEvent) (l : List TimedEvent) : List TimedEvent :=
  l.insertIdx (search (fun f => f.tick ≤ e.tick) l) e

def addBy (s : Sequence) (track tick : Nat) (event : SequenceEvent) : Sequence :=
  let s := s.createTrack track
  { s with tracks := s.tracks.modify track (insertBy search ⟨tick, event⟩) }

def obeyBy (s : Sequence) : SinkCall → Sequence
  | .createTrack n => s.createTrack n
  | .addEvent track tick event => s.addBy search track tick event

def obeyAllBy (s : Sequence) (calls : List SinkCall) : Sequence := calls.foldl (obeyBy search) s

/-- On a sorted track there is such a place, and it is where looking at one event after another leads. -/
theorem exists_turn {l : List TimedEvent} (h : Sorted l) (e : TimedEvent) :
    ∃ place, TurnsAt (fun f => decide (f.tick ≤ e.tick)) l place ∧ insertEvent e l = l.insertIdx place e := by
  induction l with
  | nil => exact ⟨0, ⟨by simp, by simp, Nat.le_refl 0⟩, rfl⟩
  | cons g rest ih =>
    obtain ⟨hg, hrest⟩ := List.pairwise_cons.mp h
    rw [insertEvent]
    split
    · rename_i hpass
      obtain ⟨place, hturn, hinsert⟩ := ih hrest
      refine ⟨place + 1, ⟨?_, hturn.back, Nat.succ_le_succ hturn.le_length⟩, by rw [hinsert]; rfl⟩
      exact List.forall_mem_cons.mpr ⟨decide_eq_true hpass, hturn.front⟩
    · rename_i hstop
      refine ⟨0, ⟨by simp, fun f hf => ?_, Nat.zero_le _⟩, rfl⟩
      rcases List.mem_cons.mp hf with rfl | hf
      · exact decide_eq_false hstop
      · have := hg f hf
        exact decide_eq_false (by omega)

variable {search}

theorem insertBy_eq (hsearch : FindsTurns search) {l : List TimedEvent} (h : Sorted l) (e : TimedEvent) :
    insertBy search e l = insertEvent e l := by
  obtain ⟨place, hturn, hinsert⟩ := exists_turn h e
  rw [insertBy, hsearch _ l place hturn, hinsert]

/-- Every track is sorted. -/
def Orderly (s : Sequence) : Prop := ∀ n, Sorted (s.track n)

theorem Orderly.obey {s : Sequence} (h : s.Orderly) (call : SinkCall) : (s.obey call).Orderly := by
  intro n
  cases call with
  | createTrack k =>
    rw [Sequence.obey, track_createTrack]
    exact h n
  | addEvent k tick event =>
    rw [Sequence.obey, track_addEvent]
    split
    · exact (h n).insertEvent _
    · exact h n

/-- While all tracks are sorted, a search adds an event where it belongs. -/
theorem Orderly.obeyBy_eq {s : Sequence} (h : s.Orderly) (hsearch : FindsTurns search) (call : SinkCall) :
    s.obeyBy search call = s.obey call := by
  cases call with
  | createTrack k => rfl
  | addEvent k tick event =>
    have hsame : (s.createTrack k).tracks.modify k (insertBy search ⟨tick, event⟩) =
        (s.createTrack k).tracks.modify k (insertEvent ⟨tick, event⟩) := by
      refine List.ext_getElem? fun i => ?_
      rw [List.getElem?_modify, List.getElem?_modify]
      refine Option.map_congr fun l hl => ?_
      split
      · rename_i hki
        have hsorted := h i
        rw [← track_createTrack s k i, Sequence.track, hl] at hsorted
        exact insertBy_eq hsearch hsorted _
      · rfl
    simp only [obeyBy, Sequence.obey, addBy, addEvent, hsame]

theorem Orderly.obeyAllBy_eq {s : Sequence} (h : s.Orderly) (hsearch : FindsTurns search)
    (calls : List SinkCall) : s.obeyAllBy search calls = s.obeyAll calls := by
  simp only [obeyAllBy, obeyAll]
  induction calls generalizing s with
  | nil => rfl
  | cons call rest ih =>
    rw [List.foldl_cons, List.foldl_cons, h.obeyBy_eq hsearch]
    exact ih (h.obey call)

theorem orderly_ofResolution (resolution : Nat) : (ofResolution resolution).Orderly := fun n => by
  rw [track_ofResolution]
  exact List.Pairwise.nil

/-- With any search that is right about partitioned lists, a sequence is what it is without one, and every
track is the stable sort by tick of the events added to it: sorted, with the events of each tick in the
order in which they were added, and with none lost or duplicated. One more event changes its own track
only. -/
theorem tracks_sorted_stably (hsearch : FindsTurns search) (resolution : Nat) (calls : List SinkCall)
    (track : Nat) :
    let s := (ofResolution resolution).obeyAllBy search calls
    s = (ofResolution resolution).obeyAll calls ∧
      s.track track = (added track calls).mergeSort (leBy TimedEvent.tick) ∧
      Sorted (s.track track) ∧
      (∀ tick, (s.track track).filter (fun e => e.tick == tick) =
        (added track calls).filter fun e => e.tick == tick) ∧
      (s.track track).Perm (added track calls) ∧
      ∀ n tick event, (s.addBy search n tick event).track track =
        if n = track then (added track calls ++ [(⟨tick, event⟩ : TimedEvent)]).mergeSort (leBy TimedEvent.tick)
        else s.track track := by
  intro s
  have hs : s = (ofResolution resolution).obeyAll calls :=
    (orderly_ofResolution resolution).obeyAllBy_eq hsearch calls
  have hsorted : ∀ n, s.track n = (added n calls).mergeSort (leBy TimedEvent.tick) := by
    intro n
    rw [hs, track_built, ofAdded_eq_mergeSort]
  have horderly : s.Orderly := fun n => by
    rw [hsorted]
    exact sortedBy_mergeSort _ _
  refine ⟨hs, hsorted track, horderly track, fun tick => ?_, ?_, fun n tick event => ?_⟩
  · rw [hsorted, class_mergeSort]
  · rw [hsorted]
    exact List.mergeSort_perm _ _
  · have hadd : s.addBy search n tick event = s.addEvent n tick event :=
      horderly.obeyBy_eq hsearch (.addEvent n tick event)
    rw [hadd, track_addEvent]
    split
    · rw [hsorted, ← ofAdded_eq_mergeSort, ← ofAdded_append_singleton, ofAdded_eq_mergeSort]
    · rfl

/-- Two events at a late tick, one at an early one on the same track, and one on another. -/
def lateThenEarly : List SinkCall :=
  [.addEvent 0 8 (.noteOn 0 62 64), .addEvent 0 8 (.noteOff 0 60 64), .addEvent 1 4 (.program 1 5),
    .addEvent 0 0 (.noteOn 0 60 64)]

/-- Binary search puts the last event first and keeps the order of the other two. -/
theorem lateThenEarly_sorted_stably :
    FindsTurns (bisect (α := TimedEvent)) ∧
      ((ofResolution 128).obeyAllBy bisect lateThenEarly).track 0 =
        [⟨0, .noteOn 0 60 64⟩, ⟨8, .noteOn 0 62 64⟩, ⟨8, .noteOff 0 60 64⟩] := by
  refine ⟨finds_bisect, ?_⟩
  obtain ⟨-, hsorted, -⟩ := tracks_sorted_stably finds_bisect 128 lateThenEarly 0
  rw [hsorted, ← ofAdded_eq_mergeSort]
  rfl

end Sequence

end ScoreText
