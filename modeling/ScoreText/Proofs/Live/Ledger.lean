import Mathlib.Data.List.Nodup
import Mathlib.Data.List.Range
import ScoreText.Live.Scheduler
import ScoreText.Proofs.Live.Agenda

/-!
The books of one kind of scheduled work. What ran, what the millisecond in progress still holds and
what waits make up one schedule, in the order of milliseconds and then of acceptance; every piece
ever accepted stands in it once unless it was taken back.
-/

set_option autoImplicit false

namespace ScoreText

/-- Entries of a schedule are a millisecond, a number in the order of acceptance, and the work. -/
structure Ledger (W : Type) where
  now : Nat
  /-- The millisecond and the work of every piece accepted, by number. -/
  orders : List (Nat × W)
  /-- The numbers of pieces that were taken back. -/
  gone : List Nat
  ran : List (Nat × Nat × W)
  /-- What the millisecond in progress still holds. -/
  left : List (Nat × W)
  queue : Queue W

namespace Ledger

variable {W : Type}

def Before (a b : Nat × Nat × W) : Prop := a.1 < b.1 ∨ a.1 = b.1 ∧ a.2.1 < b.2.1

def schedule (l : Ledger W) : List (Nat × Nat × W) :=
  l.ran ++ l.left.map (fun p => (l.now, p)) ++ l.queue.agenda.toList

def numbers (entries : List (Nat × Nat × W)) : List Nat := entries.map fun e => e.2.1

/-- The runs of a number. -/
def runs (entries : List (Nat × Nat × W)) (number : Nat) : List (Nat × Nat × W) :=
  entries.filter fun e => e.2.1 == number

structure Balanced (l : Ledger W) : Prop where
  ascending : l.queue.agenda.Ascending
  times : l.queue.times = l.orders.map Prod.fst
  sorted : l.schedule.Pairwise Before
  agrees : ∀ e ∈ l.schedule, l.orders[e.2.1]? = some (e.1, e.2.2)
  complete : (numbers l.schedule ++ l.gone).Perm (List.range l.orders.length)
  past : ∀ e ∈ l.ran, e.1 ≤ l.now
  future : ∀ e ∈ l.queue.agenda.toList, l.now < e.1

theorem balanced_start (now : Nat) : (⟨now, [], [], [], [], {}⟩ : Ledger W).Balanced where
  ascending := Agenda.ascending_empty
  times := rfl
  sorted := List.Pairwise.nil
  agrees := by simp [schedule, Agenda.toList]
  complete := List.Perm.refl _
  past := by simp
  future := by simp [Agenda.toList]

theorem Balanced.mem_lt {l : Ledger W} (h : l.Balanced) {e : Nat × Nat × W} (he : e ∈ l.schedule) :
    e.2.1 < l.orders.length :=
  (List.getElem?_eq_some_iff.mp (h.agrees e he)).1

def accept (l : Ledger W) (time : Nat) (work : W) : Ledger W :=
  { l with orders := l.orders ++ [(time, work)], queue := l.queue.add time work }

theorem Balanced.toList_accept {l : Ledger W} (h : l.Balanced) (time : Nat) (work : W) :
    (l.accept time work).queue.agenda.toList =
      l.queue.agenda.toList.filter (·.1 ≤ time) ++
        (time, l.orders.length, work) :: l.queue.agenda.toList.filter (time < ·.1) := by
  have hnumber : l.queue.times.length = l.orders.length := by simp [h.times]
  simp only [Ledger.accept, Queue.add, hnumber]
  exact Agenda.toList_add h.ascending time _

theorem Balanced.perm_accept {l : Ledger W} (h : l.Balanced) (time : Nat) (work : W) :
    (l.accept time work).schedule.Perm ((time, l.orders.length, work) :: l.schedule) := by
  have hnumber : l.queue.times.length = l.orders.length := by simp [h.times]
  have hqueue : (l.accept time work).queue.agenda.toList.Perm
      ((time, l.orders.length, work) :: l.queue.agenda.toList) := by
    simp only [Ledger.accept, Queue.add, hnumber]
    exact Agenda.perm_toList_add h.ascending time _
  exact (List.Perm.append_left _ hqueue).trans List.perm_middle

/-- What ran and what is left is for a millisecond that has begun. -/
theorem Balanced.le_now {l : Ledger W} (h : l.Balanced) {e : Nat × Nat × W}
    (he : e ∈ l.ran ++ l.left.map fun p => (l.now, p)) : e.1 ≤ l.now := by
  rcases List.mem_append.mp he with he | he
  · exact h.past e he
  · obtain ⟨p, -, rfl⟩ := List.mem_map.mp he
    exact Nat.le_refl _

/-- The highest number goes behind all that is for its millisecond or an earlier one. -/
theorem Balanced.sorted_accept {l : Ledger W} (h : l.Balanced) {time : Nat} (work : W)
    (hlater : l.now < time) : (l.accept time work).schedule.Pairwise Before := by
  have hs := h.sorted
  simp only [schedule, h.toList_accept, List.pairwise_append, List.pairwise_cons] at hs ⊢
  obtain ⟨hfront, hback, hcross⟩ := hs
  refine ⟨hfront, ⟨hback.filter _, ⟨?_, hback.filter _⟩, ?_⟩, ?_⟩
  · intro b hb
    exact Or.inl (by simpa using (List.mem_filter.mp hb).2)
  · intro a ha b hb
    obtain ⟨ha, hat⟩ := List.mem_filter.mp ha
    have hle : a.1 ≤ time := by simpa using hat
    rcases List.mem_cons.mp hb with rfl | hb
    · -- earlier entries have lower numbers
      rcases Nat.lt_or_eq_of_le hle with hlt | heq
      · exact Or.inl hlt
      · exact Or.inr ⟨heq, h.mem_lt (List.mem_append_right _ ha)⟩
    · have hlt : time < b.1 := by simpa using (List.mem_filter.mp hb).2
      exact Or.inl (Nat.lt_of_le_of_lt hle hlt)
  · intro a ha b hb
    rcases List.mem_append.mp hb with hb | hb
    · exact hcross a ha b (List.mem_filter.mp hb).1
    · rcases List.mem_cons.mp hb with rfl | hb
      · exact Or.inl (Nat.lt_of_le_of_lt (h.le_now ha) hlater)
      · exact hcross a ha b (List.mem_filter.mp hb).1

theorem Balanced.accept {l : Ledger W} (h : l.Balanced) {time : Nat} (work : W)
    (hlater : l.now < time) : (l.accept time work).Balanced := by
  have hperm := h.perm_accept time work
  have horders : (l.accept time work).orders = l.orders ++ [(time, work)] := rfl
  refine ⟨h.ascending.add _ _, ?_, h.sorted_accept work hlater, ?_, ?_, h.past, ?_⟩
  · simp [Ledger.accept, Queue.add, h.times]
  · intro e he
    rw [horders]
    rcases List.mem_cons.mp (hperm.mem_iff.mp he) with rfl | he
    · simp
    · rw [List.getElem?_append_left (h.mem_lt he)]
      exact h.agrees e he
  · have hn : (numbers (l.accept time work).schedule).Perm (l.orders.length :: numbers l.schedule) :=
      hperm.map fun e : Nat × Nat × W => e.2.1
    have hc : (l.orders.length :: numbers l.schedule ++ l.gone).Perm
        (l.orders.length :: List.range l.orders.length) := List.Perm.cons _ h.complete
    rw [horders, List.length_append, List.length_singleton, List.range_succ]
    exact ((hn.append_right _).trans hc).trans (List.perm_append_singleton _ _).symm
  · intro e he
    rw [h.toList_accept] at he
    rcases List.mem_append.mp he with he | he
    · exact h.future e (List.mem_filter.mp he).1
    · rcases List.mem_cons.mp he with rfl | he
      · exact hlater
      · exact h.future e (List.mem_filter.mp he).1

/-- The next millisecond begins when nothing is left of the last. -/
def begin (l : Ledger W) : Ledger W :=
  { l with
    now := l.now + 1
    left := l.queue.dueAt (l.now + 1)
    queue := l.queue.passed (l.now + 1) }

theorem Balanced.begin {l : Ledger W} (h : l.Balanced) (hleft : l.left = []) :
    l.begin.Balanced := by
  have hdue := Agenda.toList_eq_due_append h.ascending (l.now + 1) h.future
  have hsame : l.begin.schedule = l.schedule := by
    simp only [schedule, Ledger.begin, hleft, List.map_nil, List.append_nil, Queue.dueAt,
      Queue.passed]
    rw [List.append_assoc, ← hdue]
  refine ⟨h.ascending.clearAt _, h.times, hsame ▸ h.sorted, hsame ▸ h.agrees, hsame ▸ h.complete,
    fun e he => Nat.le_succ_of_le (h.past e he), ?_⟩
  intro e he
  have hge : l.now + 1 ≤ e.1 := h.future e (by
    rw [hdue]
    exact List.mem_append_right _ he)
  exact Nat.lt_of_le_of_ne hge (Agenda.ne_of_mem_clearAt he).symm

/-- The first piece that is left has run. -/
def run (l : Ledger W) (number : Nat) (work : W) (rest : List (Nat × W)) : Ledger W :=
  { l with ran := l.ran ++ [(l.now, number, work)], left := rest }

theorem Balanced.run {l : Ledger W} (h : l.Balanced) {number : Nat} {work : W}
    {rest : List (Nat × W)} (hleft : l.left = (number, work) :: rest) :
    (l.run number work rest).Balanced := by
  have hsame : (l.run number work rest).schedule = l.schedule := by
    simp [schedule, Ledger.run, hleft]
  refine ⟨h.ascending, h.times, hsame ▸ h.sorted, hsame ▸ h.agrees, hsame ▸ h.complete, ?_,
    h.future⟩
  intro e he
  rcases List.mem_append.mp he with he | he
  · exact h.past e he
  · simp_all [Ledger.run]

/-- What runs next comes after all that ran. -/
theorem Balanced.before_left {l : Ledger W} (h : l.Balanced) {number : Nat} {work : W}
    {rest : List (Nat × W)} (hleft : l.left = (number, work) :: rest) {e : Nat × Nat × W}
    (he : e ∈ l.ran) : Before e (l.now, number, work) := by
  have hs := h.sorted
  simp only [schedule, List.append_assoc, List.pairwise_append] at hs
  exact hs.2.2 e he _ (by simp [hleft])

/-- Taking back a piece does something only while it waits. -/
def withdraw (l : Ledger W) (number : Nat) : Ledger W :=
  { l with
    gone := if l.queue.isWaiting number then l.gone ++ [number] else l.gone
    queue := l.queue.without number }

theorem Balanced.nodup {l : Ledger W} (h : l.Balanced) : (numbers l.schedule ++ l.gone).Nodup :=
  h.complete.nodup_iff.mpr List.nodup_range

theorem isWaiting_iff (q : Queue W) (number : Nat) :
    q.isWaiting number = true ↔ number ∈ numbers q.agenda.toList := by
  simp [Queue.isWaiting, Agenda.any_eq, numbers]

theorem numbers_append (a b : List (Nat × Nat × W)) : numbers (a ++ b) = numbers a ++ numbers b :=
  List.map_append

theorem perm_numbers_filter {entries : List (Nat × Nat × W)} {number : Nat}
    (hmem : number ∈ numbers entries) (hnodup : (numbers entries).Nodup) :
    (numbers entries).Perm (number :: numbers (entries.filter fun e => !e.2.1 == number)) := by
  have hf : numbers (entries.filter fun e => !e.2.1 == number) =
      (numbers entries).filter fun k => !k == number := by
    simp [numbers, List.filter_map, Function.comp_def]
  have he : (numbers entries).erase number = (numbers entries).filter fun k => !k == number := by
    rw [hnodup.erase_eq_filter]
    rfl
  rw [hf, ← he]
  exact List.perm_cons_erase hmem

theorem Balanced.withdraw {l : Ledger W} (h : l.Balanced) (number : Nat) :
    (l.withdraw number).Balanced := by
  have hlist : (l.queue.without number).agenda.toList =
      l.queue.agenda.toList.filter fun e => !e.2.1 == number :=
    Agenda.toList_remove _ _
  have hsub : (l.withdraw number).schedule.Sublist l.schedule := by
    simp only [schedule, Ledger.withdraw, hlist]
    exact List.Sublist.append_left List.filter_sublist _
  refine ⟨h.ascending.remove _, h.times, h.sorted.sublist hsub,
    fun e he => h.agrees e (hsub.subset he), ?_, h.past, ?_⟩
  · have hnodup := h.nodup
    simp only [schedule, numbers_append] at hnodup
    refine List.Perm.trans ?_ h.complete
    simp only [schedule, numbers_append, Ledger.withdraw, hlist]
    by_cases hw : l.queue.isWaiting number = true
    · have hwaiting : (numbers l.queue.agenda.toList).Nodup :=
        (List.nodup_append.mp (List.nodup_append.mp hnodup).1).2.1
      have hp := perm_numbers_filter ((isWaiting_iff _ _).mp hw) hwaiting
      rw [if_pos hw]
      refine List.Perm.trans ?_ ((hp.symm.append_left _).append_right _)
      rw [← List.append_assoc]
      refine (List.perm_append_singleton _ _).trans ?_
      rw [List.append_assoc _ (number :: _), List.cons_append, List.append_assoc _ (numbers _) l.gone]
      exact List.perm_middle.symm
    · have hnone : (l.queue.agenda.toList.filter fun e => !e.2.1 == number) =
          l.queue.agenda.toList := by
        rw [List.filter_eq_self]
        intro e he
        by_contra hne
        exact hw ((isWaiting_iff _ _).mpr (List.mem_map.mpr ⟨e, he, by simpa using hne⟩))
      rw [hnone, if_neg hw]
  · intro e he
    simp only [Ledger.withdraw, hlist] at he
    exact h.future e (List.mem_filter.mp he).1

theorem Balanced.nodup_ran {l : Ledger W} (h : l.Balanced) : (numbers l.ran).Nodup := by
  have := h.nodup
  simp only [schedule, numbers_append] at this
  exact (List.nodup_append.mp (List.nodup_append.mp (List.nodup_append.mp this).1).1).1

/-- A number names one piece, so it runs once at most, at its millisecond. -/
theorem Balanced.runs_cases {l : Ledger W} (h : l.Balanced) {number time : Nat} {work : W}
    (horder : l.orders[number]? = some (time, work)) :
    runs l.ran number = [] ∨ runs l.ran number = [(time, number, work)] := by
  have hone : (numbers (runs l.ran number)).Nodup :=
    h.nodup_ran.sublist (List.filter_sublist.map fun e : Nat × Nat × W => e.2.1)
  have hall : ∀ e ∈ runs l.ran number, e = (time, number, work) := by
    intro e he
    obtain ⟨hmem, hnum⟩ := List.mem_filter.mp he
    have hk : e.2.1 = number := by simpa using hnum
    have ha := h.agrees e (by simp [schedule, hmem])
    rw [hk, horder] at ha
    obtain ⟨t, k, w⟩ := e
    simp_all
  match hr : runs l.ran number with
  | [] => exact Or.inl rfl
  | [a] => exact Or.inr (by rw [hall a (by simp [hr])])
  | a :: b :: rest =>
    have ha := hall a (by simp [hr])
    have hb := hall b (by simp [hr])
    simp [hr, numbers, ha, hb] at hone

theorem Balanced.not_ran_of_gone {l : Ledger W} (h : l.Balanced) {number : Nat}
    (hgone : number ∈ l.gone) : runs l.ran number = [] := by
  rw [runs, List.filter_eq_nil_iff]
  intro e he heq
  have hk : e.2.1 = number := by simpa using heq
  have hd := (List.nodup_append.mp h.nodup).2.2
  exact hd number (List.mem_map.mpr ⟨e, by simp [schedule, he], hk⟩) number hgone rfl

/-- Once its millisecond is over, or nothing is left of it, a piece has run or was taken back. -/
theorem Balanced.ran_of_completed {l : Ledger W} (h : l.Balanced) {number time : Nat} {work : W}
    (horder : l.orders[number]? = some (time, work)) (hkept : number ∉ l.gone)
    (hdone : time < l.now ∨ time = l.now ∧ l.left = []) :
    runs l.ran number = [(time, number, work)] := by
  refine (h.runs_cases horder).resolve_left fun hnone => ?_
  have hlt := (List.getElem?_eq_some_iff.mp horder).1
  have hmem : number ∈ numbers l.schedule := by
    have := h.complete.mem_iff.mpr (List.mem_range.mpr hlt)
    exact (List.mem_append.mp this).resolve_right hkept
  obtain ⟨e, he, hk⟩ := List.mem_map.mp hmem
  have htime : e.1 = time := by
    have ha := h.agrees e he
    rw [hk, horder] at ha
    simp_all
  simp only [schedule, List.mem_append] at he
  rcases he with (he | he) | he
  · have : e ∈ runs l.ran number := List.mem_filter.mpr ⟨he, by simpa using hk⟩
    simp [hnone] at this
  · obtain ⟨p, hp, rfl⟩ := List.mem_map.mp he
    rcases hdone with hdone | ⟨-, hleft⟩
    · simp only at htime
      omega
    · simp [hleft] at hp
  · have := h.future e he
    omega

end Ledger

end ScoreText
