import Mathlib.Data.List.Basic
import ScoreText.Agenda

/-!
An agenda as the list of its items: filing puts an item behind all of its time and before all later
ones, and the items of the earliest time stand in front.
-/

set_option autoImplicit false

namespace ScoreText

namespace Agenda

variable {α : Type}

def Ascending (a : Agenda α) : Prop := a.buckets.Pairwise fun b c => b.1 < c.1

/-- The items of buckets, with their times. -/
def spread (buckets : List (Nat × List α)) : List (Nat × α) :=
  buckets.flatMap fun (t, items) => items.map fun x => (t, x)

theorem toList_eq_spread (a : Agenda α) : a.toList = spread a.buckets := rfl

@[simp] theorem spread_nil : spread ([] : List (Nat × List α)) = [] := rfl

@[simp] theorem spread_cons (t : Nat) (items : List α) (rest : List (Nat × List α)) :
    spread ((t, items) :: rest) = items.map (fun x => (t, x)) ++ spread rest := by
  simp [spread]

theorem mem_spread {buckets : List (Nat × List α)} {y : Nat × α} (h : y ∈ spread buckets) :
    ∃ b ∈ buckets, b.1 = y.1 := by
  simp only [spread, List.mem_flatMap, List.mem_map] at h
  obtain ⟨b, hb, x, -, rfl⟩ := h
  exact ⟨b, hb, rfl⟩

theorem ascending_empty : (Agenda.empty : Agenda α).Ascending := List.Pairwise.nil

theorem mem_addTo {time : Nat} {item : α} {buckets : List (Nat × List α)} {b : Nat × List α}
    (h : b ∈ addTo time item buckets) : b.1 = time ∨ ∃ c ∈ buckets, c.1 = b.1 := by
  induction buckets with
  | nil => simp_all [addTo]
  | cons c rest ih =>
    obtain ⟨t, items⟩ := c
    simp only [addTo] at h
    split at h
    · rcases List.mem_cons.mp h with rfl | h
      · exact Or.inl rfl
      · exact Or.inr ⟨b, h, rfl⟩
    · split at h
      · rcases List.mem_cons.mp h with rfl | h
        · exact Or.inl (by simp_all)
        · exact Or.inr ⟨b, by simp [h], rfl⟩
      · rcases List.mem_cons.mp h with rfl | h
        · exact Or.inr ⟨(t, items), by simp, rfl⟩
        · rcases ih h with h | ⟨c, hc, h⟩
          · exact Or.inl h
          · exact Or.inr ⟨c, by simp [hc], h⟩

theorem Ascending.add {a : Agenda α} (h : a.Ascending) (time : Nat) (item : α) :
    (a.add time item).Ascending := by
  obtain ⟨buckets⟩ := a
  simp only [Ascending, Agenda.add] at h ⊢
  induction buckets with
  | nil => simp [addTo]
  | cons b rest ih =>
    obtain ⟨t, items⟩ := b
    obtain ⟨hb, hr⟩ := List.pairwise_cons.mp h
    simp only [addTo]
    split
    · refine List.pairwise_cons.mpr ⟨?_, h⟩
      intro c hc
      rcases List.mem_cons.mp hc with rfl | hc
      · assumption
      · have := hb c hc
        simp only at this ⊢
        omega
    · split
      · exact List.pairwise_cons.mpr ⟨hb, hr⟩
      · refine List.pairwise_cons.mpr ⟨?_, ih hr⟩
        intro c hc
        rcases mem_addTo hc with he | ⟨d, hd, he⟩
        · simp only [he]
          omega
        · have := hb d hd
          simp only at this ⊢
          omega

theorem Ascending.clearAt {a : Agenda α} (h : a.Ascending) (time : Nat) :
    (a.clearAt time).Ascending := h.filter _

theorem ne_of_mem_clearAt {a : Agenda α} {time : Nat} {y : Nat × α}
    (h : y ∈ (a.clearAt time).toList) : y.1 ≠ time := by
  obtain ⟨b, hb, hy⟩ := mem_spread h
  rw [← hy]
  simpa using (List.mem_filter.mp hb).2

theorem Ascending.remove {a : Agenda α} (h : a.Ascending) (gone : α → Bool) :
    (a.remove gone).Ascending := by
  refine List.Pairwise.filter _ (List.pairwise_map.mpr ?_)
  exact h.imp fun h => h

theorem filter_of_later {entries : List (Nat × α)} {time : Nat} (h : ∀ y ∈ entries, time < y.1) :
    entries.filter (·.1 ≤ time) = [] ∧ entries.filter (time < ·.1) = entries := by
  simp only [List.filter_eq_nil_iff, List.filter_eq_self, decide_eq_true_eq, Nat.not_le]
  exact ⟨h, h⟩

/-- A new item stands behind those of its time and before, and in front of the later ones. -/
theorem toList_add {a : Agenda α} (h : a.Ascending) (time : Nat) (item : α) :
    (a.add time item).toList =
      a.toList.filter (·.1 ≤ time) ++ (time, item) :: a.toList.filter (time < ·.1) := by
  obtain ⟨buckets⟩ := a
  simp only [toList_eq_spread, Agenda.add, Ascending] at h ⊢
  induction buckets with
  | nil => simp [addTo, spread]
  | cons b rest ih =>
    obtain ⟨t, items⟩ := b
    obtain ⟨hb, hr⟩ := List.pairwise_cons.mp h
    have later : ∀ y ∈ spread rest, t < y.1 := by
      intro y hy
      obtain ⟨c, hc, he⟩ := mem_spread hy
      exact he ▸ hb c hc
    have front (p : Nat × α → Bool) (v : Bool) (hp : ∀ x, p (t, x) = v) :
        (items.map fun x => (t, x)).filter p = if v then items.map fun x => (t, x) else [] := by
      cases v <;> simp [List.filter_eq_nil_iff, List.filter_eq_self, hp]
    simp only [addTo]
    split
    · obtain ⟨hnone, hall⟩ := filter_of_later fun y hy => Nat.lt_trans ‹time < t› (later y hy)
      rw [spread_cons, spread_cons, List.filter_append, List.filter_append, hnone, hall,
        front _ false (by simp; omega), front _ true (by simp; omega)]
      simp
    · split
      · obtain rfl : time = t := ‹_›
        obtain ⟨hnone, hall⟩ := filter_of_later later
        rw [spread_cons, spread_cons, List.filter_append, List.filter_append, hnone, hall,
          front _ true (by simp), front _ false (by simp)]
        simp
      · rw [spread_cons, spread_cons, ih hr, List.filter_append, List.filter_append,
          front _ true (by simp; omega), front _ false (by simp; omega)]
        simp

theorem perm_toList_add {a : Agenda α} (h : a.Ascending) (time : Nat) (item : α) :
    (a.add time item).toList.Perm ((time, item) :: a.toList) := by
  rw [toList_add h]
  refine List.perm_middle.trans (List.Perm.cons _ ?_)
  have hn : (fun y : Nat × α => decide (time < y.1)) = fun y => !decide (y.1 ≤ time) := by
    funext y
    by_cases hy : y.1 ≤ time
    · simp [hy]
    · simp [hy, Nat.lt_of_not_le hy]
  rw [hn]
  exact List.filter_append_perm _ _

theorem toList_remove (a : Agenda α) (gone : α → Bool) :
    (a.remove gone).toList = a.toList.filter fun y => !gone y.2 := by
  obtain ⟨buckets⟩ := a
  simp only [toList_eq_spread, Agenda.remove]
  induction buckets with
  | nil => rfl
  | cons b rest ih =>
    obtain ⟨t, items⟩ := b
    have hfront : (items.map fun x => (t, x)).filter (fun y => !gone y.2) =
        (items.filter fun x => !gone x).map fun x => (t, x) := by
      simp [List.filter_map, Function.comp_def]
    simp only [List.map_cons, List.filter_cons, spread_cons, List.filter_append, hfront]
    split
    · rw [spread_cons, ih]
    · rename_i hempty
      simp only [Bool.not_eq_true', Bool.not_eq_false, List.isEmpty_iff] at hempty
      rw [ih, hempty]
      rfl

theorem any_eq (a : Agenda α) (p : α → Bool) : a.any p = a.toList.any fun y => p y.2 := by
  obtain ⟨buckets⟩ := a
  simp only [toList_eq_spread, Agenda.any]
  induction buckets with
  | nil => rfl
  | cons b rest ih =>
    obtain ⟨t, items⟩ := b
    simp only [List.any_cons, spread_cons, List.any_append, ih, List.any_map, Function.comp_def]

/-- Where nothing is earlier than a time, its items are in front. -/
theorem toList_eq_due_append {a : Agenda α} (h : a.Ascending) (time : Nat)
    (hearliest : ∀ y ∈ a.toList, time ≤ y.1) :
    a.toList = (a.itemsAt time).map (fun x => (time, x)) ++ (a.clearAt time).toList := by
  obtain ⟨buckets⟩ := a
  simp only [toList_eq_spread, Agenda.itemsAt, Agenda.clearAt, Ascending] at h hearliest ⊢
  induction buckets with
  | nil => rfl
  | cons b rest ih =>
    obtain ⟨t, items⟩ := b
    obtain ⟨hb, hr⟩ := List.pairwise_cons.mp h
    have keep (hle : time ≤ t) :
        rest.filter (fun b => !b.1 == time) = rest ∧ rest.lookup time = none := by
      refine ⟨List.filter_eq_self.mpr ?_, ?_⟩
      · intro c hc
        have := hb c hc
        simp
        omega
      · rw [List.lookup_eq_none_iff]
        intro c hc
        have := hb c hc
        simp
        omega
    by_cases ht : t = time
    · subst ht
      simp [(keep (Nat.le_refl _)).1]
    · have hne : (time == t) = false := by simpa using fun h => ht h.symm
      have hne' : (t == time) = false := by simpa using ht
      simp only [List.lookup_cons, hne, List.filter_cons, hne', Bool.not_false, if_true, spread_cons]
      by_cases hlt : time < t
      · simp [keep (Nat.le_of_lt hlt)]
      · have hnil : items = [] := by
          cases items with
          | nil => rfl
          | cons x xs =>
            have := hearliest (t, x) (by simp)
            simp only at this
            omega
        subst hnil
        simpa using ih hr (fun y hy => hearliest y (by simp [hy]))

end Agenda

end ScoreText
