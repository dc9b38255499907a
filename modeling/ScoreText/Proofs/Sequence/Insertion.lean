import Mathlib.Data.List.Induction
import Mathlib.Data.List.Basic
import ScoreText.Sequence.Sequencer

/-!
A track is the stable sort, by tick, of the events added to it. A sorted list is known from the
order within each of its classes, which is how stable sorts are compared here.
-/

set_option autoImplicit false

namespace ScoreText

namespace Stable

variable {α : Type}

/-- The order of a key. -/
def leBy (key : α → Nat) (a b : α) : Bool := key a ≤ key b

theorem leBy_trans (key : α → Nat) (a b c : α) (h : leBy key a b) (k : leBy key b c) :
    leBy key a c := by
  simp only [leBy, decide_eq_true_eq] at *
  omega

theorem leBy_total (key : α → Nat) (a b : α) : leBy key a b || leBy key b a := by
  simp only [leBy, Bool.or_eq_true, decide_eq_true_eq]
  omega

def SortedBy (key : α → Nat) (l : List α) : Prop := l.Pairwise fun a b => key a ≤ key b

theorem sortedBy_of_map {β : Type} (key : β → Nat) (f : α → β) {l : List α}
    (h : SortedBy key (l.map f)) : SortedBy (fun a => key (f a)) l := by
  unfold SortedBy at h
  rwa [List.pairwise_map] at h

theorem sortedBy_mergeSort (key : α → Nat) (l : List α) : SortedBy key (l.mergeSort (leBy key)) := by
  have := List.pairwise_mergeSort (leBy_trans key) (leBy_total key) l
  exact this.imp fun h => by simpa [leBy] using h

theorem mergeSort_of_sortedBy {key : α → Nat} {l : List α} (h : SortedBy key l) :
    l.mergeSort (leBy key) = l :=
  List.mergeSort_of_pairwise (h.imp fun h => by simpa [leBy] using h)

/-- Sorting does not touch what is in order already. -/
theorem filter_mergeSort {key : α → Nat} {p : α → Bool} {l : List α}
    (h : SortedBy key (l.filter p)) : (l.mergeSort (leBy key)).filter p = l.filter p := by
  have hsub : (l.filter p).Sublist (l.mergeSort (leBy key)) :=
    List.sublist_mergeSort (leBy_trans key) (leBy_total key)
      (h.imp fun h => by simpa [leBy] using h) List.filter_sublist
  have hboth := hsub.filter p
  rw [List.filter_filter] at hboth
  simp only [Bool.and_self] at hboth
  exact (hboth.eq_of_length
    ((List.mergeSort_perm l (leBy key)).filter p).length_eq.symm).symm

theorem sortedBy_class (key : α → Nat) (v : Nat) (l : List α) :
    SortedBy key (l.filter fun a => key a == v) := by
  refine List.pairwise_of_forall_mem_list fun a ha b hb => ?_
  have ha := (List.mem_filter.mp ha).2
  have hb := (List.mem_filter.mp hb).2
  simp only [beq_iff_eq] at ha hb
  omega

theorem class_mergeSort (key : α → Nat) (v : Nat) (l : List α) :
    (l.mergeSort (leBy key)).filter (fun a => key a == v) = l.filter fun a => key a == v :=
  filter_mergeSort (sortedBy_class key v l)

/-- Sorted lists with the same classes are the same. -/
theorem eq_of_classes {key : α → Nat} {l₁ l₂ : List α} (h₁ : SortedBy key l₁)
    (h₂ : SortedBy key l₂)
    (h : ∀ v, l₁.filter (fun a => key a == v) = l₂.filter fun a => key a == v) : l₁ = l₂ := by
  induction l₁ generalizing l₂ with
  | nil =>
    cases l₂ with
    | nil => rfl
    | cons b s => simpa using h (key b)
  | cons a r ih =>
    cases l₂ with
    | nil => simpa using h (key a)
    | cons b s =>
      obtain ⟨ha, hr⟩ := List.pairwise_cons.mp h₁
      obtain ⟨hb, hs⟩ := List.pairwise_cons.mp h₂
      have hba : key b ≤ key a := by
        have : a ∈ (b :: s).filter fun x => key x == key a := by
          rw [← h (key a)]
          simp
        rcases List.mem_cons.mp (List.mem_filter.mp this).1 with rfl | hm
        · exact Nat.le_refl _
        · exact hb a hm
      have hab : key a ≤ key b := by
        have : b ∈ (a :: r).filter fun x => key x == key b := by
          rw [h (key b)]
          simp
        rcases List.mem_cons.mp (List.mem_filter.mp this).1 with rfl | hm
        · exact Nat.le_refl _
        · exact ha b hm
      have hkey : key a = key b := Nat.le_antisymm hab hba
      have hhead := h (key a)
      simp only [List.filter_cons, beq_self_eq_true, if_true, hkey, List.cons.injEq] at hhead
      obtain ⟨rfl, -⟩ := hhead
      congr 1
      refine ih hr hs fun v => ?_
      have hv := h v
      simp only [List.filter_cons] at hv
      split at hv
      · exact (List.cons.inj hv).2
      · exact hv

theorem class_filterMap {β : Type} {keyA : α → Nat} {keyB : β → Nat} {f : α → Option β}
    (hkey : ∀ a b, f a = some b → keyB b = keyA a) (v : Nat) (l : List α) :
    (l.filterMap f).filter (fun b => keyB b == v) =
      (l.filter fun a => keyA a == v).filterMap f := by
  induction l with
  | nil => rfl
  | cons a r ih =>
    cases hf : f a with
    | none =>
      rw [List.filterMap_cons_none hf, ih, List.filter_cons]
      split
      · rw [List.filterMap_cons_none hf]
      · rfl
    | some b =>
      rw [List.filterMap_cons_some hf, List.filter_cons, List.filter_cons, hkey a b hf, ih]
      split
      · rw [List.filterMap_cons_some hf]
      · rfl

/-- What carries its key along is sorted with what it is found in. -/
theorem filterMap_mergeSort {β : Type} {keyA : α → Nat} (keyB : β → Nat) {f : α → Option β}
    (hkey : ∀ a b, f a = some b → keyB b = keyA a) (l : List α) :
    (l.mergeSort (leBy keyA)).filterMap f = (l.filterMap f).mergeSort (leBy keyB) := by
  refine eq_of_classes ?_ (sortedBy_mergeSort keyB _) fun v => ?_
  · refine List.Pairwise.filterMap _ (fun a b hab x hx y hy => ?_) (sortedBy_mergeSort keyA l)
    rw [hkey a x hx, hkey b y hy]
    exact hab
  · rw [class_mergeSort, class_filterMap hkey, class_filterMap hkey, class_mergeSort]

theorem map_mergeSort {β : Type} (key : β → Nat) (f : α → β) (l : List α) :
    (l.mergeSort (leBy fun a => key (f a))).map f = (l.map f).mergeSort (leBy key) := by
  rw [← List.filterMap_eq_map, filterMap_mergeSort key]
  intro a b h
  rw [← Option.some.inj h]

theorem perm_of_classes [DecidableEq α] {key : α → Nat} {l₁ l₂ : List α}
    (h : ∀ v, l₁.filter (fun a => key a == v) = l₂.filter fun a => key a == v) : l₁.Perm l₂ := by
  rw [List.perm_iff_count]
  intro a
  have := congrArg (List.count a) (h (key a))
  rwa [List.count_filter (by simp), List.count_filter (by simp)] at this

/-- A list is known from its classes and the order in which these take turns. -/
theorem eq_of_map_of_classes {key : α → Nat} {l₁ l₂ : List α} (hkeys : l₁.map key = l₂.map key)
    (h : ∀ v, l₁.filter (fun a => key a == v) = l₂.filter fun a => key a == v) : l₁ = l₂ := by
  induction l₁ generalizing l₂ with
  | nil => exact (List.map_eq_nil_iff.mp hkeys.symm).symm
  | cons a r ih =>
    cases l₂ with
    | nil => simp at hkeys
    | cons b s =>
      obtain ⟨hkey, hrest⟩ := List.cons.inj hkeys
      have hhead := h (key a)
      simp only [List.filter_cons, beq_self_eq_true, if_true, hkey, List.cons.injEq] at hhead
      obtain ⟨rfl, -⟩ := hhead
      congr 1
      refine ih hrest fun v => ?_
      have hv := h v
      simp only [List.filter_cons] at hv
      split at hv
      · exact (List.cons.inj hv).2
      · exact hv

end Stable

namespace Sequence

open Stable

def Sorted (events : List TimedEvent) : Prop := SortedBy TimedEvent.tick events

theorem mem_insertEvent {e f : TimedEvent} {l : List TimedEvent} :
    f ∈ insertEvent e l ↔ f = e ∨ f ∈ l := by
  induction l with
  | nil => simp [insertEvent]
  | cons g rest ih =>
    simp only [insertEvent]
    split
    · rw [List.mem_cons, ih, List.mem_cons]
      tauto
    · simp

theorem Sorted.insertEvent {l : List TimedEvent} (h : Sorted l) (e : TimedEvent) :
    Sorted (insertEvent e l) := by
  induction l with
  | nil => simp [Sequence.insertEvent, Sorted, SortedBy]
  | cons g rest ih =>
    obtain ⟨hg, hr⟩ := List.pairwise_cons.mp h
    simp only [Sequence.insertEvent]
    split
    · refine List.pairwise_cons.mpr ⟨fun f hf => ?_, ih hr⟩
      rcases mem_insertEvent.mp hf with rfl | hf
      · assumption
      · exact hg f hf
    · refine List.pairwise_cons.mpr ⟨fun f hf => ?_, h⟩
      rcases List.mem_cons.mp hf with rfl | hf
      · omega
      · have := hg f hf
        omega

/-- At its own tick an event comes last; other ticks see nothing of it. -/
theorem class_insertEvent {l : List TimedEvent} (h : Sorted l) (e : TimedEvent) (v : Nat) :
    (insertEvent e l).filter (fun f => f.tick == v) =
      l.filter (fun f => f.tick == v) ++ [e].filter fun f => f.tick == v := by
  induction l with
  | nil => simp [insertEvent]
  | cons g rest ih =>
    obtain ⟨hg, hr⟩ := List.pairwise_cons.mp h
    simp only [insertEvent]
    split
    · simp only [List.filter_cons, ih hr]
      split <;> rfl
    · by_cases hv : e.tick = v
      · have hnone : (g :: rest).filter (fun f => f.tick == v) = [] := by
          rw [List.filter_eq_nil_iff]
          intro f hf
          rcases List.mem_cons.mp hf with rfl | hf
          · simp
            omega
          · have := hg f hf
            simp
            omega
        rw [hnone, List.filter_cons, hnone]
        simp [hv]
      · simp [List.filter_cons, hv]

/-- The track that adding events one after another leads to. -/
def ofAdded (events : List TimedEvent) : List TimedEvent :=
  events.foldl (fun l e => insertEvent e l) []

theorem ofAdded_append_singleton (events : List TimedEvent) (e : TimedEvent) :
    ofAdded (events ++ [e]) = insertEvent e (ofAdded events) := by
  simp [ofAdded]

theorem sorted_ofAdded (events : List TimedEvent) : Sorted (ofAdded events) := by
  induction events using List.reverseRecOn with
  | nil => exact List.Pairwise.nil
  | append_singleton events e ih =>
    rw [ofAdded_append_singleton]
    exact ih.insertEvent e

/-- Adding events one after another sorts them by tick and keeps their order within a tick. -/
theorem ofAdded_eq_mergeSort (events : List TimedEvent) :
    ofAdded events = events.mergeSort (leBy TimedEvent.tick) := by
  refine eq_of_classes (sorted_ofAdded events) (sortedBy_mergeSort _ events) fun v => ?_
  rw [class_mergeSort]
  induction events using List.reverseRecOn with
  | nil => rfl
  | append_singleton events e ih =>
    rw [ofAdded_append_singleton, class_insertEvent (sorted_ofAdded events), ih, List.filter_append]

/-- The events that a sink is told to add to a track. -/
def added (track : Nat) (calls : List SinkCall) : List TimedEvent :=
  calls.filterMap fun
    | .addEvent n tick event => if n = track then some ⟨tick, event⟩ else none
    | .createTrack _ => none

theorem track_createTrack (s : Sequence) (n track : Nat) :
    (s.createTrack n).track track = s.track track := by
  simp only [Sequence.track, createTrack]
  by_cases h : track < s.tracks.length
  · rw [List.getElem?_append_left h]
  · rw [List.getElem?_append_right (by omega), List.getElem?_eq_none (by omega : s.tracks.length ≤ _)]
    simp only [List.getElem?_replicate]
    split <;> rfl

theorem track_addEvent (s : Sequence) (n tick : Nat) (event : SequenceEvent) (track : Nat) :
    (s.addEvent n tick event).track track =
      if n = track then insertEvent ⟨tick, event⟩ (s.track track) else s.track track := by
  have hcreated : n < (s.createTrack n).tracks.length := by
    simp only [createTrack, List.length_append, List.length_replicate]
    omega
  rw [← track_createTrack s n track]
  simp only [addEvent, Sequence.track, List.getElem?_modify]
  split
  · rename_i h
    subst h
    rw [List.getElem?_eq_getElem hcreated]
    rfl
  · simp

/-- What a sink's calls leave on a track. -/
theorem track_obeyAll (s : Sequence) (calls : List SinkCall) (track : Nat) :
    (s.obeyAll calls).track track =
      (added track calls).foldl (fun l e => insertEvent e l) (s.track track) := by
  simp only [obeyAll]
  induction calls generalizing s with
  | nil => rfl
  | cons call rest ih =>
    rw [List.foldl_cons, ih]
    cases call with
    | createTrack n => simp [obey, added, track_createTrack]
    | addEvent n tick event =>
      simp only [obey, added, track_addEvent, List.filterMap_cons]
      split
      · rfl
      · rfl

theorem track_ofResolution (resolution track : Nat) : (ofResolution resolution).track track = [] := by
  simp [ofResolution, Sequence.track]

theorem track_built (resolution : Nat) (calls : List SinkCall) (track : Nat) :
    ((ofResolution resolution).obeyAll calls).track track = ofAdded (added track calls) := by
  rw [track_obeyAll, track_ofResolution]
  rfl

theorem resolution_obeyAll (s : Sequence) (calls : List SinkCall) :
    (s.obeyAll calls).resolution = s.resolution := by
  simp only [obeyAll]
  induction calls generalizing s with
  | nil => rfl
  | cons call rest ih =>
    rw [List.foldl_cons, ih]
    cases call <;> rfl

end Sequence

end ScoreText
