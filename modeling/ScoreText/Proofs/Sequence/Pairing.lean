import Mathlib.Data.List.Perm.Subperm
import ScoreText.Proofs.Sequence.Insertion

/-!
How note-ons and note-offs pair up. Each pitch is a queue: its notes end in the order in which they
began, whatever the other pitches do.
-/

set_option autoImplicit false

namespace ScoreText

namespace SequencedNote

/-- What a note-off says: the pitch, the velocity and the tick. -/
structure Ending where
  note : Nat
  decay : Nat
  finish : Nat
  deriving DecidableEq

def opening (n : SequencedNote) : Sequence.OpenNote := ⟨n.note, n.start, n.attack⟩

def ending (n : SequencedNote) : Ending := ⟨n.note, n.decay, n.finish⟩

end SequencedNote

namespace Sequence

open Stable SequencedNote

def opening? (e : TimedEvent) : Option OpenNote :=
  match e.event with
  | .noteOn _ note velocity => some ⟨note, e.tick, velocity⟩
  | _ => none

def ending? (e : TimedEvent) : Option Ending :=
  match e.event with
  | .noteOff _ note velocity => some ⟨note, velocity, e.tick⟩
  | _ => none

theorem start_of_opening? {e : TimedEvent} {o : OpenNote} (h : opening? e = some o) :
    o.start = e.tick := by
  simp only [opening?] at h
  split at h
  · simp only [Option.some.injEq] at h
    rw [← h]
  · cases h

theorem finish_of_ending? {e : TimedEvent} {f : Ending} (h : ending? e = some f) :
    f.finish = e.tick := by
  simp only [ending?] at h
  split at h
  · simp only [Option.some.injEq] at h
    rw [← h]
  · cases h

/-- One event at a time: a note-on opens a note, a note-off ends the earliest open one of its
pitch if there is one, and nothing else matters. -/
theorem pairFrom_cons (opened : List OpenNote) (e : TimedEvent) (rest : List TimedEvent) :
    (∃ o, opening? e = some o ∧ ending? e = none ∧
      pairFrom opened (e :: rest) = pairFrom (opened ++ [o]) rest) ∨
    (∃ f o others, opening? e = none ∧ ending? e = some f ∧ f.finish = e.tick ∧
      takeOpen? f.note opened = some (o, others) ∧
      pairFrom opened (e :: rest) =
        ⟨f.note, o.attack, f.decay, o.start, f.finish⟩ :: pairFrom others rest) ∨
    (∃ f, opening? e = none ∧ ending? e = some f ∧ takeOpen? f.note opened = none ∧
      pairFrom opened (e :: rest) = pairFrom opened rest) ∨
    (opening? e = none ∧ ending? e = none ∧
      pairFrom opened (e :: rest) = pairFrom opened rest) := by
  obtain ⟨tick, event⟩ := e
  cases event with
  | noteOn channel note velocity => exact .inl ⟨_, rfl, rfl, rfl⟩
  | noteOff channel note velocity =>
    cases h : takeOpen? note opened with
    | none => exact .inr (.inr (.inl ⟨⟨note, velocity, tick⟩, rfl, rfl, h, by simp [pairFrom, h]⟩))
    | some found =>
      exact .inr (.inl ⟨⟨note, velocity, tick⟩, found.1, found.2, rfl, rfl, rfl, h,
        by simp [pairFrom, h]⟩)
  | _ => exact .inr (.inr (.inr ⟨rfl, rfl, rfl⟩))

/-- The open notes of a pitch. -/
def openOf (p : Nat) (opened : List OpenNote) : List OpenNote := opened.filter fun o => o.note == p

/-- The note-offs of a pitch. -/
def endingsOf (p : Nat) (es : List TimedEvent) : List Ending :=
  (es.filterMap ending?).filter fun f => f.note == p

theorem takeOpen?_eq_none {p : Nat} {opened : List OpenNote} :
    takeOpen? p opened = none ↔ openOf p opened = [] := by
  induction opened with
  | nil => simp [takeOpen?, openOf]
  | cons o rest ih =>
    simp only [takeOpen?, openOf, List.filter_cons, beq_iff_eq] at *
    split
    · simp
    · simpa using ih

/-- The one taken was first of its pitch, and the others stay in their order. -/
theorem takeOpen?_eq_some {p : Nat} {opened others : List OpenNote} {o : OpenNote}
    (h : takeOpen? p opened = some (o, others)) :
    o.note = p ∧ openOf p opened = o :: openOf p others ∧
      (∀ q, q ≠ p → openOf q opened = openOf q others) ∧ opened.Perm (o :: others) := by
  induction opened generalizing others with
  | nil => cases h
  | cons a rest ih =>
    simp only [takeOpen?] at h
    split at h
    · rename_i hnote
      simp only [Option.some.injEq, Prod.mk.injEq] at h
      obtain ⟨rfl, rfl⟩ := h
      refine ⟨hnote, by simp [openOf, hnote], fun q hq => ?_, List.Perm.refl _⟩
      have : a.note ≠ q := by omega
      simp [openOf, this]
    · rename_i hnote
      cases hrest : takeOpen? p rest with
      | none => simp [hrest] at h
      | some found =>
        obtain ⟨b, left⟩ := found
        simp only [hrest, Option.map_some, Option.some.injEq, Prod.mk.injEq] at h
        obtain ⟨rfl, rfl⟩ := h
        obtain ⟨hp, hsame, hother, hperm⟩ := ih hrest
        refine ⟨hp, ?_, fun q hq => ?_, ?_⟩
        · simp only [openOf, List.filter_cons] at hsame ⊢
          simp [hnote, hsame]
        · have := hother q hq
          simp only [openOf, List.filter_cons] at this ⊢
          rw [this]
        · exact (hperm.cons a).trans (List.Perm.swap b a left)

theorem sorted_tail {e : TimedEvent} {rest : List TimedEvent} (h : Sorted (e :: rest)) :
    Sorted rest := (List.pairwise_cons.mp h).2

theorem le_of_mem_tail {e f : TimedEvent} {rest : List TimedEvent} (h : Sorted (e :: rest))
    (hf : f ∈ rest) : e.tick ≤ f.tick := (List.pairwise_cons.mp h).1 f hf

/-- A note ends at one of the note-offs. -/
theorem ending_sublist (opened : List OpenNote) (es : List TimedEvent) :
    ((pairFrom opened es).map ending).Sublist (es.filterMap ending?) := by
  induction es generalizing opened with
  | nil => simp [pairFrom]
  | cons e rest ih =>
    rcases pairFrom_cons opened e rest with
      ⟨o, -, he, hpair⟩ | ⟨f, o, others, -, he, -, -, hpair⟩ | ⟨f, -, he, -, hpair⟩ | ⟨-, he, hpair⟩
    · rw [hpair, List.filterMap_cons_none he]
      exact ih _
    · rw [hpair, List.filterMap_cons_some he]
      exact (ih others).cons_cons f
    · rw [hpair, List.filterMap_cons_some he]
      exact (ih opened).cons f
    · rw [hpair, List.filterMap_cons_none he]
      exact ih _

/-- The note that a note-off ends began with the note-on that was open. -/
theorem opening_ended {o : OpenNote} {f : Ending} (h : o.note = f.note) :
    opening ⟨f.note, o.attack, f.decay, o.start, f.finish⟩ = o := by
  rw [← h]
  rfl

/-- A note begins at one of the note-ons. -/
theorem opening_subperm (opened : List OpenNote) (es : List TimedEvent) :
    ((pairFrom opened es).map opening).Subperm (opened ++ es.filterMap opening?) := by
  induction es generalizing opened with
  | nil => simp [pairFrom, List.nil_subperm]
  | cons e rest ih =>
    rcases pairFrom_cons opened e rest with
      ⟨o, ho, -, hpair⟩ | ⟨f, o, others, ho, -, -, htake, hpair⟩ | ⟨f, ho, -, -, hpair⟩ |
        ⟨ho, -, hpair⟩
    · rw [hpair, List.filterMap_cons_some ho]
      simpa using ih (opened ++ [o])
    · rw [hpair, List.filterMap_cons_none ho]
      obtain ⟨hp, -, -, hperm⟩ := takeOpen?_eq_some htake
      rw [List.map_cons, opening_ended hp]
      exact ((List.subperm_cons o).mpr (ih others)).trans
        ((hperm.append_right _).symm.subperm)
    · rw [hpair, List.filterMap_cons_none ho]
      exact ih _
    · rw [hpair, List.filterMap_cons_none ho]
      exact ih _

theorem sortedBy_ending {es : List TimedEvent} (h : Sorted es) :
    SortedBy Ending.finish (es.filterMap ending?) := by
  refine List.Pairwise.filterMap _ (fun e f hef x hx y hy => ?_) h
  rw [finish_of_ending? hx, finish_of_ending? hy]
  exact hef

/-- Notes come in the order in which they end. -/
theorem sortedBy_finish_pairFrom (opened : List OpenNote) {es : List TimedEvent} (h : Sorted es) :
    SortedBy SequencedNote.finish (pairFrom opened es) := by
  have hmap : SortedBy Ending.finish ((pairFrom opened es).map ending) :=
    (sortedBy_ending h).sublist (ending_sublist opened es)
  exact sortedBy_of_map Ending.finish ending hmap

/-- The openings of the notes of a pitch, in their order, are among its note-ons in theirs. -/
theorem opening_sublist (opened : List OpenNote) (es : List TimedEvent) (p : Nat) :
    (((pairFrom opened es).filter fun n => n.note == p).map opening).Sublist
      (openOf p (opened ++ es.filterMap opening?)) := by
  induction es generalizing opened with
  | nil => simp [pairFrom]
  | cons e rest ih =>
    rcases pairFrom_cons opened e rest with
      ⟨o, ho, -, hpair⟩ | ⟨f, o, others, ho, -, -, htake, hpair⟩ | ⟨f, ho, -, -, hpair⟩ |
        ⟨ho, -, hpair⟩
    · rw [hpair, List.filterMap_cons_some ho]
      simpa using ih (opened ++ [o])
    · rw [hpair, List.filterMap_cons_none ho]
      obtain ⟨hnote, hsame, hother, -⟩ := takeOpen?_eq_some htake
      have htail := ih others
      simp only [openOf, List.filter_append, List.filter_cons] at htail hsame hother ⊢
      by_cases hp : f.note = p
      · subst hp
        simp only [beq_self_eq_true, if_true, List.map_cons, hsame, List.cons_append,
          opening_ended hnote]
        exact htail.cons_cons o
      · rw [hother p (fun h => hp h.symm)]
        simpa [hp] using htail
    · rw [hpair, List.filterMap_cons_none ho]
      exact ih _
    · rw [hpair, List.filterMap_cons_none ho]
      exact ih _

theorem sortedBy_opening {es : List TimedEvent} (h : Sorted es) :
    SortedBy OpenNote.start (es.filterMap opening?) := by
  refine List.Pairwise.filterMap _ (fun e f hef x hx y hy => ?_) h
  rw [start_of_opening? hx, start_of_opening? hy]
  exact hef

/-- The notes of a pitch end in the order in which they began. -/
theorem sortedBy_start_of_pitch {es : List TimedEvent} (h : Sorted es) (p : Nat) :
    SortedBy SequencedNote.start ((pairFrom [] es).filter fun n => n.note == p) := by
  have hmap : SortedBy OpenNote.start
      (((pairFrom [] es).filter fun n => n.note == p).map opening) :=
    ((sortedBy_opening h).sublist List.filter_sublist).sublist (opening_sublist [] es p)
  exact sortedBy_of_map OpenNote.start opening hmap

/-- What is yet to begin does so no earlier than now. -/
theorem tick_le_start {e : TimedEvent} {rest : List TimedEvent} (hs : Sorted (e :: rest)) {o : OpenNote}
    (ho : o ∈ rest.filterMap opening?) : e.tick ≤ o.start := by
  obtain ⟨g, hg, hopening⟩ := List.mem_filterMap.mp ho
  rw [start_of_opening? hopening]
  exact le_of_mem_tail hs hg

/-- A note whose note-off finds nothing open would begin no earlier than it ends. -/
theorem finish_le_start_of_unmatched {e : TimedEvent} {rest : List TimedEvent} (hs : Sorted (e :: rest))
    {f : Ending} (he : ending? e = some f) {opened : List OpenNote} (htake : takeOpen? f.note opened = none)
    {n : SequencedNote} {ns : List SequencedNote}
    (hon : openOf f.note (opened ++ rest.filterMap opening?) = (n :: ns).map opening)
    (hfirst : f = n.ending) : n.finish ≤ n.start := by
  have hnone := takeOpen?_eq_none.mp htake
  simp only [openOf, List.filter_append] at hon hnone
  rw [hnone, List.nil_append, List.map_cons] at hon
  have hfinish : n.finish = e.tick := by
    rw [← finish_of_ending? he, hfirst]
    rfl
  exact hfinish ▸ tick_le_start hs (List.mem_of_mem_filter (hon ▸ List.mem_cons_self))

/-- When the note-ons and the note-offs of a pitch are those of a list of notes that end after they
begin, those notes come out. -/
theorem pairFrom_of_pitch {p : Nat} {es : List TimedEvent} (hs : Sorted es)
    {opened : List OpenNote} {ns : List SequencedNote}
    (hon : openOf p (opened ++ es.filterMap opening?) = ns.map opening)
    (hoff : endingsOf p es = ns.map ending) (hpos : ∀ n ∈ ns, n.start < n.finish) :
    (pairFrom opened es).filter (fun n => n.note == p) = ns := by
  induction es generalizing opened ns with
  | nil =>
    have : ns = [] := by simpa [endingsOf] using hoff
    simp [pairFrom, this]
  | cons e rest ih =>
    rcases pairFrom_cons opened e rest with
      ⟨o, ho, he, hpair⟩ | ⟨f, o, others, ho, he, -, htake, hpair⟩ |
        ⟨f, ho, he, htake, hpair⟩ | ⟨ho, he, hpair⟩
    · rw [hpair]
      rw [List.filterMap_cons_some ho] at hon
      rw [endingsOf, List.filterMap_cons_none he] at hoff
      exact ih (sorted_tail hs) (by simpa using hon) hoff hpos
    · rw [hpair, List.filter_cons]
      rw [List.filterMap_cons_none ho] at hon
      rw [endingsOf, List.filterMap_cons_some he, List.filter_cons] at hoff
      obtain ⟨hnote, hsame, hother, -⟩ := takeOpen?_eq_some htake
      simp only [openOf, List.filter_append] at hon hsame hother
      by_cases hp : f.note = p
      · subst hp
        simp only [beq_self_eq_true, if_true] at hoff ⊢
        cases ns with
        | nil => simp at hoff
        | cons n ns =>
          simp only [List.map_cons, List.cons.injEq] at hoff
          rw [hsame] at hon
          simp only [List.cons_append, List.map_cons, List.cons.injEq] at hon
          have htail : (pairFrom others rest).filter (fun n => n.note == f.note) = ns :=
            ih (sorted_tail hs) (by simpa [openOf, List.filter_append] using hon.2) hoff.2
              (fun m hm => hpos m (List.mem_cons_of_mem n hm))
          rw [htail]
          obtain ⟨rfl, -⟩ := hon
          obtain ⟨rfl, -⟩ := hoff
          rfl
      · rw [if_neg (by simpa using hp)] at hoff ⊢
        rw [hother p (fun h => hp h.symm)] at hon
        exact ih (sorted_tail hs) (by simpa [openOf, List.filter_append] using hon) hoff hpos
    · rw [hpair]
      rw [List.filterMap_cons_none ho] at hon
      rw [endingsOf, List.filterMap_cons_some he, List.filter_cons] at hoff
      by_cases hp : f.note = p
      · subst hp
        simp only [beq_self_eq_true, if_true] at hoff
        cases ns with
        | nil => simp at hoff
        | cons n ns =>
          have hle : n.finish ≤ n.start :=
            finish_le_start_of_unmatched hs he htake hon (List.cons.inj hoff).1
          exact absurd (hpos n List.mem_cons_self) (Nat.not_lt_of_le hle)
      · rw [if_neg (by simpa using hp)] at hoff
        exact ih (sorted_tail hs) hon hoff hpos
    · rw [hpair]
      rw [List.filterMap_cons_none ho] at hon
      rw [endingsOf, List.filterMap_cons_none he] at hoff
      exact ih (sorted_tail hs) hon hoff hpos

/-- The notes among the events of a track, by start. -/
def notesOf (es : List TimedEvent) : List SequencedNote := (pairFrom [] es).mergeSort (leBy start)

theorem notes_eq_notesOf (s : Sequence) (n : Nat) : s.notes n = notesOf (s.track n) := rfl

theorem sortedBy_start_notesOf (es : List TimedEvent) : SortedBy start (notesOf es) :=
  sortedBy_mergeSort _ _

theorem notesOf_of_pitch {es : List TimedEvent} (h : Sorted es) (p : Nat) :
    (notesOf es).filter (fun n => n.note == p) = (pairFrom [] es).filter fun n => n.note == p :=
  filter_mergeSort (sortedBy_start_of_pitch h p)

theorem sortedBy_finish_of_pitch {es : List TimedEvent} (h : Sorted es) (p : Nat) :
    SortedBy finish ((notesOf es).filter fun n => n.note == p) := by
  rw [notesOf_of_pitch h]
  exact (sortedBy_finish_pairFrom [] h).sublist List.filter_sublist

/-- Notes that start together come in the order in which they end. -/
theorem sortedBy_finish_of_start {es : List TimedEvent} (h : Sorted es) (v : Nat) :
    SortedBy finish ((notesOf es).filter fun n => n.start == v) := by
  rw [notesOf, class_mergeSort]
  exact (sortedBy_finish_pairFrom [] h).sublist List.filter_sublist

/-- Notes that are written again, each one's on and off somewhere behind those of the notes before
it, are found again. -/
theorem notesOf_rewritten {es : List TimedEvent} (h : Sorted es) {again : List TimedEvent}
    (hon : again.filterMap opening? = (notesOf es).map opening)
    (hoff : again.filterMap ending? = (notesOf es).map ending)
    (hpos : ∀ n ∈ notesOf es, n.start < n.finish) :
    notesOf (ofAdded again) = notesOf es := by
  have hsorted := sorted_ofAdded again
  have hopen : (ofAdded again).filterMap opening? = (notesOf es).map opening := by
    rw [ofAdded_eq_mergeSort, filterMap_mergeSort OpenNote.start (fun _ _ => start_of_opening?),
      hon, ← map_mergeSort OpenNote.start]
    exact congrArg _ (mergeSort_of_sortedBy (sortedBy_start_notesOf es))
  have hend : (ofAdded again).filterMap ending? =
      ((notesOf es).mergeSort (leBy finish)).map ending := by
    rw [ofAdded_eq_mergeSort, filterMap_mergeSort Ending.finish (fun _ _ => finish_of_ending?),
      hoff, ← map_mergeSort Ending.finish]
    rfl
  have hpitch : ∀ p, ((notesOf es).mergeSort (leBy finish)).filter (fun n => n.note == p) =
      (notesOf es).filter fun n => n.note == p :=
    fun p => filter_mergeSort (sortedBy_finish_of_pitch h p)
  have hclass : ∀ p, (pairFrom [] (ofAdded again)).filter (fun n => n.note == p) =
      ((notesOf es).mergeSort (leBy finish)).filter fun n => n.note == p := by
    intro p
    rw [hpitch]
    refine pairFrom_of_pitch hsorted ?_ ?_ fun n hn => hpos n (List.mem_of_mem_filter hn)
    · rw [List.nil_append, hopen, openOf, List.filter_map]
      rfl
    · rw [endingsOf, hend, List.filter_map]
      exact congrArg _ (hpitch p)
  have hending : (pairFrom [] (ofAdded again)).map ending =
      ((notesOf es).mergeSort (leBy finish)).map ending := by
    have hsub := ending_sublist [] (ofAdded again)
    rw [hend] at hsub
    exact hsub.eq_of_length (by
      simpa using (perm_of_classes hclass).length_eq)
  have hfound : pairFrom [] (ofAdded again) = (notesOf es).mergeSort (leBy finish) := by
    refine eq_of_map_of_classes ?_ hclass
    have hnote := congrArg (List.map Ending.note) hending
    rw [List.map_map, List.map_map] at hnote
    exact hnote
  refine eq_of_classes (sortedBy_start_notesOf _) (sortedBy_start_notesOf _) fun v => ?_
  rw [notesOf, class_mergeSort, hfound]
  exact filter_mergeSort (sortedBy_finish_of_start h v)

end Sequence

end ScoreText
