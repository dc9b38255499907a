import Mathlib.Data.List.Sort
import ScoreText.Notation.ChordReader
import ScoreText.Proofs.Sequence.Insertion

/-!
Notes stacked above one of them. The notes that stand for the pitch classes of a list are the lowest of their class,
and the shape above one of those only depends on which classes there are.
-/

set_option autoImplicit false

namespace ScoreText

/-- How far above a pitch class others lie, the nearest first. -/
def gapsAbove (present : Nat → Bool) (root : Nat) : List Nat :=
  (List.range octaveSize).filter fun gap => present ((root + gap) % octaveSize)

theorem mem_gapsAbove {present : Nat → Bool} {root gap : Nat} :
    gap ∈ gapsAbove present root ↔ gap < octaveSize ∧ present ((root + gap) % octaveSize) = true := by
  rw [gapsAbove, List.mem_filter, List.mem_range]

theorem ascending_gapsAbove (present : Nat → Bool) (root : Nat) :
    (gapsAbove present root).Pairwise (· < ·) :=
  List.pairwise_lt_range.filter _

theorem head?_gapsAbove {present : Nat → Bool} {root : Nat} (h : present (root % octaveSize) = true) :
    (gapsAbove present root).head? = some 0 := by
  have hrange : List.range octaveSize = 0 :: List.range' 1 (octaveSize - 1) := rfl
  rw [gapsAbove, hrange, List.filter_cons_of_pos (by exact h), List.head?_cons]

theorem Note.position_lt {R : Type} (n : Note R) : n.position < octaveSize := by
  unfold position
  split
  · decide
  · exact Nat.mod_lt _ (by decide)

namespace ChordReader

open Stable

variable {R : Type} {notes others : List (Note R)} {n : Note R}

/-- Notes that are the same when they have the same value. -/
def Plain (notes : List (Note R)) : Prop := ∀ m ∈ notes, ∀ n ∈ notes, m.value = n.value → m = n

/-- A note of a list below all others of its pitch class. -/
structure Lowest (notes : List (Note R)) (n : Note R) : Prop where
  mem : n ∈ notes
  le : ∀ m ∈ notes, m.position = n.position → n.value ≤ m.value

theorem Plain.congr (h : Plain notes) (hmem : ∀ n, n ∈ others ↔ n ∈ notes) : Plain others :=
  fun m hm n hn => h m ((hmem m).mp hm) n ((hmem n).mp hn)

theorem mem_sortNotes {measure : Note R → Nat} : n ∈ sortNotes measure notes ↔ n ∈ notes :=
  (List.mergeSort_perm notes _).mem_iff

theorem sorted_sortNotes (measure : Note R → Nat) (notes : List (Note R)) :
    SortedBy measure (sortNotes measure notes) := sortedBy_mergeSort measure notes

theorem head?_of_sorted (hsorted : SortedBy Note.value notes) (hplain : Plain notes) :
    notes.head? = some n ↔ n ∈ notes ∧ ∀ m ∈ notes, n.value ≤ m.value := by
  cases notes with
  | nil => simp
  | cons m rest =>
    obtain ⟨hm, -⟩ := List.pairwise_cons.mp hsorted
    rw [List.head?_cons, Option.some_inj]
    refine ⟨fun h => h ▸ ⟨List.mem_cons_self, fun k hk => ?_⟩, fun ⟨hn, hle⟩ => ?_⟩
    · rcases List.mem_cons.mp hk with rfl | hk
      · exact le_refl _
      · exact hm k hk
    · rcases List.mem_cons.mp hn with rfl | hrest
      · rfl
      · exact hplain m List.mem_cons_self n hn (le_antisymm (hm n hrest) (hle m List.mem_cons_self))

theorem getLast?_of_sorted (hsorted : SortedBy Note.value notes) (hplain : Plain notes) :
    notes.getLast? = some n ↔ n ∈ notes ∧ ∀ m ∈ notes, m.value ≤ n.value := by
  cases notes using List.reverseRecOn with
  | nil => simp
  | append_singleton front m =>
    have hm : ∀ k ∈ front, k.value ≤ m.value := fun k hk =>
      (List.pairwise_append.mp hsorted).2.2 k hk m (List.mem_singleton_self m)
    have hlast : m ∈ front ++ [m] := List.mem_append_right _ (List.mem_singleton_self m)
    rw [List.getLast?_concat, Option.some_inj]
    refine ⟨fun h => h ▸ ⟨hlast, fun k hk => ?_⟩, fun ⟨hn, hle⟩ => ?_⟩
    · rcases List.mem_append.mp hk with hk | hk
      · exact hm k hk
      · exact (congrArg Note.value (List.mem_singleton.mp hk)).le
    · rcases List.mem_append.mp hn with hfront | hn'
      · exact hplain m hlast n hn (le_antisymm (hle m hlast) (hm n hfront))
      · exact (List.mem_singleton.mp hn').symm

theorem mem_classes_iff :
    n ∈ classes notes ↔ (notes.filter fun m => m.position == n.position).head? = some n := by
  induction notes with
  | nil => simp [classes]
  | cons m rest ih =>
    rw [classes, List.mem_cons, List.mem_filter, ih, List.filter_cons]
    by_cases hclass : m.position = n.position
    · simp [hclass, eq_comm]
    · have hne : n ≠ m := fun h => hclass (congrArg Note.position h.symm)
      simp [hclass, hne, Ne.symm hclass]

theorem ascending_classes (h : SortedBy Note.position notes) :
    (classes notes).Pairwise fun a b => a.position < b.position := by
  induction notes with
  | nil => exact List.Pairwise.nil
  | cons m rest ih =>
    obtain ⟨hm, hrest⟩ := List.pairwise_cons.mp h
    refine List.pairwise_cons.mpr ⟨fun n hn => ?_, (ih hrest).filter _⟩
    obtain ⟨hn, hclass⟩ := List.mem_filter.mp hn
    have hmem : n ∈ rest := (List.mem_filter.mp (List.mem_of_mem_head? (mem_classes_iff.mp hn))).1
    have hne : n.position ≠ m.position := by simpa using hclass
    exact lt_of_le_of_ne (hm n hmem) hne.symm

/-- The notes that stand for the pitch classes of a list, in the order of these. -/
def lowestNotes (notes : List (Note R)) : List (Note R) :=
  classes (sortNotes Note.position (sortNotes Note.value notes))

theorem ascending_lowestNotes (notes : List (Note R)) :
    (lowestNotes notes).Pairwise fun a b => a.position < b.position :=
  ascending_classes (sorted_sortNotes _ _)

theorem mem_lowestNotes (hplain : Plain notes) : n ∈ lowestNotes notes ↔ Lowest notes n := by
  have hclass : (sortNotes Note.position (sortNotes Note.value notes)).filter (fun m => m.position == n.position) =
      (sortNotes Note.value notes).filter fun m => m.position == n.position := class_mergeSort _ _ _
  have hmem : ∀ m, m ∈ (sortNotes Note.value notes).filter (fun m => m.position == n.position) ↔
      m ∈ notes ∧ m.position = n.position := by
    intro m
    rw [List.mem_filter, mem_sortNotes, beq_iff_eq]
  rw [lowestNotes, mem_classes_iff, hclass, head?_of_sorted ((sorted_sortNotes _ _).filter _)
    fun a ha b hb => hplain a ((hmem a).mp ha).1 b ((hmem b).mp hb).1]
  simp only [hmem]
  exact ⟨fun ⟨⟨hn, _⟩, hle⟩ => ⟨hn, fun m hm hp => hle m ⟨hm, hp⟩⟩,
    fun h => ⟨⟨h.mem, trivial⟩, fun m hm => h.le m hm.1 hm.2⟩⟩

theorem exists_lowest (hn : n ∈ notes) :
    ∃ m ∈ lowestNotes notes, m.position = n.position := by
  obtain ⟨m, hm⟩ : ∃ m, ((sortNotes Note.value notes).filter fun m => m.position == n.position).head? = some m := by
    rw [← Option.isSome_iff_exists, List.isSome_head?]
    exact List.ne_nil_of_mem (List.mem_filter.mpr ⟨mem_sortNotes.mpr hn, beq_self_eq_true _⟩)
  have hposition : m.position = n.position := by
    simpa using (List.mem_filter.mp (List.mem_of_mem_head? hm)).2
  refine ⟨m, mem_classes_iff.mpr ?_, hposition⟩
  rw [show (sortNotes Note.position _).filter (fun k => k.position == m.position) = _ from class_mergeSort _ _ _,
    hposition]
  exact hm

/-- Order and repetition change nothing about them. -/
theorem lowestNotes_congr (hplain : Plain notes) (hmem : ∀ n, n ∈ others ↔ n ∈ notes) :
    lowestNotes others = lowestNotes notes := by
  have hiff : ∀ n, n ∈ lowestNotes others ↔ n ∈ lowestNotes notes := by
    intro n
    rw [mem_lowestNotes (hplain.congr hmem), mem_lowestNotes hplain]
    exact ⟨fun h => ⟨(hmem n).mp h.mem, fun m hm => h.le m ((hmem m).mpr hm)⟩,
      fun h => ⟨(hmem n).mpr h.mem, fun m hm => h.le m ((hmem m).mp hm)⟩⟩
  have hnodup : ∀ notes : List (Note R), (lowestNotes notes).Nodup := fun notes =>
    (ascending_lowestNotes notes).imp fun hlt heq => absurd (congrArg Note.position heq) (ne_of_lt hlt)
  refine ((List.perm_ext_iff_of_nodup (hnodup _) (hnodup _)).mpr hiff).eq_of_pairwise
    (fun a b _ _ hab hba => absurd hab hba.asymm) (ascending_lowestNotes others) (ascending_lowestNotes notes)

theorem rotateLeft_append {α : Type} (front back : List α) (a : α) :
    (front ++ a :: back).rotateLeft front.length = a :: (back ++ front) := by
  unfold List.rotateLeft
  dsimp only
  split
  · rename_i hlen
    simp only [List.length_append, List.length_cons] at hlen
    obtain rfl : front = [] := List.eq_nil_of_length_eq_zero (by omega)
    simp
  · rw [Nat.mod_eq_of_lt (by simp), List.drop_left, List.take_left, List.cons_append]

theorem mem_rotations {α : Type} {l rotation : List α} :
    rotation ∈ rotations l ↔ ∃ front a back, l = front ++ a :: back ∧ rotation = a :: (back ++ front) := by
  rw [rotations, List.mem_map]
  constructor
  · rintro ⟨i, hi, rfl⟩
    have hi : i < l.length := List.mem_range.mp hi
    have hsplit : l = l.take i ++ l[i] :: l.drop (i + 1) := by
      rw [List.getElem_cons_drop, List.take_append_drop]
    refine ⟨_, _, _, hsplit, ?_⟩
    have hrotate := rotateLeft_append (l.take i) (l.drop (i + 1)) l[i]
    rwa [← hsplit, List.length_take_of_le hi.le] at hrotate
  · rintro ⟨front, a, back, rfl, rfl⟩
    exact ⟨front.length, List.mem_range.mpr (by simp), rotateLeft_append front back a⟩

/-- How far a note lies above the pitch class of another. -/
def gap (root n : Note R) : Nat := (((n.position : Int) - root.position) % octaveSize).toNat

theorem gap_eq_iff {root n : Note R} {d : Nat} :
    gap root n = d ↔ d < octaveSize ∧ n.position = (root.position + d) % octaveSize := by
  have hn := n.position_lt
  have hroot := root.position_lt
  unfold gap
  generalize n.position = p at *
  generalize root.position = r at *
  simp only [octaveSize] at *
  omega

/-- A rotation of ascending notes ascends from the first of them on. -/
theorem ascending_gaps {front back : List (Note R)} {root : Note R}
    (hascending : (front ++ root :: back).Pairwise fun a b => a.position < b.position) :
    ((root :: (back ++ front)).map (gap root)).Pairwise (· < ·) := by
  obtain ⟨hfront, hback, hcross⟩ := List.pairwise_append.mp hascending
  have hroot : ∀ b ∈ root :: back, root.position ≤ b.position := by
    intro b hb
    rcases List.mem_cons.mp hb with rfl | hb
    · exact le_refl _
    · exact ((List.pairwise_cons.mp hback).1 b hb).le
  have habove : ∀ b ∈ root :: back, gap root b = b.position - root.position := fun b hb => by
    have := hroot b hb
    have := b.position_lt
    rw [gap_eq_iff]
    simp only [octaveSize] at *
    omega
  have hbelow : ∀ a ∈ front, gap root a = a.position + octaveSize - root.position := fun a ha => by
    have := hcross a ha root List.mem_cons_self
    have := root.position_lt
    rw [gap_eq_iff]
    simp only [octaveSize] at *
    omega
  rw [List.pairwise_map, ← List.cons_append, List.pairwise_append]
  refine ⟨hback.imp_of_mem fun {a b} ha hb hlt => ?_, hfront.imp_of_mem fun {a b} ha hb hlt => ?_,
    fun b hb a ha => ?_⟩
  · have := hroot a ha
    rw [habove a ha, habove b hb]
    omega
  · have := hcross a ha root List.mem_cons_self
    have := root.position_lt
    rw [hbelow a ha, hbelow b hb]
    omega
  · have := hcross a ha b hb
    have := hroot b hb
    have := b.position_lt
    rw [habove b hb, hbelow a ha]
    omega

/-- The shape that the pitch classes of notes have above one of them. -/
def shapeAbove (notes : List (Note R)) (root : Nat) : Intervals :=
  ⟨(gapsAbove (fun p => notes.any fun n => n.position == p) root).map Intervals.spell⟩

theorem ofNotes_rotation {front back : List (Note R)} {root : Note R}
    (hascending : (front ++ root :: back).Pairwise fun a b => a.position < b.position) :
    Intervals.ofNotes (root :: (back ++ front)) = shapeAbove (front ++ root :: back) root.position := by
  have hmem : ∀ n, n ∈ root :: (back ++ front) ↔ n ∈ front ++ root :: back := fun n => by
    simp only [List.mem_cons, List.mem_append]
    tauto
  have hgaps : (root :: (back ++ front)).map (gap root) =
      gapsAbove (fun p => (front ++ root :: back).any fun n => n.position == p) root.position := by
    refine (ascending_gaps hascending).eq_of_mem_iff (ascending_gapsAbove _ _) fun d => ?_
    simp only [List.mem_map, mem_gapsAbove, List.any_eq_true, beq_iff_eq, gap_eq_iff, hmem]
    tauto
  have hfirst : Intervals.spell (gap root root) = ['1'] := by
    rw [gap, Int.sub_self]
    decide
  rw [shapeAbove, ← hgaps, List.map_map, List.map_cons, Function.comp_apply, hfirst]
  rfl

theorem shapeAbove_lowestNotes (hplain : Plain notes) (root : Nat) :
    shapeAbove (lowestNotes notes) root = shapeAbove notes root := by
  have hany : ∀ p, ((lowestNotes notes).any fun n => n.position == p) = notes.any fun n => n.position == p := by
    intro p
    rw [Bool.eq_iff_iff, List.any_eq_true, List.any_eq_true]
    simp only [beq_iff_eq]
    constructor
    · rintro ⟨n, hn, hp⟩
      exact ⟨n, ((mem_lowestNotes hplain).mp hn).mem, hp⟩
    · rintro ⟨n, hn, rfl⟩
      exact exists_lowest hn
  simp only [shapeAbove, hany]

/-- Each rotation of the notes that stand for their classes has the shape above its first. -/
theorem exists_rotation (hplain : Plain notes) {rotation : List (Note R)}
    (h : rotation ∈ rotations (lowestNotes notes)) : ∃ root rest, rotation = root :: rest ∧
      root ∈ lowestNotes notes ∧ Intervals.ofNotes rotation = shapeAbove notes root.position := by
  obtain ⟨front, root, back, hsplit, rfl⟩ := mem_rotations.mp h
  refine ⟨root, _, rfl, hsplit ▸ List.mem_append_right _ List.mem_cons_self, ?_⟩
  rw [ofNotes_rotation (hsplit ▸ ascending_lowestNotes notes), ← hsplit, shapeAbove_lowestNotes hplain]

/-- Each of the notes that stand for their classes starts one of the rotations. -/
theorem rotation_of_mem (hplain : Plain notes) {root : Note R} (h : root ∈ lowestNotes notes) :
    ∃ rest, root :: rest ∈ rotations (lowestNotes notes) ∧
      Intervals.ofNotes (root :: rest) = shapeAbove notes root.position := by
  obtain ⟨front, back, hsplit⟩ := List.append_of_mem h
  refine ⟨back ++ front, mem_rotations.mpr ⟨front, root, back, hsplit, rfl⟩, ?_⟩
  rw [ofNotes_rotation (hsplit ▸ ascending_lowestNotes notes), ← hsplit, shapeAbove_lowestNotes hplain]

end ChordReader

end ScoreText
