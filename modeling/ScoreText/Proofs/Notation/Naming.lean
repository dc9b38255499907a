import ScoreText.Proofs.Notation.Identifying

/-!
How the chord that notes form is named: by a root and a bass among them and a name, and by whether they lie within an
octave. The naming only looks at tones.
-/

set_option autoImplicit false

namespace ScoreText

namespace Note

variable {R : Type} [Scalar R]

/-- A note or a rest without anything but its tone, as it is spelled. -/
def stripped (n : Note R) : Note R :=
  { value := n.value
    length := ((0 : Nat) : R)
    isRest := n.isRest
    isPercussion := n.isPercussion
    written := n.written }

/-- A note or a rest of a value. -/
def toned (n : Note R) : Note R := { value := n.value, length := ((0 : Nat) : R), isRest := n.isRest }

theorem suffix_stripped (n : Note R) : n.stripped.suffix = [] := rfl

theorem stripped_text (n : Note R) : n.stripped.text =
    if n.isRest then ['R'] else if n.isPercussion then Tone.percussionText n.value
      else n.written.getD (Tone.text n.value) := by
  rw [text, suffix_stripped, List.append_nil]
  rfl

theorem text_stripped (n : Note R) : n.text = n.stripped.text ++ n.suffix := by
  rw [stripped_text, text]

end Note

namespace ChordReader

section

variable {R : Type} {f : Note R → Note R}

theorem sortNotes_map {measure : Note R → Nat} (hf : ∀ n, measure (f n) = measure n) (notes : List (Note R)) :
    sortNotes measure (notes.map f) = (sortNotes measure notes).map f := by
  rw [sortNotes, sortNotes, List.map_mergeSort]
  intro a _ b _
  rw [hf, hf]

theorem classes_map (hf : ∀ n, (f n).position = n.position) (notes : List (Note R)) :
    classes (notes.map f) = (classes notes).map f := by
  induction notes with
  | nil => rfl
  | cons n rest ih =>
    have hfilter : ((fun m : Note R => m.position != (f n).position) ∘ f) = fun m => m.position != n.position := by
      funext m
      rw [Function.comp_apply, hf, hf]
    rw [List.map_cons, classes, classes, ih, List.filter_map, hfilter, List.map_cons]

theorem rotations_map (notes : List (Note R)) :
    rotations (notes.map f) = (rotations notes).map (List.map f) := by
  simp only [rotations, List.length_map, List.map_map]
  refine List.map_congr_left fun n _ => ?_
  simp only [Function.comp_apply, List.rotateLeft, List.length_map]
  split
  · rfl
  · rw [← List.map_drop, ← List.map_take, List.map_append]

theorem ofNotes_map (hf : ∀ n, (f n).position = n.position) (notes : List (Note R)) :
    Intervals.ofNotes (notes.map f) = Intervals.ofNotes notes := by
  cases notes with
  | nil => rfl
  | cons root rest =>
    simp only [Intervals.ofNotes, List.map_cons, List.map_map, hf]
    congr 2
    refine List.map_congr_left fun n _ => ?_
    rw [Function.comp_apply, hf]

end

/-- Root, bass, name and shape of the chord that notes form, and whether they lie within an octave. -/
structure Naming (R : Type) where
  root : Note R
  bass : Note R
  name : Text
  shape : Intervals
  narrow : Bool

namespace Naming

variable {R : Type} [Scalar R]

def map (f : Note R → Note R) (w : Naming R) : Naming R := { w with root := f w.root, bass := f w.bass }

/-- The notation of the chord. -/
def text (w : Naming R) : Text :=
  (if w.narrow then w.root.text else Tone.name w.root.value) ++ w.name ++
    if w.root.value = w.bass.value then [] else '^' :: w.bass.text

end Naming

section

variable {R : Type}

/-- How a rotation is named over a bass. -/
def naming? (table : ChordTable) (narrow : Bool) (bass : Note R) (rotation : List (Note R)) : Option (Naming R) := do
  let name ← table.nameOf? (Intervals.ofNotes rotation)
  let root ← rotation.head?
  some ⟨root, bass, name, Intervals.ofNotes rotation, narrow⟩

/-- How the chord that notes form is named, if it is. -/
def namingOf? (table : ChordTable) (notes : List (Note R)) : Option (Naming R) := do
  let sorted := sortNotes Note.value notes
  let bass ← sorted.head?
  let highest ← sorted.getLast?
  (rotations (classes (sortNotes Note.position sorted))).findSome?
    (naming? table (highest.value ≤ bass.value + octaveSize) bass)

/-- What is written for notes is the notation of their naming. -/
theorem textOfNotes?_eq [Scalar R] (table : ChordTable) (notes : List (Note R)) :
    textOfNotes? table notes = (namingOf? table notes).map Naming.text := by
  have hnamed : ∀ (narrow : Bool) (bass : Note R) (rotation : List (Note R)),
      named? table narrow bass rotation = (naming? table narrow bass rotation).map Naming.text := by
    intro narrow bass rotation
    rw [named?, naming?]
    cases table.nameOf? (Intervals.ofNotes rotation) with
    | none => rfl
    | some name => cases rotation.head? <;> rfl
  rw [textOfNotes?, namingOf?]
  dsimp only
  cases (sortNotes Note.value notes).head? with
  | none => rfl
  | some bass =>
    cases (sortNotes Note.value notes).getLast? with
    | none => rfl
    | some highest =>
      simp only [Option.bind_eq_bind, Option.bind_some, List.map_findSome?]
      exact congrArg (fun g => List.findSome? g _) (funext (hnamed _ bass))

/-- The naming only looks at the values of sounding notes. -/
theorem namingOf?_map {f : Note R → Note R} (hvalue : ∀ n, (f n).value = n.value)
    (hposition : ∀ n, (f n).position = n.position) (table : ChordTable) (notes : List (Note R)) :
    namingOf? table (notes.map f) = (namingOf? table notes).map (Naming.map f) := by
  have hnaming : ∀ (narrow : Bool) (bass : Note R) (rotation : List (Note R)),
      naming? table narrow (f bass) (rotation.map f) = (naming? table narrow bass rotation).map (Naming.map f) := by
    intro narrow bass rotation
    rw [naming?, naming?, ofNotes_map hposition, List.head?_map]
    cases table.nameOf? (Intervals.ofNotes rotation) with
    | none => rfl
    | some name => cases rotation.head? <;> rfl
  rw [namingOf?, namingOf?, sortNotes_map hvalue, sortNotes_map hposition, List.head?_map, List.getLast?_map,
    classes_map hposition, rotations_map]
  cases (sortNotes Note.value notes).head? with
  | none => rfl
  | some bass =>
    cases (sortNotes Note.value notes).getLast? with
    | none => rfl
    | some highest =>
      simp only [Option.bind_eq_bind, Option.bind_some, Option.map_some, List.map_findSome?, List.findSome?_map, hvalue]
      exact congrArg (fun g => List.findSome? g _) (funext (hnaming _ bass))

theorem mem_of_namingOf? {table : ChordTable} {notes : List (Note R)} {w : Naming R}
    (h : namingOf? table notes = some w) :
    w.root ∈ notes ∧ w.bass ∈ notes ∧ (w.name, w.shape) ∈ table.entries := by
  obtain ⟨bass, hbass, h⟩ := Option.bind_eq_some_iff.mp h
  obtain ⟨highest, -, h⟩ := Option.bind_eq_some_iff.mp h
  obtain ⟨rotation, hrotation, hnaming⟩ := List.exists_of_findSome?_eq_some h
  obtain ⟨name, hname, hnaming⟩ := Option.bind_eq_some_iff.mp hnaming
  obtain ⟨root, hroot, hnaming⟩ := Option.bind_eq_some_iff.mp hnaming
  cases hnaming
  obtain ⟨front, first, back, hsplit, rfl⟩ := mem_rotations.mp hrotation
  obtain rfl : first = root := Option.some.inj hroot
  have hclasses : first ∈ classes (sortNotes Note.position (sortNotes Note.value notes)) :=
    hsplit ▸ List.mem_append_right front List.mem_cons_self
  have hfiltered := (List.mem_filter.mp (List.mem_of_mem_head? (mem_classes_iff.mp hclasses))).1
  exact ⟨mem_sortNotes.mp (mem_sortNotes.mp hfiltered), mem_sortNotes.mp (List.mem_of_mem_head? hbass),
    ChordTable.nameOf?_eq_some hname⟩

end

end ChordReader

end ScoreText
