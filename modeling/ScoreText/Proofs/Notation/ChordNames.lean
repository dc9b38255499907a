import ScoreText.Proofs.Notation.Suffix

/-!
Chord names: the name that is written is the longest that what is written starts with, and a note
without one is not taken for a chord.
-/

set_option autoImplicit false

namespace ScoreText

open NoteContext

namespace ChordTable

/-- How a name that is longer than another goes on, and how all names start. -/
def continuations : List Text :=
  [['6'], ['7'], ['9'], ['1'], ['%'], ['M'], ['A', 'D'], ['A', 'U'], ['S', 'U'], ['D', 'O'],
    ['D', 'I']]

/-- A text that no name starts, and that makes no name longer. -/
def Calm (rest : Text) : Prop := ∀ t ∈ continuations, ¬ t <+: rest

theorem calm_of_head {rest : Text} (h : ∀ c ∈ rest.head?, ∀ t ∈ continuations, t.head? ≠ some c) : Calm rest := by
  rintro t ht ⟨u, rfl⟩
  have hne : ∀ t ∈ continuations, t ≠ [] := by decide
  cases t with
  | nil => exact hne [] ht rfl
  | cons c r => exact h c rfl (c :: r) ht rfl

/-- Whether a later entry can be found behind an earlier one: the earlier name is no start of it,
and makes the later name longer, if it does, in a known way. -/
def yields (earlier later : Text × Intervals) : Bool :=
  !earlier.1.isPrefixOf later.1 &&
    (!later.1.isPrefixOf earlier.1 ||
      continuations.any fun t => t.isPrefixOf (earlier.1.drop later.1.length))

def orderly : List (Text × Intervals) → Bool
  | [] => true
  | e :: rest => rest.all (yields e) && orderly rest

theorem standard_orderly :
    orderly standard.entries = true ∧
      (standard.entries.all fun e =>
        continuations.any (fun t => t.isPrefixOf e.1) &&
          e.1.head?.any (fun c => ['M', 'A', 'D', 'S'].contains c) &&
          e.1.all fun c => c.isUpper || c.isDigit || c == '%') = true := by
  decide +kernel

theorem find?_orderly {entries : List (Text × Intervals)} (ho : orderly entries = true)
    {e : Text × Intervals} (he : e ∈ entries) {rest : Text} (hc : Calm rest) :
    entries.find? (fun e' => e'.1.isPrefixOf (e.1 ++ rest)) = some e := by
  induction entries with
  | nil => cases he
  | cons f entries ih =>
    rw [orderly, Bool.and_eq_true] at ho
    rcases List.mem_cons.mp he with rfl | he
    · exact List.find?_cons_of_pos (List.isPrefixOf_iff_prefix.mpr (List.prefix_append e.1 rest))
    · have hyields := List.all_eq_true.mp ho.1 e he
      have hnot : ¬ f.1 <+: e.1 ++ rest := by
        intro hf
        simp only [yields, Bool.and_eq_true, Bool.not_eq_true', Bool.or_eq_true,
          ← Bool.not_eq_true, List.isPrefixOf_iff_prefix, List.any_eq_true] at hyields
        rcases List.prefix_or_prefix_of_prefix hf (List.prefix_append e.1 rest) with h | h
        · exact hyields.1 h
        · obtain ⟨t, ht, hstart⟩ := hyields.2.resolve_left fun hn => hn h
          obtain ⟨tail, htail⟩ := h
          rw [← htail, List.drop_left] at hstart
          rw [← htail, List.prefix_append_right_inj] at hf
          exact hc t ht (hstart.trans hf)
      rw [List.find?_cons_of_neg (by rwa [List.isPrefixOf_iff_prefix])]
      exact ih ho.2 he

/-- A name before a calm text is the one that is found. -/
theorem matchStart?_append {name : Text} {shape : Intervals}
    (h : (name, shape) ∈ standard.entries) {rest : Text} (hc : Calm rest) :
    standard.matchStart? (name ++ rest) = some (name, shape) :=
  find?_orderly standard_orderly.1 h hc

theorem starts_of_mem {e : Text × Intervals} (h : e ∈ standard.entries) :
    (∃ t ∈ continuations, t <+: e.1) ∧ (∃ c r, e.1 = c :: r ∧ c ∈ ['M', 'A', 'D', 'S']) ∧
      ∀ c ∈ e.1, c.isUpper = true ∨ c.isDigit = true ∨ c = '%' := by
  have hcheck := List.all_eq_true.mp standard_orderly.2 e h
  simp only [Bool.and_eq_true, List.any_eq_true, List.isPrefixOf_iff_prefix, Option.any_eq_true,
    List.contains_iff_mem, List.all_eq_true, Bool.or_eq_true, or_assoc, beq_iff_eq] at hcheck
  obtain ⟨⟨hstart, c, hc, hmem⟩, hchars⟩ := hcheck
  refine ⟨hstart, ?_, hchars⟩
  cases hname : e.1 with
  | nil =>
    rw [hname] at hc
    cases hc
  | cons d r =>
    rw [hname] at hc
    exact ⟨d, r, rfl, Option.some.inj hc ▸ hmem⟩

theorem matchStart?_none {rest : Text} (hc : Calm rest) : standard.matchStart? rest = none := by
  rw [matchStart?, List.find?_eq_none]
  intro e he
  rw [List.isPrefixOf_iff_prefix]
  obtain ⟨⟨t, ht, hstart⟩, -⟩ := starts_of_mem he
  exact fun h => hc t ht (hstart.trans h)

end ChordTable

end ScoreText
