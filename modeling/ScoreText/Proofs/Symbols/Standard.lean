import Mathlib.Data.List.Nodup
import ScoreText.Proofs.Expansion.Plain

/-!
The standard symbols: every program and every percussion note is found by its name.
-/

set_option autoImplicit false

namespace ScoreText

namespace Symbols

theorem get?_define (s : Symbols) (defined name : Text) (value : Int) :
    (s.define defined value).get? name =
      if name = Text.upper defined then some value else s.get? name :=
  Table.get?_insert s (Text.upper defined) name value

/-- Where a name recurs its last meaning holds. -/
theorem get?_defineAll (s : Symbols) (entries : List (Text × Int)) (name : Text) :
    (s.defineAll entries).get? name =
      (((entries.map fun e => (Text.upper e.1, e.2)).reverse).lookup name).or (s.get? name) := by
  induction entries generalizing s with
  | nil => rfl
  | cons e rest ih =>
    rw [defineAll, List.foldl_cons, ← defineAll, ih, get?_define, List.map_cons, List.reverse_cons,
      List.lookup_append]
    cases List.lookup name ((rest.map fun e => (Text.upper e.1, e.2)).reverse) with
    | some value => rfl
    | none =>
      rw [Table.lookup_cons_if]
      split <;> simp

/-- All standard entries, in the order in which they are defined. -/
def standardEntries : List (Text × Int) :=
  ("PERCUSSION".toList, (percussionTrack : Int)) :: numbered 0 instrumentNames
    ++ instrumentAliases ++ numbered lowestPercussion percussionNames ++ tempoNames
    ++ controllerNames

/-- The characters that standard names are made of. -/
def isSymbolChar (c : Char) : Bool := c.isUpper || c.isDigit || c == '_' || c == '-'

theorem isSymbolChar_spec {c : Char} (h : isSymbolChar c = true) :
    Expansion.plainChar c = true ∧ c.toUpper = c ∧ c ≠ ']' ∧ c ≠ ' ' ∧ c ≠ ':' := by
  have hascii : c.toNat < 128 := by
    simp only [isSymbolChar, Bool.or_eq_true, beq_iff_eq] at h
    rcases h with ((h | h) | h) | h
    · exact Text.lt_of_isAlphanum (Text.isAlphanum_of_isUpper h)
    · exact Text.lt_of_isAlphanum (Text.isAlphanum_of_isDigit h)
    · exact h ▸ (by decide)
    · exact h ▸ (by decide)
  have hall : ∀ n < 128, isSymbolChar (Char.ofNat n) = true →
      Expansion.plainChar (Char.ofNat n) = true ∧ (Char.ofNat n).toUpper = Char.ofNat n ∧
        Char.ofNat n ≠ ']' ∧ Char.ofNat n ≠ ' ' ∧ Char.ofNat n ≠ ':' := by
    decide
  exact Expansion.forall_ascii (P := fun c => isSymbolChar c = true → Expansion.plainChar c = true ∧
    c.toUpper = c ∧ c ≠ ']' ∧ c ≠ ' ' ∧ c ≠ ':') hall hascii h

theorem upper_symbol {name : Text} (h : ∀ c ∈ name, isSymbolChar c = true) :
    Text.upper name = name := by
  have hascii : ∀ c ∈ name, c.toNat < 128 := fun c hc =>
    (Expansion.plainChar_spec (isSymbolChar_spec (h c hc)).1).1
  rw [Expansion.upper_of_ascii hascii]
  conv => rhs; rw [← List.map_id name]
  exact List.map_congr_left fun c hc => (isSymbolChar_spec (h c hc)).2.1

/-- A name as a number, so that names are told apart by comparing numbers. -/
def code (name : Text) : Nat := name.foldl (fun n c => n * 256 + c.toNat) 0

def allDistinct : List Nat → Bool
  | [] => true
  | n :: rest => rest.all (fun m => !Nat.beq n m) && allDistinct rest

theorem nodup_of_allDistinct {l : List Nat} (h : allDistinct l = true) : l.Nodup := by
  induction l with
  | nil => exact List.nodup_nil
  | cons n rest ih =>
    rw [allDistinct, Bool.and_eq_true] at h
    refine List.nodup_cons.mpr ⟨fun hn => ?_, ih h.2⟩
    have := List.all_eq_true.mp h.1 n hn
    simp at this

theorem standardEntries_check :
    (standardEntries.all fun e => e.1.all isSymbolChar && e.1.any Char.isUpper) = true ∧
      allDistinct (standardEntries.map fun e => code e.1) = true := by
  decide +kernel

theorem isSymbolChar_of_mem {e : Text × Int} (he : e ∈ standardEntries) :
    ∀ c ∈ e.1, isSymbolChar c = true :=
  List.all_eq_true.mp (Bool.and_eq_true _ _ ▸ List.all_eq_true.mp standardEntries_check.1 e he).1

theorem exists_isUpper_of_mem {e : Text × Int} (he : e ∈ standardEntries) :
    ∃ c ∈ e.1, c.isUpper = true :=
  List.any_eq_true.mp (Bool.and_eq_true _ _ ▸ List.all_eq_true.mp standardEntries_check.1 e he).2

theorem get?_standard {name : Text} {value : Int} (h : (name, value) ∈ standardEntries) :
    standard.get? name = some value := by
  have hupper : (standardEntries.map fun e => (Text.upper e.1, e.2)) = standardEntries := by
    conv => rhs; rw [← List.map_id standardEntries]
    exact List.map_congr_left fun e he => by
      rw [upper_symbol (isSymbolChar_of_mem he)]
      rfl
  have hnodup : (standardEntries.reverse.map Prod.fst).Nodup := by
    rw [List.map_reverse, List.nodup_reverse]
    refine List.Nodup.of_map code ?_
    rw [List.map_map]
    exact nodup_of_allDistinct standardEntries_check.2
  have hlookup : standardEntries.reverse.lookup name = some value :=
    (Table.lookup_eq_some_iff_of_nodup hnodup name value).mpr (List.mem_reverse.mpr h)
  rw [standard, ← standardEntries, get?_defineAll, hupper, hlookup]
  rfl

theorem find?_of_mem {name : Text} {value : Int} (h : (name, value) ∈ standardEntries) :
    standard.find? name = some value := by
  rw [find?, get?_standard h]
  rfl

theorem mem_numbered (first : Int) {names : List Text} {n : Nat} {name : Text}
    (h : names[n]? = some name) : (name, first + n) ∈ numbered first names := by
  refine List.mem_map.mpr ⟨(name, n), ?_, rfl⟩
  rwa [List.mem_zipIdx_iff_getElem?]

theorem mem_instrument {n : Nat} {name : Text} (h : instrumentNames[n]? = some name) :
    (name, (n : Int)) ∈ standardEntries := by
  have := mem_numbered 0 h
  rw [Int.zero_add] at this
  simp only [standardEntries, List.mem_append, List.mem_cons]
  exact .inl (.inl (.inl (.inl (.inr this))))

theorem mem_percussion {note : Nat} {name : Text} (h : percussionName? note = some name) :
    (name, (note : Int)) ∈ standardEntries := by
  unfold percussionName? at h
  split at h
  · cases h
  · rename_i hlow
    have := mem_numbered lowestPercussion h
    have hnote : (lowestPercussion : Int) + (note - lowestPercussion : Nat) = note := by omega
    rw [hnote] at this
    simp only [standardEntries, List.mem_append, List.mem_cons]
    exact .inl (.inl (.inr this))

theorem percussionName?_le {note : Nat} {name : Text} (h : percussionName? note = some name) :
    note ≤ 81 := by
  unfold percussionName? at h
  split at h
  · cases h
  · have := (List.getElem?_eq_some_iff.mp h).1
    have hlen : percussionNames.length = 47 := by
      rw [percussionNames, List.length_map]
      rfl
    have hlow : lowestPercussion = 35 := rfl
    omega

theorem length_instrumentNames : instrumentNames.length = 128 := by
  rw [instrumentNames, List.length_map]
  rfl

end Symbols

end ScoreText
