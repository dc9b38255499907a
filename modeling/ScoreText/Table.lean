import ScoreText.Text.Basic

/-!
Tables from names to values. A name has at most one value; the order of the entries is no part of
what a table says.
-/

set_option autoImplicit false

namespace ScoreText

structure Table (V : Type) where
  entries : List (Text × V) := []

namespace Table

variable {V : Type}

def empty : Table V := {}

def get? (t : Table V) (name : Text) : Option V := t.entries.lookup name

def erase (t : Table V) (name : Text) : Table V := ⟨t.entries.filter fun e => !e.1 == name⟩

/-- Gives the name this value, in place of any it had. -/
def insert (t : Table V) (name : Text) (value : V) : Table V :=
  ⟨(name, value) :: (t.erase name).entries⟩

def size (t : Table V) : Nat := t.entries.length

def isEmpty (t : Table V) : Bool := t.entries.isEmpty

def ofList (entries : List (Text × V)) : Table V :=
  entries.foldl (fun t e => t.insert e.1 e.2) empty

@[simp] theorem get?_empty (name : Text) : (empty : Table V).get? name = none := rfl

theorem lookup_cons_if (name k : Text) (v : V) (r : List (Text × V)) :
    ((k, v) :: r).lookup name = if name = k then some v else r.lookup name := by
  by_cases h : name = k
  · simp [h]
  · have hb : (name == k) = false := by simpa using h
    simp [List.lookup_cons, hb, h]

theorem lookup_filter_ne (entries : List (Text × V)) (erased name : Text) :
    (entries.filter fun e => !e.1 == erased).lookup name =
      if name = erased then none else entries.lookup name := by
  induction entries with
  | nil => simp
  | cons e r ih =>
    obtain ⟨k, v⟩ := e
    by_cases hk : k = erased
    · subst hk
      simp only [List.filter_cons, beq_self_eq_true, Bool.not_true, Bool.false_eq_true, if_false,
        ih, lookup_cons_if]
      split <;> rfl
    · have hb : (k == erased) = false := by simpa using hk
      simp only [List.filter_cons, hb, Bool.not_false, if_true, lookup_cons_if, ih]
      split <;> simp_all

/-- Where names are distinct, the value of one is that of its entry. -/
theorem lookup_eq_some_iff_of_nodup {entries : List (Text × V)} (h : (entries.map Prod.fst).Nodup) (name : Text)
    (value : V) : entries.lookup name = some value ↔ (name, value) ∈ entries := by
  rw [List.lookup_eq_some_iff]
  constructor
  · rintro ⟨front, back, hsplit, -⟩
    rw [hsplit]
    exact List.mem_append_right front List.mem_cons_self
  · intro hmem
    obtain ⟨front, back, hsplit⟩ := List.append_of_mem hmem
    refine ⟨front, back, hsplit, fun e he => ?_⟩
    rw [hsplit, List.map_append, List.nodup_append] at h
    have hne := h.2.2 e.1 (List.mem_map_of_mem he) name List.mem_cons_self
    simpa using hne.symm

@[simp] theorem get?_erase (t : Table V) (erased name : Text) :
    (t.erase erased).get? name = if name = erased then none else t.get? name :=
  lookup_filter_ne t.entries erased name

@[simp] theorem get?_insert (t : Table V) (inserted name : Text) (value : V) :
    (t.insert inserted value).get? name = if name = inserted then some value else t.get? name := by
  simp only [insert, get?, erase, lookup_cons_if, lookup_filter_ne]
  split <;> rfl

end Table

end ScoreText
