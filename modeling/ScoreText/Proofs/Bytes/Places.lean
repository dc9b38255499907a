import ScoreText.Proofs.Text.Cutting
import ScoreText.Text.Utf8

/-!
Places in a text counted in bytes of its UTF-8 form. A place between two characters cuts the text in two;
one inside a character does not. A byte is seen as the character of its number, which is the character
itself where that takes one byte, and otherwise one beyond ASCII: what does not tell characters beyond ASCII
from one another sees bytes as it sees characters.
-/

set_option autoImplicit false

namespace ScoreText

namespace Text

/-- The parts before and after a place; none when the place is inside a character or beyond the text. -/
def splitAt? : Nat → Text → Option (Text × Text)
  | 0, s => some ([], s)
  | _ + 1, [] => none
  | n + 1, c :: r =>
    if c.utf8Size ≤ n + 1 then (splitAt? (n + 1 - c.utf8Size) r).map fun (a, b) => (c :: a, b) else none

/-- The text from one place to another. -/
def between? (s : Text) (start stop : Nat) : Option Text :=
  (splitAt? stop s).bind fun (before, _) => (splitAt? start before).map Prod.snd

/-- A byte as the character of its number. -/
def ofByte (b : UInt8) : Char := Char.ofNat b.toNat

/-- What is seen at a place. -/
def seen? (s : Text) (place : Nat) : Option Char := (utf8 s)[place]?.map ofByte

/-- Where a run of bytes from a place on ends that are all seen to be of a class. -/
def runEnd (p : Char → Bool) (s : Text) (place : Nat) : Nat :=
  place + (((utf8 s).drop place).takeWhile fun b => p (ofByte b)).length

/-- The place of the first of a character. -/
def find? (c : Char) : Text → Option Nat
  | [] => none
  | d :: r => if d = c then some 0 else (find? c r).map (· + d.utf8Size)

/-- The place of the last of a character. -/
def findLast? (c : Char) : Text → Option Nat
  | [] => none
  | d :: r =>
    match findLast? c r with
    | some place => some (place + d.utf8Size)
    | none => if d = c then some 0 else none

/-- The place in a text where an end of it begins. -/
def place (s t : Text) : Nat := byteSize s - byteSize t

/-- What is seen of a character: the first of its bytes. -/
def glance (c : Char) : Char := ofByte ((String.utf8EncodeChar c).headD 0)

/-- Characters beyond ASCII are not told from one another. -/
def Plain {α : Type} (q : Char → α) : Prop := ∀ c d : Char, 128 ≤ c.toNat → 128 ≤ d.toNat → q c = q d

/-! ### Bytes of characters -/

theorem toNat_ofByte (b : UInt8) : (ofByte b).toNat = b.toNat := by
  have hvalid : b.toNat.isValidChar := .inl (Nat.lt_trans b.toNat_lt (by decide))
  rw [ofByte, Char.ofNat, dif_pos hvalid]
  rfl

theorem encode_of_ascii {c : Char} (h : c.toNat < 128) :
    String.utf8EncodeChar c = [UInt8.ofNat c.toNat] := by
  have hle : c.val.toNat ≤ 127 := Nat.le_of_lt_succ h
  rw [String.utf8EncodeChar]
  exact if_pos hle

/-- All bytes of a character beyond ASCII are beyond ASCII. -/
theorem le_of_mem_encode {c : Char} (h : 128 ≤ c.toNat) :
    ∀ b ∈ String.utf8EncodeChar c, 128 ≤ (ofByte b).toNat := by
  have hbeyond : ¬ c.val.toNat ≤ 127 := Nat.not_le_of_lt h
  have hbyte : ∀ n, 128 ≤ n → n < 256 → 128 ≤ (ofByte (UInt8.ofNat n)).toNat := by
    intro n hlow hhigh
    rwa [toNat_ofByte, UInt8.toNat_ofNat', Nat.mod_eq_of_lt hhigh]
  simp only [String.utf8EncodeChar, if_neg hbeyond]
  intro b hb
  split at hb
  · simp only [List.mem_cons, List.not_mem_nil, or_false] at hb
    rcases hb with rfl | rfl <;> exact hbyte _ (by omega) (by omega)
  · split at hb
    · simp only [List.mem_cons, List.not_mem_nil, or_false] at hb
      rcases hb with rfl | rfl | rfl <;> exact hbyte _ (by omega) (by omega)
    · simp only [List.mem_cons, List.not_mem_nil, or_false] at hb
      rcases hb with rfl | rfl | rfl | rfl <;> exact hbyte _ (by omega) (by omega)

theorem ofByte_of_ascii {c : Char} (h : c.toNat < 128) : ofByte (UInt8.ofNat c.toNat) = c := by
  refine Char.toNat_inj.mp ?_
  rw [toNat_ofByte, UInt8.toNat_ofNat', Nat.mod_eq_of_lt (Nat.lt_trans h (by decide))]

theorem glance_of_ascii {c : Char} (h : c.toNat < 128) : glance c = c := by
  rw [glance, encode_of_ascii h, List.headD_cons, ofByte_of_ascii h]

theorem encode_eq_cons (c : Char) :
    ∃ b more, String.utf8EncodeChar c = b :: more ∧ glance c = ofByte b := by
  cases hbytes : String.utf8EncodeChar c with
  | nil => exact absurd hbytes String.utf8EncodeChar_ne_nil
  | cons b more => exact ⟨b, more, rfl, by rw [glance, hbytes, List.headD_cons]⟩

theorem le_glance {c : Char} (h : 128 ≤ c.toNat) : 128 ≤ (glance c).toNat := by
  obtain ⟨b, more, hbytes, hglance⟩ := encode_eq_cons c
  rw [hglance]
  exact le_of_mem_encode h b (hbytes ▸ List.mem_cons_self)

/-- A plain reading of a character sees it in its first byte. -/
theorem Plain.glance {α : Type} {q : Char → α} (hq : Plain q) (c : Char) : q (glance c) = q c := by
  rcases Nat.lt_or_ge c.toNat 128 with hascii | hbeyond
  · rw [glance_of_ascii hascii]
  · exact hq _ _ (le_glance hbeyond) hbeyond

theorem glance_eq_iff {a c : Char} (ha : a.toNat < 128) : Text.glance c = a ↔ c = a := by
  have hne : ∀ {e : Char}, 128 ≤ e.toNat → e ≠ a := fun he heq => Nat.not_le_of_lt ha (heq ▸ he)
  have hplain : Plain fun c => c = a := fun c d hc hd => propext (iff_of_false (hne hc) (hne hd))
  exact iff_of_eq (hplain.glance c)

/-- The first of a character ends the run of others. -/
theorem cut?_run (sep : Char) (s : Text) :
    s.dropWhile (· != sep) = [] ∧ cut? sep s = none ∨
      ∃ rest, s.dropWhile (· != sep) = sep :: rest ∧
        cut? sep s = some (s.takeWhile (· != sep), rest) := by
  induction s with
  | nil => exact .inl ⟨rfl, rfl⟩
  | cons c r ih =>
    by_cases hc : c = sep
    · exact .inr ⟨r, by simp [hc], by simp [cut?, hc]⟩
    · have hgo : (c != sep) = true := bne_iff_ne.mpr hc
      rw [cut?, if_neg hc]
      simp only [List.dropWhile_cons, List.takeWhile_cons, hgo, if_true]
      rcases ih with ⟨hnone, hcut⟩ | ⟨rest, hfound, hcut⟩
      · exact .inl ⟨hnone, by rw [hcut]; rfl⟩
      · exact .inr ⟨rest, hfound, by rw [hcut]; rfl⟩

/-! ### Places in a text -/

theorem utf8_append (a b : Text) : utf8 (a ++ b) = utf8 a ++ utf8 b := List.flatMap_append

theorem length_utf8 (s : Text) : (utf8 s).length = byteSize s := by
  induction s with
  | nil => rfl
  | cons c r ih =>
    rw [utf8, List.flatMap_cons, List.length_append, String.length_utf8EncodeChar, byteSize, ← ih, utf8]

theorem splitAt?_append (a b : Text) : splitAt? (byteSize a) (a ++ b) = some (a, b) := by
  induction a with
  | nil => rw [byteSize, splitAt?, List.nil_append]
  | cons c r ih =>
    obtain ⟨n, hn⟩ : ∃ n, byteSize (c :: r) = n + 1 :=
      ⟨byteSize (c :: r) - 1, by have := c.utf8Size_pos; simp only [byteSize]; omega⟩
    have hrest : n + 1 - c.utf8Size = byteSize r := by rw [← hn, byteSize, Nat.add_sub_cancel_left]
    have hfits : c.utf8Size ≤ n + 1 := by
      rw [← hn, byteSize]
      exact Nat.le_add_right _ _
    rw [hn, List.cons_append, splitAt?, if_pos hfits, hrest, ih]
    rfl

theorem find?_append {c : Char} {a : Text} (h : c ∉ a) (b : Text) : find? c (a ++ c :: b) = some (byteSize a) := by
  induction a with
  | nil => rw [List.nil_append, find?, if_pos rfl, byteSize]
  | cons d r ih =>
    rw [List.mem_cons, not_or] at h
    rw [List.cons_append, find?, if_neg (Ne.symm h.1), ih h.2, Option.map_some, byteSize, Nat.add_comm]

theorem find?_none {c : Char} {s : Text} (h : c ∉ s) : find? c s = none := by
  induction s with
  | nil => rfl
  | cons d r ih =>
    rw [List.mem_cons, not_or] at h
    rw [find?, if_neg (Ne.symm h.1), ih h.2]
    rfl

theorem findLast?_none {c : Char} {s : Text} (h : c ∉ s) : findLast? c s = none := by
  induction s with
  | nil => rfl
  | cons d r ih =>
    rw [List.mem_cons, not_or] at h
    rw [findLast?, ih h.2]
    exact if_neg (Ne.symm h.1)

theorem findLast?_append (a : Text) {c : Char} {b : Text} (h : c ∉ b) :
    findLast? c (a ++ c :: b) = some (byteSize a) := by
  induction a with
  | nil =>
    rw [List.nil_append, findLast?, findLast?_none h]
    exact if_pos rfl
  | cons d r ih =>
    rw [List.cons_append, findLast?, ih, byteSize, Nat.add_comm]

theorem cutLast?_append (a : Text) {c : Char} {b : Text} (h : c ∉ b) :
    cutLast? c (a ++ c :: b) = some (a, b) := by
  have hreverse : (a ++ c :: b).reverse = b.reverse ++ c :: a.reverse := by simp
  rw [cutLast?, hreverse, cut?_append (by simpa using h)]
  simp

theorem cutLast?_none {c : Char} {s : Text} (h : c ∉ s) : cutLast? c s = none := by
  rw [cutLast?, cut?_none (by simpa using h)]
  rfl

/-- A text in which a character is, cut at the last of it. -/
theorem exists_last {c : Char} {s : Text} (h : c ∈ s) : ∃ a b, s = a ++ c :: b ∧ c ∉ b := by
  obtain ⟨b, a, hsplit, hfree⟩ := List.eq_append_cons_of_mem (List.mem_reverse.mpr h)
  refine ⟨a.reverse, b.reverse, ?_, by simpa using hfree⟩
  rw [← List.reverse_reverse s, hsplit]
  simp

theorem length_le_byteSize (s : Text) : s.length ≤ byteSize s := by
  induction s with
  | nil => exact Nat.le_refl _
  | cons c r ih =>
    have hpos := c.utf8Size_pos
    simp only [List.length_cons, byteSize]
    omega

theorem place_append (a t : Text) : place (a ++ t) t = byteSize a := by
  rw [place, byteSize_append, Nat.add_sub_cancel]

@[simp] theorem place_self (s : Text) : place s s = 0 := Nat.sub_self _

@[simp] theorem place_nil (s : Text) : place s [] = byteSize s := rfl

section

variable {s t r : Text} {c : Char}

theorem splitAt?_place (h : t <:+ s) : ∃ taken, s = taken ++ t ∧ splitAt? (place s t) s = some (taken, t) := by
  obtain ⟨taken, rfl⟩ := h
  exact ⟨taken, rfl, by rw [place_append, splitAt?_append]⟩

theorem between?_place {middle : Text} (h : middle ++ t <:+ s) :
    between? s (place s (middle ++ t)) (place s t) = some middle := by
  obtain ⟨a, rfl⟩ := h
  have hstop : place (a ++ (middle ++ t)) t = byteSize (a ++ middle) := by
    rw [← List.append_assoc, place_append]
  have hsplit : splitAt? (byteSize (a ++ middle)) (a ++ (middle ++ t)) = some (a ++ middle, t) := by
    rw [← List.append_assoc, splitAt?_append]
  rw [between?, hstop, hsplit, place_append]
  exact congrArg (Option.map Prod.snd) (splitAt?_append a middle)

theorem seen?_nil (s : Text) : seen? s (place s []) = none := by
  rw [seen?, place_nil, List.getElem?_eq_none (Nat.le_of_eq (length_utf8 s))]
  rfl

theorem seen?_place (h : c :: r <:+ s) : seen? s (place s (c :: r)) = some (glance c) := by
  obtain ⟨a, rfl⟩ := h
  obtain ⟨b, more, hbytes, hglance⟩ := encode_eq_cons c
  have htail : utf8 (c :: r) = b :: (more ++ utf8 r) := by
    rw [utf8, List.flatMap_cons, hbytes]
    rfl
  rw [seen?, place_append, ← length_utf8, utf8_append, htail, List.getElem?_append_right (Nat.le_refl _),
    Nat.sub_self, hglance]
  rfl

/-- What is seen at the place of an end of a text, in terms of its characters. -/
theorem seen?_place_eq (h : t <:+ s) : seen? s (place s t) = t.head?.map glance := by
  cases t with
  | nil => exact seen?_nil s
  | cons c r => exact seen?_place h

theorem seen?_eq_some_iff (h : t <:+ s) {a : Char} (ha : a.toNat < 128) :
    seen? s (place s t) = some a ↔ t.head? = some a := by
  cases t with
  | nil =>
    rw [seen?_nil]
    rfl
  | cons c r => rw [seen?_place h, Option.some.injEq, glance_eq_iff ha, List.head?_cons, Option.some.injEq]

theorem seen?_ascii (h : c :: r <:+ s) (hc : c.toNat < 128) : seen? s (place s (c :: r)) = some c := by
  rw [seen?_place h, glance_of_ascii hc]

theorem seen?_ne (h : t <:+ s) {a : Char} (ha : a.toNat < 128) (hne : ∀ r, t ≠ a :: r) :
    seen? s (place s t) ≠ some a := by
  intro hseen
  obtain ⟨r, hr⟩ := List.head?_eq_some_iff.mp ((seen?_eq_some_iff h ha).mp hseen)
  exact hne r hr

theorem place_cons (h : c :: r <:+ s) : place s r = place s (c :: r) + c.utf8Size := by
  obtain ⟨a, rfl⟩ := h
  have hsplit : a ++ c :: r = (a ++ [c]) ++ r := by simp
  rw [place_append, hsplit, place_append, byteSize_append]
  rfl

theorem place_tail (h : c :: r <:+ s) (hc : c.toNat < 128) : place s r = place s (c :: r) + 1 := by
  rw [place_cons h, Char.utf8Size_eq_one_iff.mpr (Nat.le_of_lt_succ hc)]

/-- An end of a text begins after all that is longer. -/
theorem place_lt (hs : s ≠ []) (h : t <:+ s.tail) : 0 < place s t := by
  obtain ⟨c, r, rfl⟩ := List.exists_cons_of_ne_nil hs
  obtain ⟨a, rfl⟩ := h
  have hpos := c.utf8Size_pos
  have hsplit : c :: (a ++ t) = (c :: a) ++ t := rfl
  rw [hsplit, place_append, byteSize]
  omega

theorem place_le (s t : Text) : place s t ≤ byteSize s := Nat.sub_le _ _

theorem place_lt_place (ht : t ≠ []) (h : t <:+ s) (hr : r <:+ t.tail) : place s t < place s r := by
  obtain ⟨c, u, rfl⟩ := List.exists_cons_of_ne_nil ht
  obtain ⟨a, rfl⟩ := hr
  obtain ⟨front, rfl⟩ := h
  have hpos := c.utf8Size_pos
  have hsplit : front ++ c :: (a ++ r) = (front ++ c :: a) ++ r := by simp
  have hlater : place (front ++ c :: (a ++ r)) r = byteSize (front ++ c :: a) := by
    rw [hsplit, place_append]
  rw [hlater, place_append, byteSize_append, byteSize]
  omega

/-- A run of bytes is a run of characters. -/
theorem length_takeWhile_utf8 {p : Char → Bool} (hp : Plain p) (t : Text) :
    ((utf8 t).takeWhile fun b => p (ofByte b)).length = byteSize (t.takeWhile p) := by
  induction t with
  | nil => rfl
  | cons c r ih =>
    have hbytes : utf8 (c :: r) = String.utf8EncodeChar c ++ utf8 r := List.flatMap_cons
    have hall : ∀ b ∈ String.utf8EncodeChar c, p (ofByte b) = p c := by
      intro b hb
      rcases Nat.lt_or_ge c.toNat 128 with hascii | hbeyond
      · rw [encode_of_ascii hascii, List.mem_singleton] at hb
        rw [hb, ofByte_of_ascii hascii]
      · exact hp _ _ (le_of_mem_encode hbeyond b hb) hbeyond
    by_cases hc : p c = true
    · rw [hbytes, List.takeWhile_append_of_pos fun b hb => (hall b hb).trans hc, List.length_append, ih,
        List.takeWhile_cons_of_pos hc, byteSize, String.length_utf8EncodeChar]
    · obtain ⟨b, more, hcons, -⟩ := encode_eq_cons c
      have hfirst : ¬ p (ofByte b) = true := by
        rw [hall b (hcons ▸ List.mem_cons_self)]
        exact hc
      rw [hbytes, hcons, List.cons_append, List.takeWhile_cons_of_neg (by exact hfirst),
        List.takeWhile_cons_of_neg hc]
      rfl

theorem runEnd_place {p : Char → Bool} (hp : Plain p) (h : t <:+ s) :
    runEnd p s (place s t) = place s (t.dropWhile p) := by
  obtain ⟨a, rfl⟩ := h
  have hrest : (utf8 (a ++ t)).drop (byteSize a) = utf8 t := by
    rw [← length_utf8, utf8_append, List.drop_left]
  have hsplit : a ++ t = (a ++ t.takeWhile p) ++ t.dropWhile p := by
    rw [List.append_assoc, List.takeWhile_append_dropWhile]
  have hend : place (a ++ t) (t.dropWhile p) = byteSize (a ++ t.takeWhile p) :=
    (congrArg (fun s => place s (t.dropWhile p)) hsplit).trans (place_append _ _)
  rw [runEnd, place_append, hrest, length_takeWhile_utf8 hp, hend, byteSize_append]

theorem between?_run {p : Char → Bool} (hp : Plain p) (h : t <:+ s) :
    between? s (place s t) (runEnd p s (place s t)) = some (t.takeWhile p) := by
  rw [runEnd_place hp h]
  have hwhole : t.takeWhile p ++ t.dropWhile p <:+ s := by rwa [List.takeWhile_append_dropWhile]
  have hbetween := between?_place hwhole
  rwa [List.takeWhile_append_dropWhile] at hbetween

end

end Text

end ScoreText
