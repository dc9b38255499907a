import Mathlib.Data.Char
import Mathlib.Data.List.Lex
import Mathlib.Data.List.Nodup
import ScoreText.Proofs.Text.Cutting
import ScoreText.Table
import ScoreText.Text.Utf8
import ScoreText.Theory.ChordTable

/-!
Chord tables as their users change them. Every table that can come about lists its names longest first and by
the alphabet where they are as long, each of them once, so that the first entry with some property is the one
that its name puts before all others with it: the longest name that starts a text, and one settled name for
a shape.
-/

set_option autoImplicit false

namespace ScoreText

namespace Text

/-! ### Characters and their bytes are in one order -/

/-- Numbers are ordered as the digits that the four bytes of a character hold. -/
theorem digits_lt {m n : Nat} (h : m < n) :
    m / 262144 < n / 262144 ∨ m / 262144 = n / 262144 ∧
      (m / 4096 % 64 < n / 4096 % 64 ∨ m / 4096 % 64 = n / 4096 % 64 ∧
        (m / 64 % 64 < n / 64 % 64 ∨ m / 64 % 64 = n / 64 % 64 ∧ m % 64 < n % 64)) := by
  have hnest : ∀ k : Nat, k / 4096 = k / 64 / 64 ∧ k / 262144 = k / 64 / 64 / 64 := fun k => by
    simp only [Nat.div_div_eq_div_mul, and_self]
  rw [(hnest m).1, (hnest m).2, (hnest n).1, (hnest n).2]
  omega

theorem encode_lt_encode {c d : Char} (h : c < d) (x y : List UInt8) :
    String.utf8EncodeChar c ++ x < String.utf8EncodeChar d ++ y := by
  have hlt : c.val.toNat < d.val.toNat := h
  have hbound : d.val.toNat < 0x110000 := by
    rcases d.valid with h | h <;> omega
  have hbyte : ∀ k, (k % 8 + 240) % 2 ^ 8 = k % 8 + 240 ∧ (k % 64 + 128) % 2 ^ 8 = k % 64 + 128 := by omega
  simp only [String.utf8EncodeChar]
  generalize c.val.toNat = m at *
  generalize d.val.toNat = n at *
  by_cases hwide : 65535 < m
  · have hm : ¬ m ≤ 127 ∧ ¬ m ≤ 2047 ∧ ¬ m ≤ 65535 := by omega
    have hn : ¬ n ≤ 127 ∧ ¬ n ≤ 2047 ∧ ¬ n ≤ 65535 := by omega
    have hfirst : m / 262144 % 8 = m / 262144 ∧ n / 262144 % 8 = n / 262144 := by omega
    have hdigits := digits_lt hlt
    simp only [hm, hn, if_false, List.cons_append, List.cons_lt_cons_iff, UInt8.lt_iff_toNat_lt,
      UInt8.toNat_ofNat', ← UInt8.toNat_inj, hbyte]
    omega
  · -- The first bytes tell a character of few bytes from one of more.
    split_ifs
    all_goals
      simp only [List.cons_append, List.nil_append, List.cons_lt_cons_iff, UInt8.lt_iff_toNat_lt,
        UInt8.toNat_ofNat', ← UInt8.toNat_inj]
      omega

theorem utf8_lt_utf8 {s t : Text} (h : s < t) : utf8 s < utf8 t := by
  induction h with
  | @nil c r =>
    obtain ⟨b, more, hbytes⟩ := List.exists_cons_of_ne_nil (String.utf8EncodeChar_ne_nil (c := c))
    simp only [utf8, List.flatMap_nil, List.flatMap_cons, hbytes, List.cons_append]
    exact .nil
  | cons _ ih => exact List.append_left_lt ih
  | rel h => exact encode_lt_encode h _ _

/-- Texts are in one order by their characters and by their bytes. -/
theorem utf8_le_utf8_iff {s t : Text} : utf8 s ≤ utf8 t ↔ s = t ∨ s < t := by
  constructor
  · intro h
    rcases lt_trichotomy s t with hlt | heq | hgt
    · exact .inr hlt
    · exact .inl heq
    · exact absurd (utf8_lt_utf8 hgt) h
  · rintro (rfl | hlt)
    · exact List.le_refl _
    · exact List.le_of_lt (utf8_lt_utf8 hlt)

end Text

/-- In a list whose order is strict, the first with a property is the one that is before all others with it. -/
theorem find?_eq_some_iff_of_pairwise {α : Type} {r : α → α → Prop} (hr : ∀ a b, r a b → ¬ r b a) {l : List α}
    (h : l.Pairwise r) (p : α → Bool) (a : α) :
    l.find? p = some a ↔ a ∈ l ∧ p a = true ∧ ∀ b ∈ l, p b = true → b = a ∨ r a b := by
  induction l with
  | nil => simp
  | cons x rest ih =>
    obtain ⟨hx, hrest⟩ := List.pairwise_cons.mp h
    by_cases hp : p x = true
    · rw [List.find?_cons_of_pos hp, Option.some.injEq]
      constructor
      · rintro rfl
        exact ⟨List.mem_cons_self, hp, fun b hb _ => (List.mem_cons.mp hb).imp_right (hx b)⟩
      · rintro ⟨ha, -, hfirst⟩
        rcases hfirst x List.mem_cons_self hp with heq | hax
        · exact heq
        · rcases List.mem_cons.mp ha with heq | ha
          · exact heq.symm
          · exact absurd hax (hr x a (hx a ha))
    · rw [List.find?_cons_of_neg hp, ih hrest]
      have hne : ∀ {b}, p b = true → b ≠ x := fun hb heq => hp (heq ▸ hb)
      constructor
      · rintro ⟨ha, hpa, hfirst⟩
        exact ⟨List.mem_cons_of_mem x ha, hpa, fun b hb hpb =>
          hfirst b ((List.mem_cons.mp hb).resolve_left (hne hpb)) hpb⟩
      · rintro ⟨ha, hpa, hfirst⟩
        exact ⟨(List.mem_cons.mp ha).resolve_left (hne hpa), hpa, fun b hb =>
          hfirst b (List.mem_cons_of_mem x hb)⟩

namespace ChordTable

open Text

/-! ### The order of names -/

/-- One name comes before another: it has more bytes, or as many and is first by the alphabet. -/
def Before (a b : Text) : Prop := byteSize b < byteSize a ∨ byteSize a = byteSize b ∧ a < b

theorem Before.irrefl (a : Text) : ¬ Before a a := by
  rintro (h | ⟨-, h⟩)
  · exact Nat.lt_irrefl _ h
  · exact lt_irrefl a h

theorem Before.trans {a b c : Text} (hab : Before a b) (hbc : Before b c) : Before a c := by
  rcases hab with hab | ⟨hab, hlt⟩ <;> rcases hbc with hbc | ⟨hbc, hlt'⟩
  · exact .inl (Nat.lt_trans hbc hab)
  · exact .inl (hbc ▸ hab)
  · exact .inl (hab ▸ hbc)
  · exact .inr ⟨hab.trans hbc, lt_trans hlt hlt'⟩

theorem Before.asymm {a b : Text} (hab : Before a b) : ¬ Before b a := fun hba =>
  Before.irrefl a (hab.trans hba)

theorem Before.ne {a b : Text} (hab : Before a b) : a ≠ b := fun heq => Before.irrefl b (heq ▸ hab)

theorem before_or_eq_or_before (a b : Text) : Before a b ∨ a = b ∨ Before b a := by
  rcases Nat.lt_trichotomy (byteSize a) (byteSize b) with h | h | h
  · exact .inr (.inr (.inl h))
  · rcases lt_trichotomy a b with hlt | heq | hlt
    · exact .inl (.inr ⟨h, hlt⟩)
    · exact .inr (.inl heq)
    · exact .inr (.inr (.inr ⟨h.symm, hlt⟩))
  · exact .inl (.inl h)

theorem alphabetical_iff (a b : Text) : alphabetical a b = true ↔ a = b ∨ a < b := by
  fun_induction alphabetical a b with
  | case1 b => cases b <;> simp
  | case2 c r => simp
  | case3 c r d s ih =>
    simp only [Bool.or_eq_true, decide_eq_true_eq, Bool.and_eq_true, beq_iff_eq, ih, List.cons_lt_cons_iff,
      List.cons.injEq]
    tauto

theorem precedes_iff (a b : Text) : precedes a b = true ↔ a = b ∨ Before a b := by
  simp only [precedes, Bool.or_eq_true, Bool.and_eq_true, decide_eq_true_eq, beq_iff_eq, alphabetical_iff, Before]
  constructor
  · rintro (h | ⟨h, rfl | hlt⟩)
    · exact .inr (.inl h)
    · exact .inl rfl
    · exact .inr (.inr ⟨h, hlt⟩)
  · rintro (rfl | h | ⟨h, hlt⟩)
    · exact .inr ⟨rfl, .inl rfl⟩
    · exact .inl h
    · exact .inr ⟨h, .inr hlt⟩

/-- The order of entries as their bytes have it. -/
def inByteOrder (e f : Text × Intervals) : Bool :=
  byteSize f.1 < byteSize e.1 || (byteSize e.1 == byteSize f.1 && utf8 e.1 ≤ utf8 f.1)

theorem inByteOrder_eq (e f : Text × Intervals) : inByteOrder e f = precedes e.1 f.1 := by
  rw [Bool.eq_iff_iff]
  simp only [inByteOrder, precedes, Bool.or_eq_true, Bool.and_eq_true, decide_eq_true_eq, utf8_le_utf8_iff,
    alphabetical_iff]

theorem inByteOrder_iff (e f : Text × Intervals) : inByteOrder e f = true ↔ e.1 = f.1 ∨ Before e.1 f.1 := by
  rw [inByteOrder_eq, precedes_iff]

/-! ### Tables in order -/

/-- Entries stand in the order of their names, no name twice. -/
def Ordered (entries : List (Text × Intervals)) : Prop := entries.Pairwise fun e f => Before e.1 f.1

variable {entries : List (Text × Intervals)} {e : Text × Intervals}

theorem Ordered.nodup (h : Ordered entries) : (entries.map Prod.fst).Nodup :=
  List.pairwise_map.mpr (List.Pairwise.imp Before.ne h)

/-- A name has one entry. -/
theorem Ordered.eq_of_name (h : Ordered entries) {f : Text × Intervals} (he : e ∈ entries) (hf : f ∈ entries)
    (hname : e.1 = f.1) : e = f := List.inj_on_of_nodup_map h.nodup he hf hname

/-- Sorting entries in any order gives them in order. -/
theorem Ordered.mergeSort_eq (h : Ordered entries) {m : List (Text × Intervals)} (hm : m.Perm entries) :
    m.mergeSort inByteOrder = entries := by
  have hperm : (m.mergeSort inByteOrder).Perm entries := (List.mergeSort_perm m inByteOrder).trans hm
  refine List.Perm.eq_of_pairwise (fun e f he hf hef hfe => ?_)
    (List.pairwise_mergeSort (fun e f g hef hfg => ?_) (fun e f => ?_) m)
    (List.Pairwise.imp (fun {e f} hef => ?_) h) hperm
  · refine h.eq_of_name (hperm.mem_iff.mp he) hf ?_
    rcases (inByteOrder_iff e f).mp hef with heq | hef
    · exact heq
    · rcases (inByteOrder_iff f e).mp hfe with heq | hfe
      · exact heq.symm
      · exact absurd hfe hef.asymm
  · rw [inByteOrder_iff] at hef hfg ⊢
    rcases hef with heq | hef
    · rwa [heq]
    · rcases hfg with heq | hfg
      · exact .inr (heq ▸ hef)
      · exact .inr (hef.trans hfg)
  · simp only [Bool.or_eq_true, inByteOrder_iff]
    rcases before_or_eq_or_before e.1 f.1 with hef | heq | hfe
    · exact .inl (.inr hef)
    · exact .inl (.inl heq)
    · exact .inr (.inr hfe)
  · exact (inByteOrder_iff e f).mpr (.inr hef)

theorem place_perm (e : Text × Intervals) (entries : List (Text × Intervals)) :
    (place e entries).Perm (e :: entries) := by
  induction entries with
  | nil => exact List.Perm.refl _
  | cons f rest ih =>
    rw [place]
    split
    · exact List.Perm.refl _
    · exact (ih.cons f).trans (List.Perm.swap e f rest)

theorem Ordered.place (h : Ordered entries) (hnew : e.1 ∉ entries.map Prod.fst) :
    Ordered (place e entries) := by
  induction entries with
  | nil => exact List.pairwise_singleton _ _
  | cons f rest ih =>
    obtain ⟨hf, hrest⟩ := List.pairwise_cons.mp h
    simp only [List.map_cons, List.mem_cons, not_or] at hnew
    rw [ChordTable.place]
    split
    · rename_i hfront
      have hef : Before e.1 f.1 := ((precedes_iff _ _).mp hfront).resolve_left hnew.1
      refine List.pairwise_cons.mpr ⟨fun g hg => ?_, h⟩
      rcases List.mem_cons.mp hg with rfl | hg
      · exact hef
      · exact hef.trans (hf g hg)
    · rename_i hbehind
      have hfe : Before f.1 e.1 := by
        rcases before_or_eq_or_before e.1 f.1 with hef | heq | hfe
        · exact absurd ((precedes_iff _ _).mpr (.inr hef)) hbehind
        · exact absurd heq hnew.1
        · exact hfe
      refine List.pairwise_cons.mpr ⟨fun g hg => ?_, ih hrest hnew.2⟩
      rcases List.mem_cons.mp ((place_perm e rest).mem_iff.mp hg) with rfl | hg
      · exact hfe
      · exact hf g hg

theorem Ordered.filter (h : Ordered entries) (p : Text × Intervals → Bool) : Ordered (entries.filter p) :=
  List.Pairwise.filter p h

theorem fst_not_mem_without (t : ChordTable) (name : Text) :
    name ∉ (t.without name).entries.map Prod.fst := by
  simp [without]

theorem Ordered.put {t : ChordTable} (h : Ordered t.entries) (name : Text) (shape : Intervals) :
    Ordered (t.put name shape).entries :=
  Ordered.place (e := (name, shape)) (h.filter _) (fst_not_mem_without t name)

/-- An entry that is put in its place stands where sorting puts it. -/
theorem Ordered.put_eq_mergeSort {t : ChordTable} (h : Ordered t.entries) (name : Text) (shape : Intervals) :
    (t.put name shape).entries = ((t.without name).entries ++ [(name, shape)]).mergeSort inByteOrder :=
  ((h.put name shape).mergeSort_eq
    ((List.perm_append_singleton _ _).trans (place_perm _ _).symm)).symm

theorem mem_put_iff (t : ChordTable) (name : Text) (shape : Intervals) (e : Text × Intervals) :
    e ∈ (t.put name shape).entries ↔ e = (name, shape) ∨ e ∈ t.entries ∧ e.1 ≠ name := by
  rw [put, (place_perm _ _).mem_iff, List.mem_cons]
  simp [without]

theorem mem_without_iff (t : ChordTable) (name : Text) (e : Text × Intervals) :
    e ∈ (t.without name).entries ↔ e ∈ t.entries ∧ e.1 ≠ name := by
  simp [without]

/-! ### What a table in order answers -/

theorem Ordered.find?_eq_some_iff (h : Ordered entries) (p : Text × Intervals → Bool) (e : Text × Intervals) :
    entries.find? p = some e ↔ e ∈ entries ∧ p e = true ∧ ∀ f ∈ entries, p f = true → f = e ∨ Before e.1 f.1 :=
  find?_eq_some_iff_of_pairwise (fun _ _ => Before.asymm) h p e

theorem Ordered.intervals?_eq_some_iff {t : ChordTable} (h : Ordered t.entries) (name : Text) (shape : Intervals) :
    t.intervals? name = some shape ↔ (name, shape) ∈ t.entries :=
  Table.lookup_eq_some_iff_of_nodup h.nodup name shape

/-- The entry whose name is the longest that starts a text. -/
theorem Ordered.matchStart?_eq_some_iff {t : ChordTable} (h : Ordered t.entries) (text : Text)
    (e : Text × Intervals) :
    t.matchStart? text = some e ↔
      e ∈ t.entries ∧ e.1 <+: text ∧ ∀ n ∈ t.names, n <+: text → byteSize n ≤ byteSize e.1 := by
  simp only [matchStart?, h.find?_eq_some_iff, List.isPrefixOf_iff_prefix, names, List.forall_mem_map]
  refine and_congr_right fun he => and_congr_right fun hstart => ⟨fun hfirst f hf hfstart => ?_,
    fun hlongest f hf hfstart => ?_⟩
  · rcases hfirst f hf hfstart with rfl | hlt | ⟨heq, -⟩
    · exact Nat.le_refl _
    · exact Nat.le_of_lt hlt
    · exact Nat.le_of_eq heq.symm
  · rcases Nat.lt_or_eq_of_le (hlongest f hf hfstart) with hlt | heq
    · exact .inr (.inl hlt)
    · have hfe := prefix_of_byteSize_le hfstart hstart (Nat.le_of_eq heq)
      have hef := prefix_of_byteSize_le hstart hfstart (Nat.le_of_eq heq.symm)
      exact .inl (h.eq_of_name hf he (hfe.eq_of_length_le hef.length_le))

theorem isSome_matchStart?_iff (t : ChordTable) (text : Text) :
    (t.matchStart? text).isSome = true ↔ ∃ n ∈ t.names, n <+: text := by
  simp [matchStart?, List.find?_isSome, names, List.isPrefixOf_iff_prefix]

/-- The name that comes before all others of a shape. -/
theorem Ordered.nameOf?_eq_some_iff {t : ChordTable} (h : Ordered t.entries) (shape : Intervals) (name : Text) :
    t.nameOf? shape = some name ↔ t.intervals? name = some shape ∧
      ∀ other, t.intervals? other = some shape → other = name ∨ Before name other := by
  simp only [nameOf?, Option.map_eq_some_iff, h.find?_eq_some_iff, beq_iff_eq, h.intervals?_eq_some_iff]
  constructor
  · rintro ⟨e, ⟨he, rfl, hfirst⟩, rfl⟩
    exact ⟨he, fun other hother => (hfirst _ hother rfl).imp_left (congrArg Prod.fst)⟩
  · rintro ⟨hname, hfirst⟩
    refine ⟨(name, shape), ⟨hname, rfl, fun f hf hshape => ?_⟩, rfl⟩
    exact (hfirst f.1 (hshape ▸ hf)).imp_left fun hn => Prod.ext hn hshape

theorem Ordered.isSome_nameOf?_iff {t : ChordTable} (h : Ordered t.entries) (shape : Intervals) :
    (t.nameOf? shape).isSome = true ↔ ∃ name, t.intervals? name = some shape := by
  simp [nameOf?, List.find?_isSome, h.intervals?_eq_some_iff]

theorem contains_iff (t : ChordTable) (name : Text) : t.contains name = true ↔ upper name ∈ t.names := by
  simp [contains, names]

/-- A table has a name just when it is shorter without it. -/
theorem mem_names_iff_length_ne (t : ChordTable) (name : Text) :
    name ∈ t.names ↔ t.entries.length ≠ (t.without name).entries.length := by
  have hle := List.length_filter_le (fun e : Text × Intervals => !e.1 == name) t.entries
  have hiff : (t.without name).entries.length = t.entries.length ↔ name ∉ t.names := by
    rw [without, List.length_filter_eq_length_iff]
    simp only [names, List.mem_map, Bool.not_eq_true', beq_eq_false_iff_ne]
    exact ⟨fun hall ⟨e, he, heq⟩ => hall e he heq, fun hnone e he heq => hnone ⟨e, he, heq⟩⟩
  rw [← not_iff_not, ← hiff, not_not, eq_comm]

/-! ### Changes -/

/-- What a user does to a table. -/
inductive Change where
  | add (name pattern : Text)
  | remove (name : Text)

/-- A table after a change. One that cannot be added leaves it as it is. -/
def change (t : ChordTable) : Change → ChordTable
  | .add name pattern =>
    match t.add name pattern with
    | .ok t => t
    | .error _ => t
  | .remove name => t.remove name

def changeAll (t : ChordTable) (changes : List Change) : ChordTable := changes.foldl change t

theorem add_eq (t : ChordTable) (name pattern : Text) :
    t.add name pattern = (Intervals.ofText pattern).map (t.put (upper name)) := by
  cases hshape : Intervals.ofText pattern <;> simp [add, hshape] <;> rfl

theorem Ordered.change {t : ChordTable} (h : Ordered t.entries) (c : Change) : Ordered (t.change c).entries := by
  cases c with
  | remove name => exact h.filter _
  | add name pattern =>
    rw [ChordTable.change, add_eq]
    cases Intervals.ofText pattern with
    | error _ => exact h
    | ok shape => exact h.put _ _

theorem Ordered.changeAll {t : ChordTable} (h : Ordered t.entries) (changes : List Change) :
    Ordered (t.changeAll changes).entries := by
  induction changes generalizing t with
  | nil => exact h
  | cons c rest ih => exact ih (h.change c)

theorem Ordered.putAll {t : ChordTable} (h : Ordered t.entries) (l : List (Text × Intervals)) :
    Ordered (l.foldl (fun t e => t.put e.1 e.2) t).entries := by
  induction l generalizing t with
  | nil => exact h
  | cons e rest ih => exact ih (h.put e.1 e.2)

theorem putAll_perm {l : List (Text × Intervals)} {t : ChordTable}
    (h : (t.entries ++ l).Pairwise fun e f => e.1 ≠ f.1) :
    (l.foldl (fun t e => t.put e.1 e.2) t).entries.Perm (t.entries ++ l) := by
  induction l generalizing t with
  | nil => rw [List.append_nil]; exact List.Perm.refl _
  | cons e rest ih =>
    have hfresh : (t.without e.1).entries = t.entries := by
      refine List.filter_eq_self.mpr fun f hf => ?_
      have hne := (List.pairwise_append.mp h).2.2 f hf e List.mem_cons_self
      simpa using hne
    have hput : (t.put e.1 e.2).entries.Perm (t.entries ++ [e]) := by
      rw [put, hfresh]
      exact (place_perm e t.entries).trans (List.perm_append_singleton e t.entries).symm
    have hall : ((t.put e.1 e.2).entries ++ rest).Perm (t.entries ++ e :: rest) := by
      simpa using hput.append_right rest
    rw [List.foldl_cons]
    refine (ih ?_).trans hall
    exact (List.Perm.pairwise_iff (fun hne => Ne.symm hne) hall).mpr h

theorem shapes_distinct : shapes.Pairwise fun e f => e.1 ≠ f.1 := by
  decide +kernel

theorem ordered_standard : Ordered standard.entries := Ordered.putAll List.Pairwise.nil shapes

/-- The standard table is its shapes sorted. -/
theorem standard_eq_mergeSort : standard.entries = shapes.mergeSort inByteOrder :=
  (ordered_standard.mergeSort_eq (putAll_perm (t := ⟨[]⟩) shapes_distinct).symm).symm

/-- Whatever is added to the standard table and removed from it, in whatever order and whether or not it can be
added, the names stay distinct and in order, as sorting by bytes has them; so a text is found to start with the
longest name that starts it, and a shape has the first of its names. What is added has its shape from then on,
in place of any other, a pattern that cannot be read changes nothing, and what is removed is told to have been
there just when it was; no other entry is touched. -/
theorem ordered_through_changes (changes : List Change) :
    let t := standard.changeAll changes
    (t.names.Nodup ∧ t.names.Pairwise Before ∧ standard.entries = shapes.mergeSort inByteOrder) ∧
      (∀ text, ((t.matchStart? text).isSome = true ↔ ∃ n ∈ t.names, n <+: text) ∧
        ∀ e, t.matchStart? text = some e ↔
          e ∈ t.entries ∧ e.1 <+: text ∧ ∀ n ∈ t.names, n <+: text → byteSize n ≤ byteSize e.1) ∧
      (∀ shape, ((t.nameOf? shape).isSome = true ↔ ∃ name, t.intervals? name = some shape) ∧
        ∀ name, t.nameOf? shape = some name ↔ t.intervals? name = some shape ∧
          ∀ other, t.intervals? other = some shape → other = name ∨ Before name other) ∧
      (∀ name pattern shape, Intervals.ofText pattern = .ok shape →
        ∃ later, t.add name pattern = .ok later ∧ t.change (.add name pattern) = later ∧
          later.entries = ((t.without (upper name)).entries ++ [(upper name, shape)]).mergeSort inByteOrder ∧
          later.intervals? (upper name) = some shape ∧
          (∀ e, e.1 ≠ upper name → (e ∈ later.entries ↔ e ∈ t.entries))) ∧
      (∀ name pattern err, Intervals.ofText pattern = .error err →
        t.add name pattern = .error err ∧ t.change (.add name pattern) = t) ∧
      ∀ name, (t.contains name = true ↔ upper name ∈ t.names) ∧
        (t.contains name = true ↔ t.entries.length ≠ (t.remove name).entries.length) ∧
        (t.remove name).intervals? (upper name) = none ∧
        ∀ e, e.1 ≠ upper name → (e ∈ (t.remove name).entries ↔ e ∈ t.entries) := by
  intro t
  have h : Ordered t.entries := ordered_standard.changeAll changes
  refine ⟨⟨h.nodup, List.pairwise_map.mpr h, standard_eq_mergeSort⟩,
    fun text => ⟨isSome_matchStart?_iff t text, h.matchStart?_eq_some_iff text⟩,
    fun shape => ⟨h.isSome_nameOf?_iff shape, h.nameOf?_eq_some_iff shape⟩, fun name pattern shape hshape => ?_,
    fun name pattern err herr => ?_, fun name => ⟨contains_iff t name, ?_, ?_, fun e he => ?_⟩⟩
  · have hadd : t.add name pattern = .ok (t.put (upper name) shape) := by rw [add_eq, hshape]; rfl
    refine ⟨_, hadd, by rw [change, hadd], h.put_eq_mergeSort _ _, ?_, fun e he => ?_⟩
    · rw [(h.put _ _).intervals?_eq_some_iff, mem_put_iff]
      exact .inl rfl
    · rw [mem_put_iff]
      exact ⟨fun hmem => (hmem.resolve_left fun heq => he (heq ▸ rfl)).1, fun hmem => .inr ⟨hmem, he⟩⟩
  · have hadd : t.add name pattern = .error err := by rw [add_eq, herr]; rfl
    exact ⟨hadd, by rw [change, hadd]⟩
  · rw [contains_iff, mem_names_iff_length_ne]
    rfl
  · refine Option.eq_none_iff_forall_ne_some.mpr fun shape hshape => ?_
    have hmem := ((h.change (.remove name)).intervals?_eq_some_iff _ shape).mp hshape
    exact ((mem_without_iff t (upper name) _).mp hmem).2 rfl
  · exact (mem_without_iff t (upper name) e).trans (and_iff_left he)

/-- A longer name for a shape, one whose pattern cannot be read, a name taken away, and a new shape for a name. -/
def fourChanges : List Change :=
  [.add "powermaj".toList "1 5".toList, .add "maj13".toList "1 x".toList, .remove "min6%9".toList,
    .add "Maj7".toList "1 3 5".toList]

/-- After them, the longest name is found in a text, and a shape goes by its longest name. -/
theorem fourChanges_in_order :
    (standard.changeAll fourChanges).matchStart? "MAJ7%6Q".toList =
        some ("MAJ7%6".toList, ⟨["1".toList, "3".toList, "5".toList, "6".toList, "7".toList]⟩) ∧
      (standard.changeAll fourChanges).nameOf? ⟨["1".toList, "3".toList, "5".toList]⟩ = some "MAJ7".toList ∧
      (standard.changeAll fourChanges).nameOf? ⟨["1".toList, "b3".toList, "5".toList, "6".toList]⟩ =
        some "MIN6".toList ∧
      ((standard.changeAll fourChanges).change (.add "add9".toList "1 3".toList)).intervals? "ADD9".toList =
        some ⟨["1".toList, "3".toList]⟩ ∧
      (standard.changeAll fourChanges).change (.add "add9".toList "1 16".toList) = standard.changeAll fourChanges ∧
      (standard.changeAll fourChanges).contains "min6%9".toList = false := by
  obtain ⟨-, hstart, hname, hadd, hfail, -⟩ := ordered_through_changes fourChanges
  obtain ⟨later, -, hlater, -, hshape, -⟩ :=
    hadd "add9".toList "1 3".toList ⟨["1".toList, "3".toList]⟩ (by decide +kernel)
  refine ⟨?_, by decide +kernel, by decide +kernel, ?_, ?_, by decide +kernel⟩
  · refine ((hstart _).2 _).mpr ⟨by decide +kernel, by decide, by decide +kernel⟩
  · rw [hlater]
    exact hshape
  · exact (hfail _ _ (.invalid .interval "16".toList) (by decide +kernel)).2

end ChordTable

end ScoreText
