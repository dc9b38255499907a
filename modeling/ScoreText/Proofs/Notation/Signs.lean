import ScoreText.Proofs.Notation.Script

/-!
Fragments that are neither notes nor chords: changes of voice, layer and instrument, tempos,
signatures, bar lines and times.
-/

set_option autoImplicit false

namespace ScoreText

open NoteContext

/-- Characters that expansion leaves as they are. -/
def isRaised (c : Char) : Bool := Expansion.plainChar c && c.toUpper == c

theorem isRaised_spec {c : Char} (h : isRaised c = true) :
    Expansion.plainChar c = true ∧ c.toUpper = c := by
  simpa [isRaised] using h

theorem upper_of_raised {f : Text} (h : ∀ c ∈ f, isRaised c = true) : Text.upper f = f := by
  rw [Expansion.upper_of_ascii fun c hc => (Expansion.plainChar_spec (isRaised_spec (h c hc)).1).1]
  conv => rhs; rw [← List.map_id f]
  exact List.map_congr_left fun c hc => (isRaised_spec (h c hc)).2

theorem isRaised_of_isDigit {c : Char} (h : c.isDigit = true) : isRaised c = true := by
  have hall : ∀ n < 128, (Char.ofNat n).isDigit = true → isRaised (Char.ofNat n) = true := by decide
  have hlt := Text.toNat_of_isDigit h
  have hnine : '9'.toNat = 57 := rfl
  exact Expansion.forall_ascii (P := fun c => c.isDigit = true → isRaised c = true) hall
    (by omega) h

theorem isRaised_of_isSymbolChar {c : Char} (h : Symbols.isSymbolChar c = true) : isRaised c = true := by
  obtain ⟨hplain, hupper, -⟩ := Symbols.isSymbolChar_spec h
  simp [isRaised, hplain, hupper]

variable {R : Type} [Scalar R]

theorem turned_raised {c : Char} {r : Text} (h : ∀ d ∈ c :: r, isRaised d = true)
    (hstart : startsNote c = false) (hm : c ≠ 'M') (hrequest : c = '@' → r.head? ≠ some '#')
    (ctx : NoteContext R) : Expansion.Turned .standard ctx (c :: r) (c :: r) := by
  have hplain : Expansion.Plain (c :: r) := by
    refine ⟨List.cons_ne_nil c r, fun d hd => (isRaised_spec (h d hd)).1, fun hat => ?_⟩
    exact hrequest (Option.some.inj hat)
  have hupper := upper_of_raised h
  have hturned := hplain.turned (by rw [hupper]; simpa using hm)
    (by rw [hupper]; exact Expansion.broken?_none hstart r) .standard ctx
  rwa [hupper] at hturned

/-- A fragment whose family announces these events and changes nothing. -/
theorem announces_settled {g : Text} {family : Family} {key : Key} {back : List (Event R)}
    (hg : g ≠ []) (hfamily : Family.of? g = some family)
    (hread : ∀ (strict : Bool) (memory : Memory), memory.Holds key →
      family.read ⟨Dialect.usual strict, memory⟩ g = ⟨back, memory, .ok []⟩) :
    Announces g key key back := fun strict memory hm =>
  ⟨memory, hm, readFragment_ok hg hfamily (hread strict memory hm)⟩

namespace Fragment

theorem ends_nil : Numeral.Ends [] := by simp [Numeral.Ends]

theorem takeDigits_self (n : Nat) : Numeral.takeDigits (Text.ofNat n) = (Text.ofNat n, []) := by
  have := Numeral.takeDigits_ofNat n ends_nil
  rwa [List.append_nil] at this

theorem isEmpty_ofNat (n : Nat) : (Text.ofNat n).isEmpty = false := by
  rw [List.isEmpty_eq_false_iff]
  exact Text.ofNat_ne_nil n

theorem readValue_number (symbols : Symbols) (kind : NameKind) (c : Char) {n : Nat}
    (h : n ≤ maxNumber) : readValue symbols kind (c :: Text.ofNat n) = .ok ((n : Int), []) := by
  simp only [readValue, List.drop_succ_cons, List.drop_zero, takeDigits_self, isEmpty_ofNat,
    Bool.not_false, if_true, Numeral.nat?_ofNat h]

theorem raised_number {c : Char} (hc : isRaised c = true) (n : Nat) :
    ∀ d ∈ c :: Text.ofNat n, isRaised d = true := by
  intro d hd
  rcases List.mem_cons.mp hd with rfl | hd
  · exact hc
  · exact isRaised_of_isDigit (Text.isDigit_of_mem_ofNat hd)

theorem checkRange_ok {quantity : Quantity} {n low high : Nat} (hl : low ≤ n) (hh : n ≤ high) :
    checkRange quantity (n : Int) low high = .ok n :=
  (checkRange_eq_ok_iff _ _ _ _ _).mpr ⟨rfl, hl, hh⟩

/-- The number of a track is one that can be written. -/
theorem le_maxNumber_of_lt {n : Nat} (h : n < trackCount) : n ≤ maxNumber :=
  h.le.trans (by decide +kernel)

theorem announces_track {n : Nat} (h : n < trackCount) (key : Key) :
    Announces ('V' :: Text.ofNat n) key key ([.track n] : List (Event R)) := by
  have hn := le_maxNumber_of_lt h
  refine announces_settled (List.cons_ne_nil _ _) (rfl : Family.of? _ = some .selection) fun strict memory hm => ?_
  simp only [Family.read, readSelection, readSelection?, List.head?_cons, readValue_number _ _ _ hn,
    bind, Except.bind, checkRange_ok (Nat.zero_le n) (Nat.le_sub_one_of_lt h), pure, Except.pure,
    Family.settled]

theorem announces_layer {n : Nat} (h : n < trackCount) (key : Key) :
    Announces ('L' :: Text.ofNat n) key key ([.layer n] : List (Event R)) := by
  have hn := le_maxNumber_of_lt h
  refine announces_settled (List.cons_ne_nil _ _) (rfl : Family.of? _ = some .selection) fun strict memory hm => ?_
  simp only [Family.read, readSelection, readSelection?, List.head?_cons, readValue_number _ _ _ hn,
    bind, Except.bind, checkRange_ok (Nat.zero_le n) (Nat.le_sub_one_of_lt h), pure, Except.pure,
    Family.settled]

/-- A program goes by its name. -/
theorem instrumentText_eq {n : Nat} (h : n ≤ maxData) : ∃ name,
    Symbols.instrumentNames[n]? = some name ∧
      Writer.instrumentText n = 'I' :: '[' :: (name ++ [']']) := by
  have hlt : n < Symbols.instrumentNames.length := by
    have : maxData = 127 := rfl
    rw [Symbols.length_instrumentNames]
    omega
  refine ⟨Symbols.instrumentNames[n], List.getElem?_eq_getElem hlt, ?_⟩
  rw [Writer.instrumentText, List.getElem?_eq_getElem hlt]
  rfl

theorem raised_instrument {n : Nat} {name : Text} (h : Symbols.instrumentNames[n]? = some name) :
    ∀ d ∈ 'I' :: '[' :: (name ++ [']']), isRaised d = true := by
  intro d hd
  simp only [List.mem_cons, List.mem_append, List.not_mem_nil, or_false] at hd
  rcases hd with rfl | rfl | hd | rfl
  · decide
  · decide
  · exact isRaised_of_isSymbolChar (Symbols.isSymbolChar_of_mem (Symbols.mem_instrument h) d hd)
  · decide

theorem announces_instrument {n : Nat} (h : n ≤ maxData) (key : Key) {name : Text}
    (hname : Symbols.instrumentNames[n]? = some name) :
    Announces ('I' :: '[' :: (name ++ [']'])) key key ([.instrument n] : List (Event R)) := by
  have hmem := Symbols.mem_instrument hname
  have hbracket : ']' ∉ name := fun hb =>
    (Symbols.isSymbolChar_spec (Symbols.isSymbolChar_of_mem hmem ']' hb)).2.2.1 rfl
  have htake : Numeral.takeDigits ('[' :: (name ++ [']'])) = ([], '[' :: (name ++ [']'])) := rfl
  refine announces_settled (List.cons_ne_nil _ _) (rfl : Family.of? _ = some .selection) fun strict memory hm => ?_
  simp only [Family.read, readSelection, readSelection?, List.head?_cons, readValue,
    List.drop_succ_cons, List.drop_zero, htake, List.isEmpty_nil, Bool.not_true, Bool.false_eq_true,
    if_false, Text.cut?_append hbracket, hm.symbols, Symbols.require, Symbols.find?_of_mem hmem,
    bind, Except.bind, checkRange_ok (Nat.zero_le n) h, pure, Except.pure, Family.settled]

theorem family_tempo (n : Nat) : Family.of? ('T' :: Text.ofNat n) = some .tempo := by
  cases hn : Text.ofNat n with
  | nil => exact absurd hn (Text.ofNat_ne_nil n)
  | cons d r =>
    have hd : d.isDigit = true := Text.isDigit_of_mem_ofNat (n := n) (by rw [hn]; exact List.mem_cons_self)
    have hi : ('I' == d) = false := by
      rw [beq_eq_false_iff_ne]
      rintro rfl
      exact absurd hd (by decide)
    have hsign : Family.signature.claims ('T' :: d :: r) = false := by
      simp [Family.claims, timeWord, keyWord, shortKeyWord, List.isPrefixOf, hi]
    simp only [Family.of?, Family.all, List.find?_cons, hsign]
    rfl

theorem announces_tempo {n : Nat} (hl : 1 ≤ n) (hh : n ≤ Numeral.largest 32) (key : Key) :
    Announces ('T' :: Text.ofNat n) key key ([.tempo n] : List (Event R)) := by
  have hn : n ≤ maxNumber := hh.trans (by decide +kernel)
  refine announces_settled (List.cons_ne_nil _ _) (family_tempo n) fun strict memory hm => ?_
  simp only [Family.read, readTempo, readValue_number _ _ _ hn, bind, Except.bind, checkRange_ok hl hh,
    pure, Except.pure, Family.settled]

/-- What the text of a key reads as, whichever of the keys it is. -/
theorem key_text (k : Key) :
    (∀ c ∈ k.text, isRaised c = true) ∧ Key.ofText k.text = .ok k := by
  have hall : ∀ n : Nat, n < 15 → ∀ m ∈ [Mode.major, Mode.minor],
      ((Key.ofSignature ((n : Int) - 7) m).text.all isRaised = true) ∧
        (Key.ofText (Key.ofSignature ((n : Int) - 7) m).text).toOption =
          some (Key.ofSignature ((n : Int) - 7) m) := by
    decide +kernel
  have hfifths := k.within
  have hk : Key.ofSignature (((k.fifths + 7).toNat : Int) - 7) k.mode = k := by
    have : ((k.fifths + 7).toNat : Int) - 7 = k.fifths := by omega
    rw [this, Key.ofSignature_fifths]
  obtain ⟨hchars, hread⟩ := hall (k.fifths + 7).toNat (by omega) k.mode (by cases k.mode <;> simp)
  rw [hk] at hchars hread
  refine ⟨List.all_eq_true.mp hchars, ?_⟩
  cases hr : Key.ofText k.text with
  | error e =>
    rw [hr] at hread
    cases hread
  | ok k' =>
    rw [hr] at hread
    rw [Option.some.inj hread]

theorem announces_key (k key : Key) :
    Announces (keyWord ++ k.text) key k ([.keySignature k.fifths k.mode] : List (Event R)) := by
  intro strict memory hm
  have hread : Family.signature.read ⟨Dialect.usual strict, memory⟩ (keyWord ++ k.text) =
      (⟨[.keySignature k.fifths k.mode], { memory with key := k }, .ok []⟩ : Reading R) := by
    have htime : Text.after? timeWord (keyWord ++ k.text) = none := rfl
    have hkey : Text.after? keyWord (keyWord ++ k.text) = some k.text := by
      rw [Text.after?, List.isPrefixOf_iff_prefix.mpr (List.prefix_append _ _)]
      rfl
    simp only [Family.read, readSignature, htime, hkey, Option.some_or, Option.getD_some,
      (key_text k).2, bind, Except.bind, pure, Except.pure]
  exact ⟨{ memory with key := k }, ⟨hm.symbols, rfl⟩,
    readFragment_ok (List.cons_ne_nil _ _) (rfl : Family.of? _ = some .signature) hread⟩

theorem trim_of_nonblank {s : Text} (h : ∀ c ∈ s, Text.isBlank c = false) : Text.trim s = s := by
  have hdrop : ∀ t : Text, (∀ c ∈ t, Text.isBlank c = false) → t.dropWhile Text.isBlank = t := by
    intro t ht
    cases t with
    | nil => rfl
    | cons c r => exact List.dropWhile_cons_of_neg (by simp [ht c List.mem_cons_self])
  rw [Text.trim, hdrop s h, hdrop s.reverse fun c hc => h c (List.mem_reverse.mp hc), List.reverse_reverse]

theorem nonblank_of_isDigit {c : Char} (h : c.isDigit = true) : Text.isBlank c = false :=
  (Expansion.plainChar_spec (isRaised_spec (isRaised_of_isDigit h)).1).2.1

theorem trim_ofNat (n : Nat) : Text.trim (Text.ofNat n) = Text.ofNat n :=
  trim_of_nonblank fun _ hc => nonblank_of_isDigit (Text.isDigit_of_mem_ofNat hc)

theorem slash_not_mem (n : Nat) : '/' ∉ Text.ofNat n := fun h =>
  absurd (Text.isDigit_of_mem_ofNat h) (by decide)

/-- What the text of a meter reads as, if its unit fits a byte. -/
theorem meter_text {beats power : Nat} (hl : 1 ≤ beats) (hh : beats ≤ 255) (hp : power < 8) :
    Meter.ofText (Meter.ofPower beats power).text = .ok (Meter.ofPower beats power) ∧
      (Meter.ofPower beats power).power = power := by
  have hpower : ∀ p, p < 8 → Nat.pow 2 p ≤ 255 ∧ Meter.powerOf (Nat.pow 2 p) = p := by decide
  obtain ⟨hunit, hof⟩ := hpower power hp
  have hlimit : Numeral.largest 8 = 255 := rfl
  have hparts : ∀ n, n ≤ 255 → Meter.part? (Text.ofNat n) = some n := by
    intro n hn
    rw [Meter.part?, trim_ofNat, Numeral.nat?_ofNat (by omega)]
  have htext : (Meter.ofPower beats power).text =
      Text.ofNat beats ++ '/' :: Text.ofNat (Nat.pow 2 power) := by
    simp [Meter.text, Meter.ofPower, hp]
  refine ⟨?_, ?_⟩
  · rw [htext, Meter.ofText, Text.cut?_append (slash_not_mem beats)]
    simp only [hparts beats hh, hparts _ hunit, hof]
    rw [if_pos ⟨by omega, trivial⟩, Meter.ofPower, if_pos hp]
  · simp only [Meter.power, Meter.ofPower, if_pos hp, hof]

theorem raised_meter (beats power : Nat) :
    ∀ c ∈ timeWord ++ (Meter.ofPower beats power).text, isRaised c = true := by
  intro c hc
  simp only [Meter.text, timeWord, List.mem_append, List.mem_cons, List.not_mem_nil, or_false] at hc
  rcases hc with (rfl | rfl | rfl | rfl | rfl) | (hc | rfl) | hc
  all_goals first
    | exact isRaised_of_isDigit (Text.isDigit_of_mem_ofNat hc)
    | decide

theorem announces_meter {beats power : Nat} (hl : 1 ≤ beats) (hh : beats ≤ 255) (hp : power < 8)
    (key : Key) :
    Announces (timeWord ++ (Meter.ofPower beats power).text) key key
      ([.timeSignature beats power] : List (Event R)) := by
  obtain ⟨hread, hpower⟩ := meter_text hl hh hp
  intro strict memory hm
  have hsign : Family.signature.read ⟨Dialect.usual strict, memory⟩
      (timeWord ++ (Meter.ofPower beats power).text) =
      (⟨[.timeSignature beats power], { memory with meter := Meter.ofPower beats power }, .ok []⟩
        : Reading R) := by
    have htime : Text.after? timeWord (timeWord ++ (Meter.ofPower beats power).text) =
        some (Meter.ofPower beats power).text := by
      rw [Text.after?, List.isPrefixOf_iff_prefix.mpr (List.prefix_append _ _)]
      rfl
    have hbeats : (Meter.ofPower beats power).beats = beats := rfl
    simp only [Family.read, readSignature, htime, hread, hbeats, hpower, bind, Except.bind, pure,
      Except.pure]
  exact ⟨{ memory with meter := Meter.ofPower beats power }, ⟨hm.symbols, hm.key⟩,
    readFragment_ok (List.cons_ne_nil _ _) (rfl : Family.of? _ = some .signature) hsign⟩

theorem announces_barLine {n : Nat} (h : n ≤ Numeral.largest 64) (key : Key) :
    Announces ('|' :: if n = 0 then [] else Text.ofNat n) key key ([.barLine n] : List (Event R)) := by
  refine announces_settled (List.cons_ne_nil _ _) (rfl : Family.of? _ = some .barLine) fun strict memory hm => ?_
  split
  · rename_i hn
    subst hn
    rfl
  · simp only [Family.read, readBarLine, List.drop_succ_cons, List.drop_zero, takeDigits_self,
      isEmpty_ofNat, Bool.false_eq_true, if_false, Numeral.nat?_ofNat h, Family.settled]

/-- A time whose written form is read as that time. -/
structure LegibleTime (time : R) : Prop where
  chars : ∀ c ∈ Scalar.text time, c.isDigit = true ∨ c = '.'
  read : ∃ time', readBeatTime ('@' :: Scalar.text time) = .ok ([.timeRequest time'], []) ∧
    (time == time') = true

/-- Whether the written form of a time is read as that time. -/
def readsBack (time : R) : Bool :=
  match readBeatTime ('@' :: Scalar.text time) with
  | .ok ([.timeRequest time'], []) => time == time'
  | _ => false

theorem readsBack_iff (time : R) : readsBack time = true ↔
    ∃ time', readBeatTime ('@' :: Scalar.text time) = .ok ([.timeRequest time'], []) ∧
      (time == time') = true := by
  refine ⟨fun h => ?_, fun ⟨time', hread, heq⟩ => ?_⟩
  · unfold readsBack at h
    split at h
    · exact ⟨_, ‹_›, h⟩
    · cases h
  · rw [readsBack, hread]
    exact heq

instance (time : R) : Decidable (LegibleTime time) :=
  decidable_of_iff
    ((∀ c ∈ Scalar.text time, c.isDigit = true ∨ c = '.') ∧ readsBack time = true)
    ⟨fun h => ⟨h.1, (readsBack_iff time).mp h.2⟩,
      fun h => ⟨h.chars, (readsBack_iff time).mpr h.read⟩⟩

theorem raised_time {time : R} (h : LegibleTime time) :
    ∀ c ∈ '@' :: Scalar.text time, isRaised c = true := by
  intro c hc
  rcases List.mem_cons.mp hc with rfl | hc
  · decide
  · rcases h.chars c hc with hd | rfl
    · exact isRaised_of_isDigit hd
    · decide

theorem announces_time {time time' : R}
    (h : readBeatTime ('@' :: Scalar.text time) = .ok ([.timeRequest time'], [])) (key : Key) :
    Announces ('@' :: Scalar.text time) key key [.timeRequest time'] := by
  refine announces_settled (List.cons_ne_nil _ _) (rfl : Family.of? _ = some .beatTime) fun strict memory hm => ?_
  rw [Family.read, h]
  rfl

end Fragment

end ScoreText
