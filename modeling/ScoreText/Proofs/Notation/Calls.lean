import ScoreText.Proofs.Notation.Signs

/-!
Calls of control functions and captions, as a writer writes them.
-/

set_option autoImplicit false

namespace ScoreText

open NoteContext

namespace Params

theorem mem_join {ns : List Nat} {c : Char} (h : c ∈ Text.join [','] (ns.map Text.ofNat)) :
    c.isDigit = true ∨ c = ',' := by
  induction ns with
  | nil => cases h
  | cons n rest ih =>
    cases rest with
    | nil => exact .inl (Text.isDigit_of_mem_ofNat h)
    | cons m rest =>
      rw [List.map_cons, List.map_cons, Text.join, ← List.map_cons] at h
      simp only [List.mem_append, List.mem_cons, List.not_mem_nil, or_false] at h
      rcases h with (h | h) | h
      · exact .inl (Text.isDigit_of_mem_ofNat h)
      · exact .inr h
      · exact ih h

/-- The numbers between commas are the parameters. -/
theorem split_numbers {ns : List Nat} (h : ns ≠ []) :
    split (Text.join [','] (ns.map Text.ofNat)) = ns.map Text.ofNat := by
  have hblank : ∀ c ∈ Text.join [','] (ns.map Text.ofNat), Text.isBlank c = false := by
    intro c hc
    rcases mem_join hc with hd | rfl
    · exact Fragment.nonblank_of_isDigit hd
    · decide
  have hne : (Text.join [','] (ns.map Text.ofNat)).isEmpty = false := by
    cases ns with
    | nil => exact absurd rfl h
    | cons n rest =>
      have hn := Text.ofNat_ne_nil n
      cases rest <;> simp [Text.join, hn]
  have hcomma : ∀ t ∈ ns.map Text.ofNat, ',' ∉ t := by
    intro t ht hc
    obtain ⟨n, -, rfl⟩ := List.mem_map.mp ht
    exact absurd (Text.isDigit_of_mem_ofNat hc) (by decide)
  have hfields : Text.fields ',' (Text.join [','] (ns.map Text.ofNat)) = ns.map Text.ofNat :=
    Text.fields_join (by simpa using h) hcomma
  rw [split, Fragment.trim_of_nonblank hblank, hne, if_neg Bool.false_ne_true, hfields, List.map_map]
  exact List.map_congr_left fun n _ => Fragment.trim_ofNat n

theorem number?_ofNat {n : Nat} (h : n ≤ Numeral.largest 63) : number? (Text.ofNat n) = some (n : Int) := by
  have hvalue : number? (Text.ofNat n) = (some (n : Int)).filter fun n =>
      -(Numeral.largest (64 - 1) : Int) - 1 ≤ n ∧ n ≤ Numeral.largest (64 - 1) := by
    unfold number? Numeral.int?
    have hunsigned := Numeral.unsigned?_ofNat n
    cases hs : Text.ofNat n with
    | nil => exact absurd hs (Text.ofNat_ne_nil n)
    | cons c r =>
      have hc : c.isDigit = true := Text.isDigit_of_mem_ofNat (n := n) (by rw [hs]; exact List.mem_cons_self)
      rw [hs] at hunsigned
      split
      · rename_i heq
        obtain ⟨rfl, -⟩ := List.cons.inj heq
        exact absurd hc (by decide)
      · rw [hunsigned]
        rfl
  rw [hvalue, Option.filter_some, if_pos]
  simp only [decide_eq_true_eq, Nat.reduceSub]
  omega

theorem number_ofNat {n : Nat} (h : n ≤ Numeral.largest 63) : number (Text.ofNat n) = .ok (n : Int) := by
  rw [number, number?_ofNat h]

end Params

namespace Control

variable {R : Type}

theorem le_63 {n m : Nat} (h : n ≤ m) (hm : m ≤ 16383) : n ≤ Numeral.largest 63 := by
  have : 16383 ≤ Numeral.largest 63 := by decide +kernel
  omega

theorem maxData_le : maxData ≤ 16383 := by decide

theorem pitchWheel_written {low high : Nat} (hl : low ≤ maxData) (hh : high ≤ maxData) :
    pitchWheelEvents (Text.join [','] [Text.ofNat (Event.wheelValue low high)]) =
      .ok ([.pitchWheel low high] : List (Event R)) := by
  have hmax : maxData = 127 := rfl
  have hwheel : maxWheel = 16383 := rfl
  have hvalue : Event.wheelValue low high = high * 128 + low := by
    rw [Event.wheelValue, Nat.mod_eq_of_lt (by omega)]
  have hle : Event.wheelValue low high ≤ maxWheel := by omega
  have hsplit := @Params.split_numbers [Event.wheelValue low high] (by simp)
  simp only [List.map_cons, List.map_nil] at hsplit
  have hlow : Event.wheelValue low high % 128 = low := by omega
  have hhigh : Event.wheelValue low high / 128 = high := by omega
  simp only [pitchWheelEvents, hsplit, Params.number_ofNat (le_63 hle (Nat.le_refl _)), bind, Except.bind,
    Fragment.checkRange_ok (Nat.zero_le _) hle, pure, Except.pure, hlow, hhigh]

theorem channelPressure_written {p : Nat} (h : p ≤ maxData) :
    channelPressureEvents (Text.join [','] [Text.ofNat p]) =
      .ok ([.channelPressure p] : List (Event R)) := by
  have hsplit := @Params.split_numbers [p] (by simp)
  simp only [List.map_cons, List.map_nil] at hsplit
  simp only [channelPressureEvents, hsplit, Params.number_ofNat (le_63 h maxData_le), bind, Except.bind,
    Fragment.checkRange_ok (Nat.zero_le _) h, pure, Except.pure]

theorem polyPressure_written {key p : Nat} (hk : key ≤ maxData) (hp : p ≤ maxData) :
    polyPressureEvents (Text.join [','] [Text.ofNat key, Text.ofNat p]) =
      .ok ([.polyPressure key p] : List (Event R)) := by
  have hsplit := @Params.split_numbers [key, p] (by simp)
  simp only [List.map_cons, List.map_nil] at hsplit
  simp only [polyPressureEvents, hsplit, Params.number_ofNat (le_63 hk maxData_le),
    Params.number_ofNat (le_63 hp maxData_le), bind, Except.bind,
    Fragment.checkRange_ok (Nat.zero_le _) hk, Fragment.checkRange_ok (Nat.zero_le _) hp, pure,
    Except.pure]

theorem controller_written (symbols : Symbols) {number value : Nat} (hn : number ≤ maxData)
    (hv : value ≤ maxData) :
    controllerEvents symbols (Text.join [','] [Text.ofNat number, Text.ofNat value]) =
      .ok ([.controller number value] : List (Event R)) := by
  have hsplit := @Params.split_numbers [number, value] (by simp)
  simp only [List.map_cons, List.map_nil] at hsplit
  have hfine : ¬ (maxData : Int) < number := by omega
  simp only [controllerEvents, hsplit, Params.numberOrName, Params.number?_ofNat (le_63 hn maxData_le),
    Params.number?_ofNat (le_63 hv maxData_le), bind, Except.bind, hfine, if_false,
    Fragment.checkRange_ok (Nat.zero_le _) hn, Fragment.checkRange_ok (Nat.zero_le _) hv, pure,
    Except.pure]

theorem byte_ofNat (b : UInt8) : byte (Text.ofNat b.toNat) = .ok b := by
  have hlt : b.toNat < 256 := b.toNat_lt
  have hlimit : Numeral.largest 8 = 255 := rfl
  have hx : ∀ c ∈ ['x', 'X'], c ∉ Text.ofNat b.toNat := by
    intro c hc h
    have hd := Text.isDigit_of_mem_ofNat h
    simp only [List.mem_cons, List.not_mem_nil, or_false] at hc
    rcases hc with rfl | rfl <;> exact absurd hd (by decide)
  have hdecimal : Numeral.natOrHex? (Numeral.largest 8) (Text.ofNat b.toNat) = some b.toNat := by
    unfold Numeral.natOrHex?
    split
    · rename_i heq
      exact absurd (by rw [heq]; simp) (hx 'x' (by simp))
    · rename_i heq
      exact absurd (by rw [heq]; simp) (hx 'X' (by simp))
    · exact Numeral.nat?_ofNat (by omega)
  rw [byte, hdecimal]
  exact congrArg Except.ok (UInt8.ofNat_toNat)

theorem mapM_byte (bytes : List UInt8) : (bytes.map fun b => Text.ofNat b.toNat).mapM byte = .ok bytes := by
  induction bytes with
  | nil => rfl
  | cons b rest ih =>
    rw [List.map_cons, List.mapM_cons, byte_ofNat, ih]
    rfl

theorem systemExclusive_written {bytes : List UInt8} (h : bytes ≠ []) :
    systemExclusiveEvents (Text.join [','] (bytes.map fun b => Text.ofNat b.toNat)) =
      .ok ([.systemExclusive bytes] : List (Event R)) := by
  have hsplit := @Params.split_numbers (bytes.map UInt8.toNat) (by simpa using h)
  rw [List.map_map] at hsplit
  have hempty : bytes.isEmpty = false := List.isEmpty_eq_false_iff.mpr h
  have hfold : (bytes.map fun b => Text.ofNat b.toNat) = bytes.map (Text.ofNat ∘ UInt8.toNat) := rfl
  simp only [systemExclusiveEvents, hfold, hsplit]
  rw [← hfold, mapM_byte]
  simp only [bind, Except.bind, hempty, Bool.false_eq_true, if_false, pure, Except.pure]

end Control

namespace Fragment

variable {R : Type} [Scalar R]

theorem splitCall_text {name params : Text} (h : Expansion.Calling name params) :
    splitCall (Expansion.Calling.text name params) = .ok (name, params, []) := by
  have hopen : '(' ∉ name := h.paren_not_mem_name (.inl rfl)
  have hcut : Text.cutLast? ')' (params ++ [')']) = some (params, []) := by
    simp [Text.cutLast?, Text.cut?]
  simp only [splitCall, Expansion.Calling.text, List.drop_succ_cons, List.drop_zero,
    Text.cut?_append hopen, hcut]

/-- A written call of a control function announces what the function makes of the parameters. -/
theorem announces_call {name params : Text} {control : Control} {back : List (Event R)} {key : Key}
    (h : Expansion.Calling name params)
    (hcontrol : Functions.standard.control? (Text.upper name) = some control)
    (hread : control.events .standard params = .ok back) :
    Announces (Expansion.Calling.text name params) key key back := by
  refine announces_settled (List.cons_ne_nil _ _) (rfl : Family.of? _ = some .call) fun strict memory hm => ?_
  have hfunctions : (Dialect.usual strict : Dialect R).functions = .standard := rfl
  simp only [Family.read, readCall, splitCall_text h, hfunctions, hcontrol, hm.symbols, hread, bind,
    Except.bind, pure, Except.pure, Family.settled]

theorem announces_lyric (r : Text) (key : Key) :
    Announces ('&' :: r) key key ([.lyric (captionText r)] : List (Event R)) :=
  announces_settled (List.cons_ne_nil _ _) (rfl : Family.of? _ = some .caption) fun _ _ _ => rfl

theorem announces_marker (r : Text) (key : Key) :
    Announces ('!' :: r) key key
      ([.marker (captionText r), .bookmark (captionText r)] : List (Event R)) :=
  announces_settled (List.cons_ne_nil _ _) (rfl : Family.of? _ = some .caption) fun _ _ _ => rfl

theorem tied_cons (sign : Char) (text : Text) : ∃ r, Expansion.Captioned.tied sign text = sign :: r := by
  unfold Expansion.Captioned.tied
  split <;> exact ⟨_, rfl⟩

end Fragment

/-- Events other than notes and chords whose written form is read. -/
inductive Event.Notable {R : Type} [Scalar R] : Event R → Prop where
  | track {n : Nat} (h : n < Fragment.trackCount) : Notable (.track n)
  | layer {n : Nat} (h : n < Fragment.trackCount) : Notable (.layer n)
  | instrument {n : Nat} (h : n ≤ maxData) : Notable (.instrument n)
  | tempo {n : Nat} (hl : 1 ≤ n) (hh : n ≤ Numeral.largest 32) : Notable (.tempo n)
  | keySignature (k : Key) : Notable (.keySignature k.fifths k.mode)
  | timeSignature {beats power : Nat} (hl : 1 ≤ beats) (hh : beats ≤ 255) (hp : power < 8) :
    Notable (.timeSignature beats power)
  | barLine {n : Nat} (h : n ≤ Numeral.largest 64) : Notable (.barLine n)
  | timeRequest {time : R} (h : Fragment.LegibleTime time) : Notable (.timeRequest time)
  | pitchWheel {low high : Nat} (hl : low ≤ maxData) (hh : high ≤ maxData) :
    Notable (.pitchWheel low high)
  | channelPressure {p : Nat} (h : p ≤ maxData) : Notable (.channelPressure p)
  | polyPressure {key p : Nat} (hk : key ≤ maxData) (hp : p ≤ maxData) :
    Notable (.polyPressure key p)
  | systemExclusive {bytes : List UInt8} (h : bytes ≠ []) : Notable (.systemExclusive bytes)
  | controller {number value : Nat} (hn : number ≤ maxData) (hv : value ≤ maxData) :
    Notable (.controller number value)
  | lyric {text : Text} (h : Expansion.Captioned '&' text) : Notable (.lyric text)
  | marker {text : Text} (h : Expansion.Captioned '!' text) : Notable (.marker text)

/-- What may be read for an event that is neither a note nor a chord: the event, at a time that
equals its own, or a caption, whose text may have changed. -/
inductive Event.Heard {R : Type} [Scalar R] : Event R → List (Event R) → Prop where
  | same {e : Event R} (unspoken : e.isVerbal = false) : Heard e [e]
  | time {time time' : R} (h : (time == time') = true) : Heard (.timeRequest time) [.timeRequest time']
  | lyric (text text' : Text) : Heard (.lyric text) [.lyric text']
  | marker (text text' : Text) : Heard (.marker text) [.marker text', .bookmark text']

namespace Event

variable {R : Type} [Scalar R]

/-- An event is written as a fragment, which all stages together turn into one that is read for it. -/
structure Noted (e : Event R) (key : Key) (f g : Text) (back : List (Event R)) : Prop where
  fragment : Writer.fragment? e = some f
  turned : ∀ ctx : NoteContext R, Expansion.Turned .standard ctx f g
  announces : Announces g key (e.keyAfter key) back
  heard : e.Heard back

theorem noted_raised {e : Event R} {key : Key} {c : Char} {r : Text} {back : List (Event R)}
    (hfragment : Writer.fragment? e = some (c :: r)) (hraised : ∀ d ∈ c :: r, isRaised d = true)
    (hstart : startsNote c = false ∧ c ≠ 'M') (hrequest : c = '@' → r.head? ≠ some '#')
    (hannounces : Announces (c :: r) key (e.keyAfter key) back) (hheard : e.Heard back) :
    e.Noted key (c :: r) (c :: r) back :=
  ⟨hfragment, turned_raised hraised hstart.1 hstart.2 hrequest, hannounces, hheard⟩

theorem noted_call {e : Event R} {key : Key} {params : Text} (control : Control) (name : Text)
    (hfragment : Writer.fragment? e = some (Expansion.Calling.text name params))
    (hname : name ≠ [] ∧ (∀ c ∈ name, c.isUpper = true) ∧
      Functions.standard.control? (Text.upper name) = some control ∧
        Functions.standard.ornament? name = none)
    (hparams : ∀ c ∈ params, c.isDigit = true ∨ c = ',')
    (hread : control.events .standard params = .ok [e]) (hkey : e.keyAfter key = key)
    (hunspoken : e.isVerbal = false) :
    e.Noted key (Expansion.Calling.text name params) (Expansion.Calling.text name params) [e] := by
  obtain ⟨hne, hupper, hcontrol, hornament⟩ := hname
  have hcalling : Expansion.Calling name params := ⟨hne, hupper, hparams⟩
  exact ⟨hfragment, fun ctx => hcalling.turned ctx hornament,
    hkey.symm ▸ Fragment.announces_call hcalling hcontrol hread, .same hunspoken⟩

theorem noted_keySignature (k key : Key) :
    (keySignature k.fifths k.mode : Event R).Noted key (Fragment.keyWord ++ k.text)
      (Fragment.keyWord ++ k.text) [.keySignature k.fifths k.mode] := by
  have hraised : ∀ d ∈ Fragment.keyWord ++ k.text, isRaised d = true := by
    intro d hd
    rcases List.mem_append.mp hd with hd | hd
    · exact (by decide : ∀ d ∈ Fragment.keyWord, isRaised d = true) d hd
    · exact (Fragment.key_text k).1 d hd
  have hafter : (keySignature k.fifths k.mode : Event R).keyAfter key = k := Key.ofSignature_fifths k
  have hfragment : Writer.fragment? (.keySignature k.fifths k.mode : Event R) =
      some (Fragment.keyWord ++ k.text) := by
    rw [Writer.fragment?, Key.ofSignature_fifths]
    rfl
  exact noted_raised hfragment hraised (by decide) (fun h => absurd h (by decide))
    (hafter.symm ▸ Fragment.announces_key k key) (.same rfl)

/-- An event that a notation can hold is written, expanded and read. -/
theorem Notable.written {e : Event R} (h : e.Notable) (key : Key) : ∃ f g back, e.Noted key f g back := by
  cases h with
  | @track n h =>
    exact ⟨_, _, _, noted_raised rfl (Fragment.raised_number (by decide) n) (by decide) (by simp)
      (Fragment.announces_track h key) (.same rfl)⟩
  | @layer n h =>
    exact ⟨_, _, _, noted_raised rfl (Fragment.raised_number (by decide) n) (by decide) (by simp)
      (Fragment.announces_layer h key) (.same rfl)⟩
  | @instrument n h =>
    obtain ⟨name, hname, htext⟩ := Fragment.instrumentText_eq h
    exact ⟨_, _, _, noted_raised (congrArg some htext) (Fragment.raised_instrument hname) (by decide) (by simp)
      (Fragment.announces_instrument h key hname) (.same rfl)⟩
  | @tempo n hl hh =>
    exact ⟨_, _, _, noted_raised rfl (Fragment.raised_number (by decide) n) (by decide) (by simp)
      (Fragment.announces_tempo hl hh key) (.same rfl)⟩
  | keySignature k => exact ⟨_, _, _, noted_keySignature k key⟩
  | @timeSignature beats power hl hh hp =>
    have hfragment : Writer.fragment? (.timeSignature beats power : Event R) =
        some (Fragment.timeWord ++ (Meter.ofPower beats power).text) := rfl
    exact ⟨_, _, _, noted_raised hfragment (Fragment.raised_meter beats power) (by decide)
      (fun h => absurd h (by decide)) (Fragment.announces_meter hl hh hp key) (.same rfl)⟩
  | @barLine n h =>
    have hraised : ∀ d ∈ '|' :: (if n = 0 then [] else Text.ofNat n), isRaised d = true := by
      split
      · decide
      · exact Fragment.raised_number (by decide) n
    exact ⟨_, _, _, noted_raised rfl hraised (by decide) (fun h => absurd h (by decide))
      (Fragment.announces_barLine h key) (.same rfl)⟩
  | @timeRequest time h =>
    obtain ⟨time', hread, heq⟩ := h.read
    refine ⟨_, _, _, noted_raised rfl (Fragment.raised_time h) (by decide) (fun _ hhash => ?_)
      (Fragment.announces_time hread key) (.time heq)⟩
    rcases h.chars '#' (List.mem_of_mem_head? hhash) with hd | hd <;> exact absurd hd (by decide)
  | @pitchWheel low high hl hh =>
    exact ⟨_, _, _, noted_call .pitchWheel ['P', 'W'] rfl (by decide +kernel)
      (fun _ => @Params.mem_join [_] _) (Control.pitchWheel_written hl hh) rfl rfl⟩
  | @channelPressure p h =>
    exact ⟨_, _, _, noted_call .channelPressure ['C', 'P'] rfl (by decide +kernel)
      (fun _ => @Params.mem_join [_] _) (Control.channelPressure_written h) rfl rfl⟩
  | @polyPressure k p hk hp =>
    exact ⟨_, _, _, noted_call .polyPressure ['P', 'P'] rfl (by decide +kernel)
      (fun _ => @Params.mem_join [_, _] _) (Control.polyPressure_written hk hp) rfl rfl⟩
  | @systemExclusive bytes h =>
    have hparams : ∀ c ∈ Text.join [','] (bytes.map fun b => Text.ofNat b.toNat),
        c.isDigit = true ∨ c = ',' := by
      intro c hc
      refine @Params.mem_join (bytes.map UInt8.toNat) _ ?_
      rwa [List.map_map]
    exact ⟨_, _, _, noted_call .systemExclusive ['S', 'X'] rfl (by decide +kernel) hparams
      (Control.systemExclusive_written h) rfl rfl⟩
  | @controller number value hn hv =>
    exact ⟨_, _, _, noted_call .controller ['C', 'E'] rfl (by decide +kernel)
      (fun _ => @Params.mem_join [_, _] _) (Control.controller_written _ hn hv) rfl rfl⟩
  | @lyric text h =>
    obtain ⟨r, hr⟩ := Fragment.tied_cons '&' text
    exact ⟨_, _, _, rfl, fun ctx => h.turned .standard ctx, hr ▸ Fragment.announces_lyric r key, .lyric _ _⟩
  | @marker text h =>
    obtain ⟨r, hr⟩ := Fragment.tied_cons '!' text
    exact ⟨_, _, _, rfl, fun ctx => h.turned .standard ctx, hr ▸ Fragment.announces_marker r key, .marker _ _⟩

end Event

end ScoreText
