import ScoreText.Proofs.Notation.Script

/-!
The events that each family of fragments announces are of its kinds, and their numbers lie in their
ranges, whatever the text.
-/

set_option autoImplicit false

namespace ScoreText

/-- The kinds of the events that a family of fragments announces. -/
def Family.kinds : Family → List EventKind
  | .atom => [.track, .layer, .instrument, .note, .chord]
  | .note => [.note, .chord]
  | .barLine => [.barLine]
  | .selection => [.track, .layer, .instrument]
  | .signature => [.keySignature, .timeSignature]
  | .tempo => [.tempo]
  | .beatTime => [.timeRequest, .bookmarkRequest]
  | .caption => [.lyric, .marker, .bookmark]
  | .call =>
    [.pitchWheel, .controller, .channelPressure, .polyPressure, .systemExclusive, .call]

namespace Event

variable {R : Type}

/-- The event is one that a fragment may announce, and its numbers lie in their ranges. -/
def Tellable : Event R → Prop
  | .track n => n < Fragment.trackCount
  | .layer n => n < Fragment.trackCount
  | .instrument n => n ≤ maxData
  | .tempo n => 1 ≤ n ∧ n ≤ Numeral.largest 32
  | .keySignature fifths _ => -7 ≤ fifths ∧ fifths ≤ 7
  | .timeSignature beats power => 1 ≤ beats ∧ beats ≤ 255 ∧ power < 8
  | .barLine n => n ≤ Numeral.largest 64
  | .pitchWheel low high => low ≤ maxData ∧ high ≤ maxData
  | .channelPressure p => p ≤ maxData
  | .polyPressure key p => key ≤ maxData ∧ p ≤ maxData
  | .systemExclusive bytes => bytes ≠ []
  | .controller number value => number ≤ maxData ∧ value ≤ maxData
  | .parsingStarts | .parsingEnds | .notePressed _ | .noteReleased _ => False
  | .bookmark _ | .bookmarkRequest _ | .timeRequest _ | .lyric _ | .marker _ | .call _ _ => True
  | .note _ | .chord _ => True

/-- Single events that leave the key as it is. -/
def Steady (e : Event R) : Prop := e.sounds = false ∧ e.Tellable ∧ ∀ key, e.keyAfter key = key

/-- A steady event of one of the kinds. -/
structure Among (kinds : List EventKind) (e : Event R) : Prop where
  steady : e.Steady
  kind : e.kind ∈ kinds

theorem Among.only {kinds : List EventKind} {e : Event R} (h : e.Among kinds) :
    ∀ e' ∈ [e], e'.Among kinds := List.forall_mem_singleton.mpr h

theorem range_le {quantity : Quantity} {value : Int} {low high n : Nat}
    (h : checkRange quantity value low high = .ok n) : low ≤ n ∧ n ≤ high :=
  ((checkRange_eq_ok_iff _ _ _ _ _).mp h).2

theorem among_selection {symbols : Symbols} {fragment rest : Text} {e : Event R}
    (h : Fragment.readSelection? symbols fragment = some (.ok (e, rest))) :
    e.Among Family.selection.kinds := by
  unfold Fragment.readSelection? at h
  split at h
  · obtain ⟨⟨value, left⟩, -, h⟩ := ok_of_bind (Option.some.inj h)
    obtain ⟨n, hn, h⟩ := ok_of_bind h
    cases h
    exact ⟨⟨rfl, Nat.lt_of_le_sub_one (by decide) (range_le hn).2, fun _ => rfl⟩,
      by simp [kind, Family.kinds]⟩
  · obtain ⟨⟨value, left⟩, -, h⟩ := ok_of_bind (Option.some.inj h)
    obtain ⟨n, hn, h⟩ := ok_of_bind h
    cases h
    exact ⟨⟨rfl, Nat.lt_of_le_sub_one (by decide) (range_le hn).2, fun _ => rfl⟩,
      by simp [kind, Family.kinds]⟩
  · obtain ⟨⟨value, left⟩, -, h⟩ := ok_of_bind (Option.some.inj h)
    obtain ⟨n, hn, h⟩ := ok_of_bind h
    cases h
    exact ⟨⟨rfl, (range_le hn).2, fun _ => rfl⟩, by simp [kind, Family.kinds]⟩
  · cases h

theorem among_readSelection {symbols : Symbols} {fragment rest : Text} {es : List (Event R)}
    (h : Fragment.readSelection symbols fragment = .ok (es, rest)) :
    ∀ e ∈ es, e.Among Family.selection.kinds := by
  unfold Fragment.readSelection at h
  split at h
  · rename_i reading heq
    obtain ⟨⟨e, left⟩, hreading, h⟩ := ok_of_bind h
    cases h
    rw [hreading] at heq
    exact (among_selection heq).only
  · cases h
    simp

theorem among_parts (symbols : Symbols) (fragment : Text) (parts : List Text) :
    ∀ e ∈ (Fragment.readAtomParts symbols fragment parts : List (Event R) × Option Error).1,
      e.Among Family.selection.kinds := by
  induction parts with
  | nil => simp [Fragment.readAtomParts]
  | cons part rest ih =>
    unfold Fragment.readAtomParts
    split
    · simp
    · simp
    · rename_i e left heq
      intro e' he'
      rcases List.mem_cons.mp he' with rfl | he'
      · exact among_selection heq
      · exact ih e' he'

theorem among_barLine {fragment rest : Text} {es : List (Event R)}
    (h : Fragment.readBarLine fragment = .ok (es, rest)) : ∀ e ∈ es, e.Among Family.barLine.kinds := by
  unfold Fragment.readBarLine at h
  dsimp only at h
  split at h
  · cases h
    exact Among.only ⟨⟨rfl, Nat.zero_le _, fun _ => rfl⟩, by simp [kind, Family.kinds]⟩
  · split at h
    · rename_i n hn
      cases h
      have hle : n ≤ Numeral.largest 64 := by
        simpa using (Option.filter_eq_some_iff.mp hn).2
      exact Among.only ⟨⟨rfl, hle, fun _ => rfl⟩, by simp [kind, Family.kinds]⟩
    · cases h

theorem among_tempo {symbols : Symbols} {fragment rest : Text} {es : List (Event R)}
    (h : Fragment.readTempo symbols fragment = .ok (es, rest)) :
    ∀ e ∈ es, e.Among Family.tempo.kinds := by
  obtain ⟨⟨value, left⟩, -, h⟩ := ok_of_bind h
  obtain ⟨n, hn, h⟩ := ok_of_bind h
  cases h
  exact Among.only ⟨⟨rfl, range_le hn, fun _ => rfl⟩, by simp [kind, Family.kinds]⟩

theorem among_beatTime [Scalar R] {fragment rest : Text} {es : List (Event R)}
    (h : Fragment.readBeatTime fragment = .ok (es, rest)) :
    ∀ e ∈ es, e.Among Family.beatTime.kinds := by
  unfold Fragment.readBeatTime at h
  split at h
  · split at h
    · cases h
    · cases h
      exact Among.only ⟨⟨rfl, trivial, fun _ => rfl⟩, by simp [kind, Family.kinds]⟩
  · split at h
    · cases h
    · dsimp only at h
      split at h
      · cases h
      · cases h
        exact Among.only ⟨⟨rfl, trivial, fun _ => rfl⟩, by simp [kind, Family.kinds]⟩

theorem among_caption (fragment : Text) :
    ∀ e ∈ (Fragment.readCaption fragment : List (Event R) × Text).1, e.Among Family.caption.kinds := by
  unfold Fragment.readCaption
  dsimp only
  split
  · exact Among.only ⟨⟨rfl, trivial, fun _ => rfl⟩, by simp [kind, Family.kinds]⟩
  · intro e he
    rcases List.mem_cons.mp he with rfl | he
    · exact ⟨⟨rfl, trivial, fun _ => rfl⟩, by simp [kind, Family.kinds]⟩
    · rw [List.mem_singleton.mp he]
      exact ⟨⟨rfl, trivial, fun _ => rfl⟩, by simp [kind, Family.kinds]⟩

theorem among_pitchWheel {params : Text} {es : List (Event R)}
    (h : Control.pitchWheelEvents params = .ok es) : ∀ e ∈ es, e.Among Family.call.kinds := by
  have hdata : maxData = 127 := rfl
  have hwheel : maxWheel = 16383 := rfl
  unfold Control.pitchWheelEvents at h
  split at h
  · obtain ⟨value, -, h⟩ := ok_of_bind h
    obtain ⟨n, hn, h⟩ := ok_of_bind h
    cases h
    have := (range_le hn).2
    exact Among.only ⟨⟨rfl, ⟨by omega, by omega⟩, fun _ => rfl⟩, by simp [kind, Family.kinds]⟩
  · obtain ⟨low, -, h⟩ := ok_of_bind h
    obtain ⟨l, hl, h⟩ := ok_of_bind h
    obtain ⟨high, -, h⟩ := ok_of_bind h
    obtain ⟨n, hn, h⟩ := ok_of_bind h
    cases h
    exact Among.only ⟨⟨rfl, ⟨(range_le hl).2, (range_le hn).2⟩, fun _ => rfl⟩,
      by simp [kind, Family.kinds]⟩
  · cases h

theorem among_controller {symbols : Symbols} {params : Text} {es : List (Event R)}
    (h : Control.controllerEvents symbols params = .ok es) : ∀ e ∈ es, e.Among Family.call.kinds := by
  have hdata : maxData = 127 := rfl
  have hwheel : maxWheel = 16383 := rfl
  unfold Control.controllerEvents at h
  split at h
  · obtain ⟨number, -, h⟩ := ok_of_bind h
    obtain ⟨value, -, h⟩ := ok_of_bind h
    split at h
    · obtain ⟨coarse, hcoarse, h⟩ := ok_of_bind h
      obtain ⟨v, hv, h⟩ := ok_of_bind h
      cases h
      have := (range_le hv).2
      intro e he
      rcases List.mem_cons.mp he with rfl | he
      · exact ⟨⟨rfl, ⟨by omega, by omega⟩, fun _ => rfl⟩, by simp [kind, Family.kinds]⟩
      · rw [List.mem_singleton.mp he]
        exact ⟨⟨rfl, ⟨(range_le hcoarse).2, by omega⟩, fun _ => rfl⟩, by simp [kind, Family.kinds]⟩
    · obtain ⟨n, hn, h⟩ := ok_of_bind h
      obtain ⟨v, hv, h⟩ := ok_of_bind h
      cases h
      exact Among.only ⟨⟨rfl, ⟨(range_le hn).2, (range_le hv).2⟩, fun _ => rfl⟩,
        by simp [kind, Family.kinds]⟩
  · cases h

theorem among_channelPressure {params : Text} {es : List (Event R)}
    (h : Control.channelPressureEvents params = .ok es) : ∀ e ∈ es, e.Among Family.call.kinds := by
  unfold Control.channelPressureEvents at h
  split at h
  · obtain ⟨value, -, h⟩ := ok_of_bind h
    obtain ⟨n, hn, h⟩ := ok_of_bind h
    cases h
    exact Among.only ⟨⟨rfl, (range_le hn).2, fun _ => rfl⟩, by simp [kind, Family.kinds]⟩
  · cases h

theorem among_polyPressure {params : Text} {es : List (Event R)}
    (h : Control.polyPressureEvents params = .ok es) : ∀ e ∈ es, e.Among Family.call.kinds := by
  unfold Control.polyPressureEvents at h
  split at h
  · obtain ⟨key, -, h⟩ := ok_of_bind h
    obtain ⟨k, hk, h⟩ := ok_of_bind h
    obtain ⟨value, -, h⟩ := ok_of_bind h
    obtain ⟨n, hn, h⟩ := ok_of_bind h
    cases h
    exact Among.only ⟨⟨rfl, ⟨(range_le hk).2, (range_le hn).2⟩, fun _ => rfl⟩,
      by simp [kind, Family.kinds]⟩
  · cases h

theorem among_systemExclusive {params : Text} {es : List (Event R)}
    (h : Control.systemExclusiveEvents params = .ok es) : ∀ e ∈ es, e.Among Family.call.kinds := by
  obtain ⟨bytes, -, h⟩ := ok_of_bind h
  split at h
  · cases h
  · rename_i hne
    cases h
    exact Among.only ⟨⟨rfl, fun hnil => hne (by rw [hnil]; rfl), fun _ => rfl⟩,
      by simp [kind, Family.kinds]⟩

theorem among_control {control : Control} {symbols : Symbols} {params : Text} {es : List (Event R)}
    (h : control.events symbols params = .ok es) : ∀ e ∈ es, e.Among Family.call.kinds := by
  cases control with
  | pitchWheel => exact among_pitchWheel h
  | controller => exact among_controller h
  | channelPressure => exact among_channelPressure h
  | polyPressure => exact among_polyPressure h
  | systemExclusive => exact among_systemExclusive h

theorem among_call [Scalar R] {ctx : Context R} {fragment rest : Text} {es : List (Event R)}
    (h : Fragment.readCall ctx fragment = .ok (es, rest)) : ∀ e ∈ es, e.Among Family.call.kinds := by
  obtain ⟨⟨name, params, left⟩, -, h⟩ := ok_of_bind h
  dsimp only at h
  split at h
  · obtain ⟨events, hevents, h⟩ := ok_of_bind h
    cases h
    exact among_control hevents
  · cases h
    exact Among.only ⟨⟨rfl, trivial, fun _ => rfl⟩, by simp [kind, Family.kinds]⟩

theorem meter_range {text : Text} {m : Meter} (h : Meter.ofText text = .ok m) :
    1 ≤ m.beats ∧ m.beats ≤ 255 ∧ m.power < 8 := by
  have hpart : ∀ s n, Meter.part? s = some n → n ≤ 255 := by
    intro s n hn
    have hlimit : Numeral.largest 8 = 255 := rfl
    rw [← hlimit]
    simpa using (Option.filter_eq_some_iff.mp hn).2
  unfold Meter.ofText at h
  split at h
  · cases h
  · split at h
    · rename_i b u hb hu
      split at h
      · rename_i hmeter
        cases h
        refine ⟨Nat.one_le_iff_ne_zero.mpr hmeter.1, hpart _ _ hb, ?_⟩
        have hle := hpart _ _ hu
        by_contra hpower
        have hpow : Nat.pow 2 8 ≤ Nat.pow 2 (Meter.powerOf u) :=
          Nat.pow_le_pow_right (by decide) (by simpa [Meter.power] using hpower)
        rw [← hmeter.2] at hpow
        have : Nat.pow 2 8 = 256 := rfl
        omega
      · cases h
    · cases h

/-- A signature is a steady meter, or a key that is remembered. -/
theorem signature_cases {memory memory' : Memory} {fragment rest : Text} {es : List (Event R)}
    (h : Fragment.readSignature memory fragment = .ok (es, memory', rest)) :
    ((∀ e ∈ es, e.Among Family.signature.kinds) ∧ ∃ meter, memory' = { memory with meter := meter }) ∨
      ∃ key : Key, es = [.keySignature key.fifths key.mode] ∧ memory' = { memory with key := key } := by
  unfold Fragment.readSignature at h
  split at h
  · obtain ⟨meter, hmeter, h⟩ := ok_of_bind h
    cases h
    exact .inl ⟨Among.only ⟨⟨rfl, meter_range hmeter, fun _ => rfl⟩,
      by simp [kind, Family.kinds]⟩, meter, rfl⟩
  · obtain ⟨key, -, h⟩ := ok_of_bind h
    cases h
    exact .inr ⟨key, rfl, rfl⟩

end Event

namespace Family

variable {R : Type}

theorem forall_settled {P : Event R → Prop} {memory : Memory}
    {result : Except Error (List (Event R) × Text)}
    (h : ∀ es rest, result = .ok (es, rest) → ∀ e ∈ es, P e) :
    ∀ e ∈ (settled memory result).events, P e := by
  cases hr : result with
  | error _ => simp [settled]
  | ok reading => exact h _ _ hr

/-- The families that read neither notes nor signatures announce steady events of their kinds. -/
theorem among_read [Scalar R] (ctx : Context R) (fragment : Text) {family : Family}
    (h : family ∉ [Family.atom, .note, .signature]) :
    ∀ e ∈ (family.read ctx fragment).events, e.Among family.kinds := by
  cases family with
  | atom | note | signature => exact absurd h (by decide)
  | barLine => exact forall_settled fun _ _ h => Event.among_barLine h
  | selection => exact forall_settled fun _ _ h => Event.among_readSelection h
  | tempo => exact forall_settled fun _ _ h => Event.among_tempo h
  | beatTime => exact forall_settled fun _ _ h => Event.among_beatTime h
  | caption =>
    refine forall_settled fun es rest h => ?_
    have := Event.among_caption (R := R) fragment
    rwa [Except.ok.inj h] at this
  | call => exact forall_settled fun _ _ h => Event.among_call h

end Family

end ScoreText
