import ScoreText.Proofs.Notation.Progress

/-!
Progress in reading fragments. A family takes a character at least of a fragment that it claims and
leaves an end of it, and it does not fail for want of a family. What every family keeps is kept by reading
fragments from end to end.
-/

set_option autoImplicit false

namespace ScoreText

theorem Meter.recognizes_ofText (text : Text) : Recognizes (Meter.ofText text) := by
  unfold ofText
  split
  · exact fun _ _ h => nomatch h
  · split
    · split <;> exact fun _ _ h => nomatch h
    · exact fun _ _ h => nomatch h

theorem Key.recognizes_ofText (text : Text) : Recognizes (Key.ofText text) := by
  unfold ofText
  dsimp only
  split
  · exact recognizes_ok _
  · split <;> exact fun _ _ h => nomatch h

namespace Params

theorem recognizes_number (param : Text) : Recognizes (number param) := by
  unfold number
  split <;> exact fun _ _ h => nomatch h

theorem recognizes_numberOrName (symbols : Symbols) (kind : NameKind) (param : Text) :
    Recognizes (numberOrName symbols kind param) := by
  unfold numberOrName
  split
  · exact recognizes_ok _
  · exact symbols.recognizes_require _ _

/-- A number that is looked at for its range before it is used. -/
theorem recognizes_checked {α : Type} {x : Except Error Int} {quantity : Quantity} {low high : Nat}
    {f : Nat → Except Error α} (hx : Recognizes x) (hf : ∀ n, Recognizes (f n)) :
    Recognizes (x >>= fun value => checkRange quantity value low high >>= f) :=
  hx.bind fun _ => (recognizes_checkRange _ _ _ _).bind hf

end Params

namespace Control

open Params

theorem recognizes_byte (text : Text) : Recognizes (byte text) := by
  unfold byte
  split <;> exact fun _ _ h => nomatch h

theorem recognizes_events {R : Type} (control : Control) (symbols : Symbols) (params : Text) :
    Recognizes (control.events symbols params : Except Error (List (Event R))) := by
  cases control with
  | pitchWheel =>
    simp only [events, pitchWheelEvents]
    split
    · exact recognizes_checked (recognizes_number _) fun n => recognizes_ok _
    · refine recognizes_checked (recognizes_number _) fun low => ?_
      exact recognizes_checked (recognizes_number _) fun high => recognizes_ok _
    · exact fun _ _ h => nomatch h
  | controller =>
    simp only [events, controllerEvents]
    split
    · refine (recognizes_numberOrName _ _ _).bind fun number => ?_
      refine (recognizes_numberOrName _ _ _).bind fun value => ?_
      split
      · refine (recognizes_checkRange _ _ _ _).bind fun coarse => ?_
        exact (recognizes_checkRange _ _ _ _).bind fun value => recognizes_ok _
      · refine (recognizes_checkRange _ _ _ _).bind fun number => ?_
        exact (recognizes_checkRange _ _ _ _).bind fun value => recognizes_ok _
    · exact fun _ _ h => nomatch h
  | channelPressure =>
    simp only [events, channelPressureEvents]
    split
    · exact recognizes_checked (recognizes_number _) fun n => recognizes_ok _
    · exact fun _ _ h => nomatch h
  | polyPressure =>
    simp only [events, polyPressureEvents]
    split
    · refine recognizes_checked (recognizes_number _) fun key => ?_
      exact recognizes_checked (recognizes_number _) fun pressure => recognizes_ok _
    · exact fun _ _ h => nomatch h
  | systemExclusive =>
    refine (Recognizes.mapM recognizes_byte _).bind fun bytes => ?_
    split <;> exact fun _ _ h => nomatch h

end Control

namespace Fragment

variable {R : Type} (symbols : Symbols) (fragment : Text)

theorem keeps_readValue (kind : NameKind) : Keeps fragment.tail (readValue symbols kind fragment) := by
  unfold readValue
  dsimp only
  rw [List.drop_one]
  split
  · split
    · exact .ok (Text.suffix_takeDigits _) _
    · exact .error fun _ _ h => nomatch h
  · split
    · exact .error fun _ _ h => nomatch h
    · rename_i r heq
      split
      · exact .error fun _ _ h => nomatch h
      · rename_i name rest hcut
        refine .bind_value (symbols.recognizes_require _ _) fun value => .ok ?_ _
        rw [heq]
        exact (Text.suffix_of_cut? hcut).trans (List.suffix_cons _ r)
    · exact .bind_value (symbols.recognizes_require _ _) fun value => .ok List.nil_suffix _

theorem keeps_readSelection? {reading : Except Error (Event R × Text)}
    (h : readSelection? symbols fragment = some reading) : Keeps fragment.tail reading := by
  unfold readSelection? at h
  split at h
  case h_4 => cases h
  all_goals
    cases h
    refine (keeps_readValue symbols fragment _).bind fun value rest => ?_
    exact .bind_value (recognizes_checkRange _ _ _ _) fun n => .ok List.suffix_rfl _

theorem keeps_readSelection (h : Family.selection.claims fragment = true) :
    Keeps fragment.tail (readSelection symbols fragment : Except Error (List (Event R) × Text)) := by
  unfold readSelection
  split
  · rename_i reading heq
    exact (keeps_readSelection? symbols fragment heq).bind fun event rest => .ok List.suffix_rfl _
  · rename_i hnone
    unfold readSelection? at hnone
    split at hnone
    case h_4 hV hL hI =>
      simp only [Family.claims, Bool.or_eq_true, beq_iff_eq] at h
      rcases h with (h | h) | h
      · exact absurd h hV
      · exact absurd h hL
      · exact absurd h hI
    all_goals cases hnone

theorem keeps_readBarLine :
    Keeps fragment.tail (readBarLine fragment : Except Error (List (Event R) × Text)) := by
  have hdigits := Text.suffix_takeDigits fragment.tail
  unfold readBarLine
  dsimp only
  rw [List.drop_one]
  split
  · exact .ok hdigits _
  · split
    · exact .ok hdigits _
    · exact .error fun _ _ h => nomatch h

theorem keeps_readTempo :
    Keeps fragment.tail (readTempo symbols fragment : Except Error (List (Event R) × Text)) := by
  refine (keeps_readValue symbols fragment .tempo).bind fun value rest => ?_
  exact .bind_value (recognizes_checkRange _ _ _ _) fun bpm => .ok List.suffix_rfl _

theorem keeps_readBeatTime [Scalar R] :
    Keeps fragment.tail (readBeatTime fragment : Except Error (List (Event R) × Text)) := by
  unfold readBeatTime
  split
  · split
    · exact .error fun _ _ h => nomatch h
    · exact .ok List.nil_suffix _
  · split
    · exact .error fun _ _ h => nomatch h
    · dsimp only
      split
      · exact .error fun _ _ h => nomatch h
      · exact .ok List.nil_suffix _

theorem keeps_readCaption :
    Keeps fragment.tail (.ok (readCaption fragment) : Except Error (List (Event R) × Text)) := by
  unfold readCaption
  dsimp only
  split <;> exact .ok List.nil_suffix _

theorem suffix_of_splitCall {name params rest : Text}
    (h : splitCall fragment = .ok (name, params, rest)) : rest <:+ fragment.tail := by
  unfold splitCall at h
  dsimp only at h
  rw [List.drop_one] at h
  split at h
  · split at h
    · cases h
    · cases h
      exact List.nil_suffix
  · rename_i name' tail hcut
    split at h
    · cases h
    · rename_i params' rest' hlast
      cases h
      exact (Text.suffix_of_cutLast? hlast).trans (Text.suffix_of_cut? hcut)

theorem recognizes_splitCall : Recognizes (splitCall fragment) := by
  unfold splitCall
  dsimp only
  split
  · split <;> exact fun _ _ h => nomatch h
  · split <;> exact fun _ _ h => nomatch h

theorem keeps_readCall [Scalar R] (ctx : Context R) : Keeps fragment.tail (readCall ctx fragment) := by
  refine ⟨(recognizes_splitCall fragment).bind fun call => ?_, fun events left h => ?_⟩
  · dsimp only
    split
    · exact (Control.recognizes_events _ _ _).bind fun events => recognizes_ok _
    · exact recognizes_ok _
  · obtain ⟨⟨name, params, rest⟩, hsplit, h⟩ := ok_of_bind h
    have hrest := suffix_of_splitCall fragment hsplit
    dsimp only at h
    split at h
    · obtain ⟨events', -, h⟩ := ok_of_bind h
      cases h
      exact hrest
    · cases h
      exact hrest

theorem keeps_readNotes [Scalar R] (ctx : NoteContext R) :
    Keeps fragment.tail (readNotes ctx fragment) :=
  (ctx.keeps_read fragment).bind fun _ _ => .ok List.suffix_rfl _

theorem recognizes_readAtomParts (parts : List Text) {e : Error}
    (h : (readAtomParts symbols fragment parts : List (Event R) × Option Error).2 = some e) :
    Recognizes (.error e : Except Error Text) := by
  induction parts with
  | nil => cases h
  | cons part rest ih =>
    unfold readAtomParts at h
    split at h
    · cases h
      exact fun _ _ h => nomatch h
    · rename_i e' heq
      cases h
      exact (keeps_readSelection? symbols part heq).recognizes.error
    · exact ih h

end Fragment

/-- A reading that does not fail for want of a family and leaves an end of a text. -/
structure Reading.Keeps {R : Type} (s : Text) (reading : Reading R) : Prop where
  recognizes : Recognizes reading.result
  suffix : ∀ left, reading.result = .ok left → left <:+ s

theorem Reading.Keeps.error {R : Type} {s : Text} {reading : Reading R} {e : Error}
    (h : reading.result = .error e) (hrecognizes : Recognizes (.error e : Except Error Text)) :
    reading.Keeps s := by
  refine ⟨h ▸ hrecognizes, fun left hleft => ?_⟩
  rw [h] at hleft
  cases hleft

namespace Family

variable {R : Type}

theorem claims_of_of? {s : Text} {family : Family} (h : Family.of? s = some family) :
    family.claims s = true :=
  List.find?_some (p := fun family => Family.claims family s) h

theorem keeps_settled {memory : Memory} {s : Text} {x : Except Error (List (Event R) × Text)}
    (h : Keeps s x) : (settled memory x).Keeps s := by
  cases x with
  | ok p => exact ⟨recognizes_ok _, fun left heq => by cases heq; exact h.suffix _ _ rfl⟩
  | error e => exact .error rfl h.recognizes.error

variable [Scalar R] (ctx : Context R) (fragment : Text)

theorem keeps_atom : (Family.atom.read ctx fragment).Keeps fragment.tail := by
  have hparts : ∀ e, (Fragment.readAtomParts ctx.memory.symbols fragment
      (Text.fields ',' (fragment.drop 1)).dropLast : List (Event R) × Option Error).2 = some e →
      Recognizes (.error e : Except Error Text) :=
    fun e h => Fragment.recognizes_readAtomParts _ _ _ h
  simp only [read, Fragment.readAtom]
  split
  · rename_i e heq
    exact .error rfl (hparts e heq)
  · have hnotes := Fragment.keeps_readNotes ((Text.fields ',' (fragment.drop 1)).getLast?.getD [])
      ctx.noteContext
    split
    · rename_i e heq
      rw [heq] at hnotes
      exact .error rfl hnotes.recognizes.error
    · refine .error rfl ?_
      rintro token position ⟨⟩
    · exact ⟨recognizes_ok _, fun left h => by cases h; exact List.nil_suffix⟩

theorem keeps_signature : (Family.signature.read ctx fragment).Keeps fragment.tail := by
  have hsignature : Recognizes (Fragment.readSignature ctx.memory fragment :
      Except Error (List (Event R) × Memory × Text)) := by
    unfold Fragment.readSignature
    split
    · exact (Meter.recognizes_ofText _).bind fun meter => recognizes_ok _
    · exact (Key.recognizes_ofText _).bind fun key => recognizes_ok _
  have hwhole : ∀ events memory rest, (Fragment.readSignature ctx.memory fragment :
      Except Error (List (Event R) × Memory × Text)) = .ok (events, memory, rest) → rest = [] := by
    intro events memory rest h
    unfold Fragment.readSignature at h
    split at h
    · obtain ⟨meter, -, h⟩ := ok_of_bind h
      cases h
      rfl
    · obtain ⟨key, -, h⟩ := ok_of_bind h
      cases h
      rfl
  rw [read]
  split
  · rename_i events memory rest heq
    refine ⟨recognizes_ok _, fun left h => ?_⟩
    cases h
    rw [hwhole _ _ _ heq]
    exact List.nil_suffix
  · rename_i e heq
    rw [heq] at hsignature
    exact .error rfl hsignature.error

/-- A family that claims a fragment takes a character of it at least, and leaves an end of it. -/
theorem keeps_read (family : Family) (h : family.claims fragment = true) :
    (family.read ctx fragment).Keeps fragment.tail := by
  cases family with
  | atom => exact keeps_atom ctx fragment
  | note => exact keeps_settled (Fragment.keeps_readNotes fragment _)
  | barLine => exact keeps_settled (Fragment.keeps_readBarLine fragment)
  | selection => exact keeps_settled (Fragment.keeps_readSelection _ fragment h)
  | signature => exact keeps_signature ctx fragment
  | tempo => exact keeps_settled (Fragment.keeps_readTempo _ fragment)
  | beatTime => exact keeps_settled (Fragment.keeps_readBeatTime fragment)
  | caption => exact keeps_settled (Fragment.keeps_readCaption fragment)
  | call => exact keeps_settled (Fragment.keeps_readCall fragment ctx)

end Family

/-- What a reading did, whatever it leaves. -/
def Reading.outcome {R : Type} (reading : Reading R) : Outcome R :=
  ⟨reading.events, reading.memory, reading.result.map fun _ => ()⟩

/-- What holds of an outcome that does nothing, and of one that goes on if it holds of both parts. -/
structure Carried {R : Type} (Q : Memory → Outcome R → Prop) : Prop where
  idle : ∀ memory result, Q memory ⟨[], memory, result⟩
  andThen : ∀ {memory o next}, Q memory o → (∀ memory, Q memory (next memory)) →
    Q memory (Outcome.andThen o next)

namespace Carried

variable {R : Type} [Scalar R] {Q : Memory → Outcome R → Prop} (hQ : Carried Q) {dialect : Dialect R}

include hQ

omit [Scalar R] in
theorem unclaimed (position : Nat) (memory : Memory) (rest : Text) :
    Q memory (Parser.unclaimed dialect position memory rest) := by
  unfold Parser.unclaimed
  split <;> exact hQ.idle memory _

/-- The induction is on the fuel: every family leaves an end of what it reads. -/
theorem readFragment {s : Text}
    (h : ∀ memory t family, t <:+ s → Q memory (Family.read (⟨dialect, memory⟩ : Context R) t family).outcome)
    (fuel position : Nat) (memory : Memory) : Q memory (Parser.readFragment dialect fuel position memory s) := by
  induction fuel generalizing position memory s with
  | zero =>
    cases s with
    | nil => exact hQ.idle memory _
    | cons c r => exact hQ.unclaimed _ _ _
  | succ fuel ih =>
    cases s with
    | nil => exact hQ.idle memory _
    | cons c r =>
      rw [Parser.readFragment]
      split
      · exact hQ.unclaimed _ _ _
      · rename_i family hfamily
        have hfirst := h memory (c :: r) family List.suffix_rfl
        rw [Reading.outcome] at hfirst
        dsimp only
        split
        · rename_i hfailed
          rwa [hfailed] at hfirst
        · rename_i left hleft
          rw [hleft] at hfirst
          refine hQ.andThen hfirst fun memory' => ?_
          split
          · have hkeeps := family.keeps_read ⟨dialect, memory⟩ _ (Family.claims_of_of? hfamily)
            refine ih (fun memory t family ht => h memory t family (ht.trans ?_)) _ _
            exact (hkeeps.suffix left hleft).trans (List.suffix_cons c r)
          · exact hQ.unclaimed _ _ _
      · exact List.cons_ne_nil c r

theorem readFragments {fragments : List Text}
    (h : ∀ memory t family, (∃ fragment ∈ fragments, t <:+ fragment) →
      Q memory (Family.read (⟨dialect, memory⟩ : Context R) t family).outcome)
    (position : Nat) (memory : Memory) : Q memory (Parser.readFragments dialect position memory fragments) := by
  induction fragments generalizing position memory with
  | nil => exact hQ.idle memory _
  | cons fragment rest ih =>
    refine hQ.andThen (hQ.readFragment (fun memory t family ht => ?_) _ position memory)
      fun memory => ih (fun memory t family ht => ?_) _ memory
    · exact h memory t family ⟨fragment, List.mem_cons_self, ht⟩
    · obtain ⟨later, hlater, ht⟩ := ht
      exact h memory t family ⟨later, List.mem_cons_of_mem fragment hlater, ht⟩

end Carried

end ScoreText
