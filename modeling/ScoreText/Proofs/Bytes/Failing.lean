import ScoreText.Proofs.Bytes.Parsing

/-!
Fragments that fail. Every family but atoms looks at all of what it takes before it fires the first event
and before it changes what is remembered. So a fragment that fails, however late, leaves everything as it
was.
-/

set_option autoImplicit false

namespace ScoreText

variable {R : Type}

namespace Parsing

open Effect Fragment

theorem clean_select (kind : NameKind) (quantity : Quantity) (low high : Nat) (event : Nat → Event R)
    (fragment : Text) : Clean (select kind quantity low high event fragment) := by
  refine still_remembered.bind fun memory => (still_of _).bind fun p => (still_of _).bind fun number => ?_
  exact clean_fire_pure _ _

theorem clean_selection (fragment : Text) : Clean (selection fragment : Effect R Nat) := by
  unfold selection
  split
  · exact (still_of _).clean
  · unfold selector?
    split <;> exact clean_select _ _ _ _ _ _

/-- All joined notes are read before the first of them sounds. -/
theorem clean_notes [Scalar R] (dialect : Dialect R) (fragment : Text) : Clean (notes dialect fragment) := by
  refine still_remembered.bind fun memory => (still_of _).bind fun p => ?_
  exact ((sure_fireAll _).bind fun _ => sure_pure _).clean

theorem clean_barLine (fragment : Text) : Clean (barLine fragment : Effect R Nat) := by
  refine (still_of _).bind fun body => ?_
  dsimp only
  split
  · exact clean_fire_pure _ _
  · refine (still_of _).bind fun number => ?_
    split
    · exact clean_fire_pure _ _
    · exact (still_of _).clean

theorem clean_beatTime [Scalar R] (fragment : Text) : Clean (beatTime fragment : Effect R Nat) := by
  unfold beatTime
  split
  · split
    · exact (still_of _).clean
    · exact clean_fire_pure _ _
  · refine (still_of _).bind fun literal => ?_
    split
    · exact (still_of _).clean
    · dsimp only
      split
      · exact (still_of _).clean
      · exact clean_fire_pure _ _

theorem clean_caption (fragment : Text) : Clean (caption fragment : Effect R Nat) := by
  refine (still_of _).bind fun body => ?_
  dsimp only
  split
  · exact clean_fire_pure _ _
  · exact ((sure_fire _).bind fun _ => (sure_fire _).bind fun _ => sure_pure _).clean

theorem clean_call (dialect : Dialect R) (fragment : Text) : Clean (call dialect fragment) := by
  refine (still_of _).bind fun parts => ?_
  dsimp only
  split
  · exact (Control.clean_apply _ _).bind fun _ => sure_pure _
  · exact clean_fire_pure _ _

/-- A signature is remembered when it has been read to its end. -/
theorem clean_signature (fragment : Text) : Clean (signature fragment : Effect R Nat) := by
  unfold signature
  split
  · refine (still_of _).bind fun meter => ?_
    exact ((sure_remember _).bind fun _ => (sure_fire _).bind fun _ => sure_pure _).clean
  · refine (still_of _).bind fun key => ?_
    exact ((sure_remember _).bind fun _ => (sure_fire _).bind fun _ => sure_pure _).clean

end Parsing

namespace Family

open Effect

theorem settled_failed {memory : Memory} {x : Except Error (List (Event R) × Text)} {e : Error}
    (h : (settled memory x).result = .error e) :
    (settled memory x).events = [] ∧ (settled memory x).memory = memory := by
  cases x with
  | ok p => cases h
  | error e => exact ⟨rfl, rfl⟩

variable [Scalar R]

theorem clean_parse (dialect : Dialect R) {family : Family} (h : family ≠ .atom) (fragment : Text) :
    Clean (family.parse dialect fragment) := by
  cases family with
  | atom => exact absurd rfl h
  | note => exact Parsing.clean_notes dialect fragment
  | barLine => exact Parsing.clean_barLine fragment
  | selection => exact Parsing.clean_selection fragment
  | signature => exact Parsing.clean_signature fragment
  | tempo => exact Parsing.clean_select _ _ _ _ _ fragment
  | beatTime => exact Parsing.clean_beatTime fragment
  | caption => exact Parsing.clean_caption fragment
  | call => exact Parsing.clean_call dialect fragment

theorem read_failed {ctx : Context R} {family : Family} (hatom : family ≠ .atom) {fragment : Text} {e : Error}
    (h : (family.read ctx fragment).result = .error e) :
    (family.read ctx fragment).events = [] ∧ (family.read ctx fragment).memory = ctx.memory := by
  cases family with
  | atom => exact absurd rfl hatom
  | signature =>
    rw [read] at h ⊢
    cases hread : (Fragment.readSignature ctx.memory fragment :
        Except Error (List (Event R) × Memory × Text)) with
    | ok p =>
      rw [hread] at h
      cases h
    | error e => exact ⟨rfl, rfl⟩
  | _ => exact settled_failed h

/-- A fragment that fails leaves no trace, of whatever family but atoms it is: nothing has been fired, and
key, meter and symbols are what they were. So it is where bytes are parsed, each effect in its turn, and where
characters are read; and of a fragment that the family claims the two come to the same. -/
theorem failure_leaves_no_trace (dialect : Dialect R) {family : Family} (h : family ≠ .atom) (fragment : Text)
    (before : Trace R) :
    (∀ halt, ((family.parse dialect fragment).run before).1 = .error halt →
      ((family.parse dialect fragment).run before).2 = before) ∧
    (∀ e, (family.read ⟨dialect, before.memory⟩ fragment).result = .error e →
      (family.read ⟨dialect, before.memory⟩ fragment).events = [] ∧
        (family.read ⟨dialect, before.memory⟩ fragment).memory = before.memory) ∧
    (family.claims fragment = true → (family.parse dialect fragment).run before =
      (family.read ⟨dialect, before.memory⟩ fragment).onBytes fragment before) :=
  ⟨clean_parse dialect h fragment before, fun _ => read_failed h,
    fun hclaims => run_parse dialect hclaims before⟩

/-- A call whose second parameter is beyond its range, after the first has been accepted. -/
def overreachingCall : Text := [':', 'C', 'E', '(', '7', ',', '2', '0', '0', ')']

/-- What has come of selecting a track. -/
def oneTrackOn : Trace Rat := ⟨[.track 1], .initial .standard⟩

theorem overreachingCall_leaves_no_trace :
    Family.call ≠ .atom ∧ (Family.call.parse .standard overreachingCall).run oneTrackOn =
      (.error (.failed (.outOfRange .controllerValue 200 0 127)), oneTrackOn) := by
  have hother : Family.call ≠ .atom := by decide
  have hfails : ((Family.call.parse .standard overreachingCall).run oneTrackOn).1 =
      .error (.failed (.outOfRange .controllerValue 200 0 127)) := rfl
  exact ⟨hother, Prod.ext hfails
    ((failure_leaves_no_trace .standard hother overreachingCall oneTrackOn).1 _ hfails)⟩

-- An atom that fails has made the changes before the one at fault.
example : ((Family.atom.parse (.standard : Dialect Rat) ['~', 'V', '1', ',', 'X', ',', 'C']).run
    ⟨[], .initial .standard⟩).2.events = [.track 1] := rfl

end Family

end ScoreText
