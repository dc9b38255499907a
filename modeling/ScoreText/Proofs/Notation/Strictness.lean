import ScoreText.Proofs.Expansion.Recognition
import ScoreText.Proofs.Notation.Claiming
import ScoreText.Proofs.Notation.Composing
import ScoreText.Proofs.Notation.Kinds
import ScoreText.Proofs.Text.Cutting

/-!
A strict reading beside a permissive one of the same text: they are the same, unless the strict one
stops at a piece that nothing claims, and it does so in the right place.
-/

set_option autoImplicit false

namespace ScoreText

variable {R : Type} [Scalar R]

def Dialect.withStrict {R : Type} (dialect : Dialect R) (strict : Bool) : Dialect R :=
  { dialect with settings := { dialect.settings with strict := strict } }

/-- No family looks at whether the dialect is strict. -/
theorem Family.read_withStrict (dialect : Dialect R) (strict : Bool) (memory : Memory) (s : Text)
    (family : Family) :
    family.read ⟨dialect.withStrict strict, memory⟩ s = family.read ⟨dialect, memory⟩ s := by
  cases family <;> rfl

theorem Family.of?_eq_none_iff (s : Text) :
    Family.of? s = none ↔ ∀ family : Family, family.claims s = false := by
  rw [Family.of?, List.find?_eq_none]
  refine ⟨fun h family => ?_, fun h family _ => ?_⟩
  · have hall : family ∈ Family.all := by cases family <;> decide
    simpa using h family hall
  · rw [h family]
    exact Bool.false_ne_true

/-- A piece of a text, from so many characters on to the next space or to the end, that no family
claims. -/
structure Unclaimed (t : Text) (place : Nat) (token : Text) : Prop where
  nonempty : token ≠ []
  spaceless : ' ' ∉ token
  placed : ∃ rest, t.drop place = token ++ rest ∧ (rest = [] ∨ rest.head? = some ' ')
  unclaimed : ∀ family : Family, family.claims token = false

/-- A permissive reading goes on where a strict one stops at a piece that nothing claims; up to there,
and where there is no such piece, they are the same. The text stands at `position`. -/
inductive Beside (position : Nat) (t : Text) (strict permissive : Outcome R) : Prop where
  | same (recognizes : Recognizes strict.result) (eq : strict = permissive)
  | stopped (place : Nat) (token : Text) (unclaimed : Unclaimed t place token)
    (result : strict.result = .error (.unrecognized token (position + place)))
    (events : strict.events <+: permissive.events)

theorem Text.drop_join {f g : Text} {rest : List Text} (place : Nat) :
    (Text.join [' '] (f :: g :: rest)).drop (f.length + 1 + place) =
      (Text.join [' '] (g :: rest)).drop place := by
  rw [Text.join, List.append_assoc, Nat.add_assoc, List.drop_length_add_append,
    List.singleton_append, Nat.add_comm 1, List.drop_succ_cons]

omit [Scalar R] in
/-- Two readings of what stands after the first fragment, put behind what that has announced. -/
theorem Beside.later {position : Nat} {f : Text} {rest : List Text} {strict permissive : Outcome R}
    (events : List (Event R))
    (h : Beside (position + f.length + 1) (Text.join [' '] rest) strict permissive) :
    Beside position (Text.join [' '] (f :: rest)) { strict with events := events ++ strict.events }
      { permissive with events := events ++ permissive.events } := by
  cases h with
  | same hrecognizes hsame => exact .same hrecognizes (by rw [hsame])
  | stopped place token hunclaimed hresult hevents =>
    have hposition : position + f.length + 1 + place = position + (f.length + 1 + place) := by
      omega
    refine .stopped (f.length + 1 + place) token ?_ (hposition ▸ hresult)
      ((List.prefix_append_right_inj events).mpr hevents)
    obtain ⟨hne, hspaceless, ⟨after, hplaced, hend⟩, hnone⟩ := hunclaimed
    cases rest with
    | nil => exact absurd (List.append_eq_nil_iff.mp (by simpa [Text.join] using hplaced.symm)).1 hne
    | cons g rest => exact ⟨hne, hspaceless, ⟨after, (Text.drop_join place).trans hplaced, hend⟩, hnone⟩

namespace Parser

variable (dialect : Dialect R)

section Step

variable (fuel position : Nat) {memory : Memory} {c : Char} {r : Text} {family : Family}
  (h : Family.of? (c :: r) = some family)

include h

/-- A fragment fails where the family fails that claims it. -/
theorem readFragment_of_error {e : Error}
    (hresult : (family.read (⟨dialect, memory⟩ : Context R) (c :: r)).result = .error e) :
    readFragment dialect (fuel + 1) position memory (c :: r) =
      ⟨(family.read ⟨dialect, memory⟩ (c :: r)).events,
        (family.read (⟨dialect, memory⟩ : Context R) (c :: r)).memory, .error e⟩ := by
  rw [readFragment, h]
  · simp only [hresult]
  · exact List.cons_ne_nil c r

/-- What a family leaves of a fragment is read on, as much further along as it has taken. -/
theorem readFragment_of_ok {taken left : Text} (hr : taken ++ left = r)
    (hresult : (family.read (⟨dialect, memory⟩ : Context R) (c :: r)).result = .ok left) :
    readFragment dialect (fuel + 1) position memory (c :: r) =
      Outcome.andThen ⟨(family.read ⟨dialect, memory⟩ (c :: r)).events,
        (family.read (⟨dialect, memory⟩ : Context R) (c :: r)).memory, .ok ()⟩ fun memory =>
          readFragment dialect fuel (position + (c :: taken).length) memory left := by
  have hlength : (c :: r).length = (c :: taken).length + left.length := by
    rw [← List.length_append, List.cons_append, hr]
  have hshorter : left.length < (c :: r).length := by
    rw [hlength]
    exact Nat.lt_add_of_pos_left (Nat.succ_pos _)
  rw [readFragment, h]
  · simp only [hresult, if_pos hshorter]
    rw [hlength, Nat.add_sub_cancel]
  · exact List.cons_ne_nil c r

end Step

/-- Two readings of a fragment: the permissive one differs only in that it succeeds where the strict
one stops. -/
theorem beside_readFragment {fuel : Nat} {s : Text} (hfuel : s.length ≤ fuel) (position : Nat)
    (memory : Memory) :
    (Recognizes (readFragment (dialect.withStrict true) fuel position memory s).result ∧
        readFragment (dialect.withStrict true) fuel position memory s =
          readFragment (dialect.withStrict false) fuel position memory s) ∨
      ∃ taken token, s = taken ++ token ∧ token ≠ [] ∧ Family.of? token = none ∧
        (readFragment (dialect.withStrict true) fuel position memory s).result =
          .error (.unrecognized token (position + taken.length)) ∧
        readFragment (dialect.withStrict false) fuel position memory s =
          { readFragment (dialect.withStrict true) fuel position memory s with result := .ok () } := by
  induction fuel generalizing s position memory with
  | zero =>
    rw [List.length_eq_zero_iff.mp (Nat.le_zero.mp hfuel)]
    exact .inl ⟨recognizes_ok _, rfl⟩
  | succ fuel ih =>
    cases s with
    | nil => exact .inl ⟨recognizes_ok _, rfl⟩
    | cons c r =>
      cases hfamily : Family.of? (c :: r) with
      | none =>
        have hstop : ∀ strict, readFragment (dialect.withStrict strict) (fuel + 1) position memory
            (c :: r) = unclaimed (dialect.withStrict strict) position memory (c :: r) := by
          intro strict
          rw [readFragment, hfamily]
          exact List.cons_ne_nil c r
        rw [hstop, hstop]
        exact .inr ⟨[], c :: r, rfl, List.cons_ne_nil c r, hfamily, rfl, rfl⟩
      | some family =>
        have hkeeps := family.keeps_read ⟨dialect, memory⟩ (c :: r) (Family.claims_of_of? hfamily)
        have hread : ∀ strict, family.read ⟨dialect.withStrict strict, memory⟩ (c :: r) =
            family.read ⟨dialect, memory⟩ (c :: r) :=
          fun strict => family.read_withStrict dialect strict memory (c :: r)
        cases hresult : (family.read ⟨dialect, memory⟩ (c :: r)).result with
        | error e =>
          have hstop := fun strict => readFragment_of_error (dialect.withStrict strict) fuel position
            hfamily ((congrArg _ (hread strict)).trans hresult)
          have hrecognizes := hkeeps.recognizes
          rw [hresult] at hrecognizes
          simp only [hread] at hstop
          exact .inl ⟨by rw [hstop]; exact hrecognizes.error, by rw [hstop, hstop]⟩
        | ok left =>
          obtain ⟨more, hmore⟩ := hkeeps.suffix left hresult
          have hnext := fun strict => readFragment_of_ok (dialect.withStrict strict) fuel position
            hfamily hmore ((congrArg _ (hread strict)).trans hresult)
          simp only [hread] at hnext
          have hshorter : left.length ≤ fuel :=
            (hkeeps.suffix left hresult).length_le.trans (Nat.le_of_succ_le_succ hfuel)
          rw [hnext, hnext]
          simp only [Outcome.andThen]
          rcases ih hshorter (position + (c :: more).length)
            (family.read ⟨dialect, memory⟩ (c :: r)).memory with
            ⟨hrecognizes, hsame⟩ | ⟨taken, token, rfl, hne, hnone, hstrict, hpermissive⟩
          · exact .inl ⟨hrecognizes, by rw [hsame]⟩
          · refine .inr ⟨c :: more ++ taken, token, ?_, hne, hnone, ?_, by rw [hpermissive]⟩
            · rw [List.append_assoc, List.cons_append]
              exact congrArg _ hmore.symm
            · rw [hstrict, List.length_append, Nat.add_assoc]

/-- What follows a part of the first fragment, up to its end, is a space or nothing. -/
theorem drop_join_first (taken token : Text) (rest : List Text) :
    ∃ after, (Text.join [' '] ((taken ++ token) :: rest)).drop taken.length = token ++ after ∧
      (after = [] ∨ after.head? = some ' ') := by
  cases rest with
  | nil => exact ⟨[], by simp [Text.join], .inl rfl⟩
  | cons g rest =>
    refine ⟨' ' :: Text.join [' '] (g :: rest), ?_, .inr rfl⟩
    rw [Text.join, List.append_assoc, List.append_assoc, List.drop_left, List.singleton_append]

theorem beside_readFragments {fs : List Text} (hfs : ∀ f ∈ fs, ' ' ∉ f) (position : Nat)
    (memory : Memory) :
    Beside position (Text.join [' '] fs)
      (readFragments (dialect.withStrict true) position memory fs)
      (readFragments (dialect.withStrict false) position memory fs) := by
  induction fs generalizing position memory with
  | nil => exact .same (recognizes_ok _) rfl
  | cons f rest ih =>
    obtain ⟨hf, hrest⟩ := List.forall_mem_cons.mp hfs
    rw [readFragments, readFragments]
    rcases beside_readFragment dialect (Nat.le_refl f.length) position memory with
      ⟨hrecognizes, hsame⟩ | ⟨taken, token, rfl, hne, hnone, hstrict, hpermissive⟩
    · rw [← hsame]
      obtain ⟨o, ho⟩ : ∃ o, readFragment (dialect.withStrict true) f.length position memory f = o :=
        ⟨_, rfl⟩
      rw [ho] at hrecognizes ⊢
      obtain ⟨events, memory', result⟩ := o
      cases result with
      | error e => exact .same hrecognizes rfl
      | ok u => exact (ih hrest (position + f.length + 1) memory').later events
    · rw [hpermissive]
      have hstop : ∀ next : Memory → Outcome R,
          (readFragment (dialect.withStrict true) (taken ++ token).length position memory
            (taken ++ token)).andThen next =
          readFragment (dialect.withStrict true) (taken ++ token).length position memory
            (taken ++ token) := by
        intro next
        rw [Outcome.andThen, hstrict]
      rw [hstop]
      refine .stopped taken.length token ⟨hne, fun h => hf (List.mem_append_right taken h), ?_,
        (Family.of?_eq_none_iff token).mp hnone⟩ hstrict (List.prefix_append _ _)
      exact drop_join_first taken token rest

/-- Neither the start nor the end of parsing is announced within. -/
theorem inner_readText (p : Parser R) (text : Text) :
    ∀ e ∈ (p.readText text).events, e.kind ≠ .parsingStarts ∧ e.kind ≠ .parsingEnds := by
  refine forall_readText fun _ _ memory fragment family _ e he => ?_
  have hkind := family.kind_read ⟨p.dialect, memory⟩ fragment e he
  have hinner : ∀ family : Family, EventKind.parsingStarts ∉ family.kinds ∧
      EventKind.parsingEnds ∉ family.kinds := by
    intro family
    cases family <;> decide
  exact ⟨fun h => (hinner family).1 (h ▸ hkind), fun h => (hinner family).2 (h ▸ hkind)⟩

theorem beside_readText (p : Parser R) (text : Text) :
    let strict := (p.withStrict true).readText text
    let permissive := (p.withStrict false).readText text
    (Recognizes strict.result ∧ strict = permissive) ∨
      ∃ t place token, p.expand text = .ok t ∧ Unclaimed t place token ∧
        strict.result = .error (.unrecognized token place) ∧ strict.events <+: permissive.events := by
  intro strict permissive
  have hexpand : ∀ strict, (p.withStrict strict).expand text = p.expand text := fun _ => rfl
  simp only [strict, permissive, readText, hexpand]
  cases ht : p.expand text with
  | error e =>
    have hrecognizes := p.recognizes_expand text
    rw [ht] at hrecognizes
    exact .inl ⟨hrecognizes.error, rfl⟩
  | ok t =>
    have hbeside := beside_readFragments p.dialect
      (fun f (hf : f ∈ Text.fields ' ' t) => Text.not_mem_of_mem_fields hf) 0 p.memory
    rw [Text.join_fields] at hbeside
    cases hbeside with
    | same hrecognizes hsame => exact .inl ⟨hrecognizes, hsame⟩
    | stopped place token hunclaimed hresult hevents =>
      rw [Nat.zero_add] at hresult
      exact .inr ⟨t, place, token, rfl, hunclaimed, hresult, hevents⟩

end Parser

end ScoreText
