import ScoreText.Proofs.Bytes.Effects
import ScoreText.Proofs.Notation.Claiming

/-!
Parsing fragments byte by byte. A family looks at the bytes of a fragment, cuts out what it needs, fires
events in its order and says how many bytes it has taken. It takes what the reading of characters takes, to
the byte, and comes to the same; and but for an atom, a fragment that fails has left no trace.
-/

set_option autoImplicit false

namespace ScoreText

variable {R : Type}

namespace Parsing

open Text Scanner Effect Fragment

def fault {α : Type} (fault : Fault) (fragment : Text) : Effect R α :=
  check (.error (.malformed fault fragment))

/-- A fragment without the sign that it starts with. -/
def body (fragment : Text) : Except Halt Text := cut fragment 1 (byteSize fragment)

/-- The value after a one-letter sign, and the number of bytes up to its end. -/
def value (symbols : Symbols) (kind : NameKind) (fragment : Text) : Except Halt (Int × Nat) := do
  let body ← body fragment
  let digits := runEnd Char.isDigit body 0
  if 0 < digits then
    let number ← cut body 0 digits
    match Numeral.nat? NoteContext.maxNumber number with
    | some n => return (n, digits + 1)
    | none => .error (.failed (.invalid (.number kind) fragment))
  else
    match Text.after? ['['] body with
    | some inner =>
      match find? ']' inner with
      | none => fail .unclosedBracket fragment
      | some stop => do
        let name ← cut inner 0 stop
        let value ← Halt.lift (symbols.require kind name)
        return (value, stop + 3)
    | none =>
      if body.isEmpty then fail (.needsValue kind) fragment
      else do
        let value ← Halt.lift (symbols.require kind body)
        return (value, byteSize fragment)

/-- Fires what a value within a range stands for. -/
def select (kind : NameKind) (quantity : Quantity) (low high : Nat) (event : Nat → Event R) (fragment : Text) :
    Effect R Nat := do
  let memory ← remembered
  let (value, taken) ← of (value memory.symbols kind fragment)
  let number ← check (checkRange quantity value low high)
  fire (event number)
  return taken

/-- What a sign selects. -/
def selector? : Char → Option (Text → Effect R Nat)
  | 'V' => some (select .voice .voice 0 (trackCount - 1) .track)
  | 'L' => some (select .layer .layer 0 (trackCount - 1) .layer)
  | 'I' => some (select .instrument .instrument 0 maxData .instrument)
  | _ => none

def selection (fragment : Text) : Effect R Nat :=
  match seen? fragment 0 with
  | none => of (.error .torn)
  | some c => (selector? c).getD (select .instrument .instrument 0 maxData .instrument) fragment

def notes [Scalar R] (dialect : Dialect R) (fragment : Text) : Effect R Nat := do
  let memory ← remembered
  let (elements, taken) ← of (Scanner.read (Context.noteContext ⟨dialect, memory⟩) fragment)
  fireAll (elements.map elementEvent)
  return taken

def barLine (fragment : Text) : Effect R Nat := do
  let body ← of (body fragment)
  let digits := runEnd Char.isDigit body 0
  if digits = 0 then do
    fire (.barLine 0)
    return digits + 1
  else do
    let number ← of (cut fragment 1 (digits + 1))
    match Numeral.nat? (Numeral.largest 64) number with
    | some n => do
      fire (.barLine n)
      return digits + 1
    | none => check (.error (.invalid .barLine fragment))

def tempo (fragment : Text) : Effect R Nat := select .tempo .tempo 1 (Numeral.largest 32) .tempo fragment

def beatTime [Scalar R] (fragment : Text) : Effect R Nat :=
  match Text.after? ['@', '#'] fragment with
  | some name =>
    if name.isEmpty then fault .bookmarkNeedsName fragment
    else do
      fire (.bookmarkRequest name)
      return byteSize fragment
  | none => do
    let literal ← of (body fragment)
    match Decimal.ofText? literal with
    | none => check (.error (.invalid .beatTime fragment))
    | some d =>
      let time : R := Scalar.ofDecimal d
      if time < ((0 : Nat) : R) ∨ !Scalar.isFinite time then check (.error (.invalid .beatTime fragment))
      else do
        fire (.timeRequest time)
        return byteSize fragment

def caption (fragment : Text) : Effect R Nat := do
  let body ← of (body fragment)
  let text := captionText body
  if fragment.head? = some '&' then do
    fire (.lyric text)
    return byteSize fragment
  else do
    fire (.marker text)
    fire (.bookmark text)
    return byteSize fragment

/-- Name and parameters of a call, and the number of bytes up to its end. -/
def callParts (fragment : Text) : Except Halt (Text × Text × Nat) :=
  let body := (Text.after? [':'] fragment).getD fragment
  match find? '(' body with
  | none => if body.isEmpty then fail .callNeedsName fragment else .ok (body, [], byteSize fragment)
  | some start =>
    match (findLast? ')' body).filter (start < ·) with
    | none => fail .unclosedParenthesis fragment
    | some stop => do
      let name ← cut body 0 start
      let params ← cut body (start + 1) stop
      return (name, params, byteSize fragment - byteSize body + stop + 1)

def call (dialect : Dialect R) (fragment : Text) : Effect R Nat := do
  let (name, params, taken) ← of (callParts fragment)
  let name := Text.upper name
  match dialect.functions.control? name with
  | some control => do
    control.apply params
    return taken
  | none => do
    fire (.call name params)
    return taken

def signature (fragment : Text) : Effect R Nat :=
  match Text.after? timeWord fragment with
  | some body => do
    let meter ← check (Meter.ofText body)
    remember fun memory => { memory with meter := meter }
    fire (.timeSignature meter.beats meter.power)
    return byteSize fragment
  | none => do
    let afterWord := (Text.after? keyWord fragment).or (Text.after? shortKeyWord fragment)
    let key ← check (Key.ofText (afterWord.getD fragment))
    remember fun memory => { memory with key := key }
    fire (.keySignature key.fifths key.mode)
    return byteSize fragment

def atomParts (fragment : Text) : List Text → Effect R Unit
  | [] => pure ()
  | part :: rest =>
    match (seen? part 0).bind selector? with
    | none => fault .badAtomPart fragment
    | some select => do
      let _ ← select part
      atomParts fragment rest

def atom [Scalar R] (dialect : Dialect R) (fragment : Text) : Effect R Nat := do
  let body ← of (body fragment)
  let parts := Text.fields ',' body
  let note := parts.getLast?.getD []
  atomParts fragment parts.dropLast
  let memory ← remembered
  let (elements, taken) ← of (Scanner.read (Context.noteContext ⟨dialect, memory⟩) note)
  if taken ≠ byteSize note then fault .badAtomNote fragment
  else do
    fireAll (elements.map elementEvent)
    return byteSize fragment

end Parsing

namespace Family

open Text

/-- Whether the bytes of a text start like a fragment of the family. -/
def opens : Family → Text → Bool
  | .note, s => (seen? s 0).any startsNote
  | .selection, s => seen? s 0 == some 'V' || seen? s 0 == some 'L' || seen? s 0 == some 'I'
  | family, s => family.claims s

/-- Parses a fragment of the family, and says how many bytes it has taken. -/
def parse [Scalar R] (dialect : Dialect R) (fragment : Text) : Family → Effect R Nat
  | .atom => Parsing.atom dialect fragment
  | .note => Parsing.notes dialect fragment
  | .barLine => Parsing.barLine fragment
  | .selection => Parsing.selection fragment
  | .signature => Parsing.signature fragment
  | .tempo => Parsing.tempo fragment
  | .beatTime => Parsing.beatTime fragment
  | .caption => Parsing.caption fragment
  | .call => Parsing.call dialect fragment

end Family

namespace Parsing

open Text Scanner Effect Fragment

/-! ### What is parsed -/

/-- What a settled reading comes to. -/
def settle (fragment : Text) (t : Trace R) : Except Error (List (Event R) × Text) → Except Halt Nat × Trace R
  | .ok (events, left) => (.ok (place fragment left), { t with events := t.events ++ events })
  | .error e => (.error (.failed e), t)

section

variable {α : Type} {fragment : Text} {t : Trace R}

theorem onPlaces_settle {x : Except Error (α × Text)} {f : α × Nat → Effect R Nat}
    {g : α × Text → Except Error (List (Event R) × Text)}
    (h : ∀ a left, (f (a, place fragment left)).run t = settle fragment t (g (a, left))) :
    (of (onPlaces fragment x) >>= f).run t = settle fragment t (x >>= g) := by
  cases x with
  | error e => rfl
  | ok p => exact h p.1 p.2

theorem check_settle {x : Except Error α} {f : α → Effect R Nat}
    {g : α → Except Error (List (Event R) × Text)} (h : ∀ a, (f a).run t = settle fragment t (g a)) :
    (check x >>= f).run t = settle fragment t (x >>= g) := by
  cases x with
  | error e => rfl
  | ok a => exact h a

end

section

variable {c : Char} (hc : c.toNat < 128)

include hc

theorem place_sign (r : Text) {left : Text} (h : left <:+ r) : place (c :: r) left = place r left + 1 := by
  obtain ⟨a, rfl⟩ := h
  have hsplit : c :: (a ++ left) = (c :: a) ++ left := rfl
  rw [hsplit, place_append, place_append, byteSize, Char.utf8Size_eq_one_iff.mpr (Nat.le_of_lt_succ hc),
    Nat.add_comm]

theorem place_bracketed (name rest : Text) :
    place (c :: '[' :: (name ++ ']' :: rest)) rest = byteSize name + 3 := by
  have hsplit : '[' :: (name ++ ']' :: rest) = ('[' :: name ++ [']']) ++ rest := by simp
  have hopens : '['.utf8Size = 1 := rfl
  have hcloses : ']'.utf8Size = 1 := rfl
  rw [hsplit, place_sign hc _ (List.suffix_append _ rest), place_append, byteSize_append]
  simp only [byteSize]
  omega

theorem body_sign (r : Text) : body (c :: r) = .ok r := by
  have hcut := cut_place (List.nil_suffix (l := r)) (List.suffix_cons c r)
  rw [place_sign hc r List.suffix_rfl, place_self, place_nil] at hcut
  rw [body, hcut, List.length_nil, Nat.sub_zero, List.take_length]

end

theorem runEnd_front {p : Char → Bool} (hp : Plain p) (s : Text) :
    runEnd p s 0 = place s (s.dropWhile p) := by
  rw [← runEnd_place hp List.suffix_rfl, place_self]

/-- A part of a text, cut out. -/
theorem cut_between (front middle back : Text) :
    cut (front ++ middle ++ back) (byteSize front) (byteSize (front ++ middle)) = .ok middle := by
  have hbetween := between?_place (List.suffix_append front (middle ++ back))
  rw [place_append, ← List.append_assoc, place_append] at hbetween
  rw [cut, hbetween]

/-- A run of characters, cut out between the places where it begins and ends. -/
theorem cut_run {p : Char → Bool} (hp : Plain p) {s t : Text} (h : t <:+ s) :
    cut s (place s t) (place s (t.dropWhile p)) = .ok (t.takeWhile p) := by
  rw [cut, ← runEnd_place hp h, between?_run hp h]

theorem place_dropWhile (p : Char → Bool) (s : Text) :
    place s (s.dropWhile p) = byteSize (s.takeWhile p) := by
  have hsplit := place_append (s.takeWhile p) (s.dropWhile p)
  rwa [List.takeWhile_append_dropWhile] at hsplit

theorem byteSize_pos_iff {s : Text} : 0 < byteSize s ↔ s.isEmpty = false := by
  cases s with
  | nil => simp [byteSize]
  | cons c r =>
    have hpos := c.utf8Size_pos
    simp only [byteSize, List.isEmpty_cons, iff_true]
    omega

/-- The value after a sign takes what the reading of it takes. -/
theorem value_sign (symbols : Symbols) (kind : NameKind) {c : Char} (hc : c.toNat < 128) (r : Text) :
    value symbols kind (c :: r) = onPlaces (c :: r) (readValue symbols kind (c :: r)) := by
  have hdigits : r.dropWhile Char.isDigit <:+ r := List.dropWhile_suffix _
  have htaken : 0 < place r (r.dropWhile Char.isDigit) ↔ (r.takeWhile Char.isDigit).isEmpty = false := by
    rw [place_dropWhile]
    exact byteSize_pos_iff
  rw [value, body_sign hc]
  simp only [readValue, List.drop_succ_cons, List.drop_zero, Numeral.takeDigits, Bool.not_eq_true']
  change (if 0 < runEnd Char.isDigit r 0 then _ else _) = _
  rw [runEnd_front plain_isDigit]
  by_cases hsome : (r.takeWhile Char.isDigit).isEmpty = false
  · have hcut := cut_run plain_isDigit (List.suffix_rfl (l := r))
    rw [place_self] at hcut
    rw [if_pos (htaken.mpr hsome), if_pos hsome, hcut]
    rw [ok_bind]
    cases Numeral.nat? NoteContext.maxNumber (r.takeWhile Char.isDigit) with
    | none => rfl
    | some n =>
      dsimp only [onPlaces]
      rw [place_sign hc r hdigits]
      rfl
  · rw [if_neg (mt htaken.mp hsome), if_neg hsome]
    cases r with
    | nil => rfl
    | cons d u =>
      by_cases hopen : d = '['
      · have hafter : after? ['['] (d :: u) = some u := by simp [after?, hopen]
        rw [hafter, hopen]
        by_cases hclosed : ']' ∈ u
        · obtain ⟨a, b, rfl, hfree⟩ := List.eq_append_cons_of_mem hclosed
          have hname := cut_between [] a (']' :: b)
          rw [List.nil_append, byteSize] at hname
          simp only [find?_append hfree, cut?_append hfree, hname, ok_bind]
          refine lift_bind fun value => ?_
          change _ = onPlaces (c :: '[' :: (a ++ ']' :: b)) (.ok (value, b))
          rw [onPlaces, place_bracketed hc]
          rfl
        · simp only [find?_none hclosed, cut?_none hclosed]
          rfl
      · have hafter : after? ['['] (d :: u) = none := by simp [after?, Ne.symm hopen]
        rw [hafter]
        dsimp only
        rw [if_neg (by simp)]
        split
        · cases ‹d :: u = []›
        · exact absurd (List.cons.inj ‹d :: u = _›).1 hopen
        · exact lift_bind fun value => rfl

theorem run_select (kind : NameKind) (quantity : Quantity) (low high : Nat) (event : Nat → Event R) {c : Char}
    (hc : c.toNat < 128) (r : Text) (t : Trace R) :
    (select kind quantity low high event (c :: r)).run t = settle (c :: r) t (do
      let (value, rest) ← readValue t.memory.symbols kind (c :: r)
      let number ← checkRange quantity value low high
      return ([event number], rest)) := by
  rw [select, run_remembered_bind, value_sign _ _ hc]
  exact onPlaces_settle fun value left => check_settle fun number => rfl

theorem seen?_front (c : Char) (r : Text) : seen? (c :: r) 0 = some (glance c) := by
  have hseen := seen?_place (List.suffix_rfl (l := c :: r))
  rwa [place_self] at hseen

/-- A sign selects what the reading of characters selects. -/
theorem selector?_spec (t : Trace R) (s : Text) :
    (seen? s 0).bind selector? = (none : Option (Text → Effect R Nat)) ∧
        (readSelection? t.memory.symbols s : Option (Except Error (Event R × Text))) = none ∨
      ∃ (select : Text → Effect R Nat) (reading : Except Error (Event R × Text)),
        (seen? s 0).bind selector? = some select ∧ readSelection? t.memory.symbols s = some reading ∧
          (select s).run t = settle s t (do
            let (event, rest) ← reading
            return ([event], rest)) := by
  cases s with
  | nil => exact .inl ⟨rfl, rfl⟩
  | cons c r =>
    rw [seen?_front, Option.bind_some]
    by_cases hsign : c = 'V' ∨ c = 'L' ∨ c = 'I'
    · refine .inr ?_
      rcases hsign with rfl | rfl | rfl
      all_goals
        rw [glance_of_ascii (by decide)]
        refine ⟨_, _, rfl, rfl, ?_⟩
        rw [run_select _ _ _ _ _ (by decide), bind_assoc]
        refine congrArg (settle _ t) (bind_congr fun p => ?_)
        rw [bind_assoc]
        rfl
    · have hother : ∀ a : Char, a.toNat < 128 → c ≠ a → glance c ≠ a := fun a ha => mt (glance_eq_iff ha).mp
      refine .inl ⟨?_, ?_⟩
      · unfold selector?
        split
        · exact absurd ‹_› (hother 'V' (by decide) fun heq => hsign (.inl heq))
        · exact absurd ‹_› (hother 'L' (by decide) fun heq => hsign (.inr (.inl heq)))
        · exact absurd ‹_› (hother 'I' (by decide) fun heq => hsign (.inr (.inr heq)))
        · rfl
      · unfold readSelection?
        split
        · exact absurd (.inl (Option.some.inj ‹_›)) hsign
        · exact absurd (.inr (.inl (Option.some.inj ‹_›))) hsign
        · exact absurd (.inr (.inr (Option.some.inj ‹_›))) hsign
        · rfl

/-- A fragment that starts like a selection selects something. -/
theorem readSelection?_of_claims (symbols : Symbols) {fragment : Text}
    (h : Family.selection.claims fragment = true) :
    (readSelection? symbols fragment : Option (Except Error (Event R × Text))) ≠ none := by
  simp only [Family.claims, Bool.or_eq_true, beq_iff_eq] at h
  unfold readSelection?
  rcases h with (h | h) | h <;> rw [h] <;> exact Option.some_ne_none _

theorem run_selection {fragment : Text} (h : Family.selection.claims fragment = true) (t : Trace R) :
    (selection fragment).run t = settle fragment t (readSelection t.memory.symbols fragment) := by
  rcases selector?_spec t fragment with ⟨-, hnone⟩ | ⟨select, reading, hselect, hreading, hrun⟩
  · exact absurd hnone (readSelection?_of_claims _ h)
  · rw [readSelection, hreading, selection]
    cases hseen : seen? fragment 0 with
    | none =>
      rw [hseen] at hselect
      cases hselect
    | some c =>
      rw [hseen, Option.bind_some] at hselect
      dsimp only
      rw [hselect]
      exact hrun

theorem run_notes [Scalar R] (dialect : Dialect R) (fragment : Text) (t : Trace R) :
    (notes dialect fragment).run t =
      settle fragment t (readNotes (Context.noteContext ⟨dialect, t.memory⟩) fragment) := by
  rw [notes, run_remembered_bind, Scanner.read_eq, readNotes]
  refine onPlaces_settle fun elements left => ?_
  rw [run_bind, run_fireAll]
  rfl

theorem run_barLine (r : Text) (t : Trace R) :
    (barLine ('|' :: r)).run t = settle ('|' :: r) t (readBarLine ('|' :: r)) := by
  have hdigits : r.dropWhile Char.isDigit <:+ r := List.dropWhile_suffix _
  have hend := place_sign (c := '|') (by decide) r hdigits
  have hstart := place_sign (c := '|') (by decide) r (List.suffix_rfl (l := r))
  have hcut := cut_run plain_isDigit (List.suffix_cons '|' r)
  rw [hend, hstart, place_self, Nat.zero_add] at hcut
  rw [barLine, body_sign (by decide)]
  change (if runEnd Char.isDigit r 0 = 0 then _ else _ : Effect R Nat).run t = _
  rw [runEnd_front plain_isDigit, hcut, ← hend]
  simp only [readBarLine, List.drop_succ_cons, List.drop_zero, Numeral.takeDigits]
  rw [place_dropWhile]
  cases hempty : (r.takeWhile Char.isDigit).isEmpty with
  | true =>
    have hnone : byteSize (r.takeWhile Char.isDigit) = 0 := by
      rw [List.isEmpty_iff.mp hempty]
      rfl
    rw [if_pos hnone, if_pos rfl]
    rfl
  | false =>
    rw [if_neg (Nat.ne_of_gt (byteSize_pos_iff.mpr hempty)), if_neg Bool.false_ne_true]
    change (match Numeral.nat? (Numeral.largest 64) (r.takeWhile Char.isDigit) with
      | some n => _
      | none => _ : Effect R Nat).run t = _
    cases Numeral.nat? (Numeral.largest 64) (r.takeWhile Char.isDigit) with
    | none => rfl
    | some n => rfl

theorem run_tempo (r : Text) (t : Trace R) :
    (tempo ('T' :: r)).run t = settle ('T' :: r) t (readTempo t.memory.symbols ('T' :: r)) :=
  run_select _ _ _ _ _ (by decide) r t

theorem run_beatTime [Scalar R] (r : Text) (t : Trace R) :
    (beatTime ('@' :: r)).run t = settle ('@' :: r) t (readBeatTime ('@' :: r)) := by
  unfold readBeatTime
  split
  · rename_i name heq
    obtain rfl : r = '#' :: name := heq
    change (if name.isEmpty then _ else _ : Effect R Nat).run t = _
    split <;> rfl
  · rename_i hbookmark
    have hafter : after? ['@', '#'] ('@' :: r) = none := by
      cases r with
      | nil => rfl
      | cons c name =>
        have hother : c ≠ '#' := fun heq => hbookmark name (by rw [heq]; rfl)
        simp [after?, Ne.symm hother]
    rw [beatTime, hafter]
    dsimp only
    rw [body_sign (by decide)]
    change (match Decimal.ofText? r with
      | none => _
      | some d => _ : Effect R Nat).run t = _
    rw [List.drop_succ_cons, List.drop_zero]
    cases Decimal.ofText? r with
    | none => rfl
    | some d =>
      dsimp only
      split <;> rfl

theorem run_caption {c : Char} (hc : c.toNat < 128) (r : Text) (t : Trace R) :
    (caption (c :: r)).run t = settle (c :: r) t (.ok (readCaption (c :: r))) := by
  rw [caption, body_sign hc]
  change (if _ then _ else _ : Effect R Nat).run t = _
  unfold readCaption
  dsimp only
  split
  · rfl
  · exact congrArg (fun events => (Except.ok (byteSize (c :: r)), { t with events := events }))
      (List.append_assoc _ _ _)

/-- A parenthesis that closes stands after the one that opens. -/
theorem closing_none (name : Text) {tail : Text} (h : ')' ∉ tail) :
    (findLast? ')' (name ++ '(' :: tail)).filter (byteSize name < ·) = none := by
  by_cases hname : ')' ∈ name
  · obtain ⟨front, back, rfl, hback⟩ := exists_last hname
    have hfree : ')' ∉ back ++ '(' :: tail := by simp [hback, h]
    have hsplit : (front ++ ')' :: back) ++ '(' :: tail = front ++ ')' :: (back ++ '(' :: tail) := by simp
    have hbefore : ¬ byteSize (front ++ ')' :: back) < byteSize front := by
      rw [byteSize_append]
      omega
    rw [hsplit, findLast?_append _ hfree, Option.filter_some_neg (by simpa using hbefore)]
  · have hfree : ')' ∉ name ++ '(' :: tail := by simp [hname, h]
    rw [findLast?_none hfree]
    rfl

theorem closing_some (name params : Text) {rest : Text} (h : ')' ∉ rest) :
    (findLast? ')' (name ++ '(' :: (params ++ ')' :: rest))).filter (byteSize name < ·) =
      some (byteSize (name ++ '(' :: params)) := by
  have hsplit : name ++ '(' :: (params ++ ')' :: rest) = (name ++ '(' :: params) ++ ')' :: rest := by simp
  have hafter : byteSize name < byteSize (name ++ '(' :: params) := by
    have hpos := '('.utf8Size_pos
    rw [byteSize_append, byteSize]
    omega
  rw [hsplit, findLast?_append _ h, Option.filter_some_pos (by simpa using hafter)]

section

variable (name params rest : Text)

theorem cut_name : cut (name ++ '(' :: (params ++ ')' :: rest)) 0 (byteSize name) = .ok name :=
  cut_between [] name _

theorem cut_params :
    cut (name ++ '(' :: (params ++ ')' :: rest)) (byteSize name + 1) (byteSize (name ++ '(' :: params)) =
      .ok params := by
  have hcut := cut_between (name ++ ['(']) params (')' :: rest)
  have hopens : byteSize (name ++ ['(']) = byteSize name + 1 := byteSize_append _ _
  simpa only [hopens, List.append_assoc, List.cons_append, List.nil_append] using hcut

theorem place_call :
    place (':' :: (name ++ '(' :: (params ++ ')' :: rest))) rest =
      1 + byteSize (name ++ '(' :: params) + 1 := by
  have hsplit : ':' :: (name ++ '(' :: (params ++ ')' :: rest)) =
      ([':'] ++ (name ++ '(' :: params) ++ [')']) ++ rest := by simp
  rw [hsplit, place_append, byteSize_append, byteSize_append]
  rfl

end

theorem callParts_eq (r : Text) :
    callParts (':' :: r) = match splitCall (':' :: r) with
      | .ok (name, params, rest) => .ok (name, params, place (':' :: r) rest)
      | .error e => .error (.failed e) := by
  have hbody : (after? [':'] (':' :: r)).getD (':' :: r) = r := rfl
  unfold callParts splitCall
  dsimp only
  rw [hbody, List.drop_succ_cons, List.drop_zero]
  by_cases hopen : '(' ∈ r
  · obtain ⟨name, tail, rfl, hname⟩ := List.eq_append_cons_of_mem hopen
    rw [find?_append hname, cut?_append hname]
    dsimp only
    by_cases hclosed : ')' ∈ tail
    · obtain ⟨params, rest, rfl, hrest⟩ := exists_last hclosed
      rw [closing_some name params hrest, cutLast?_append params hrest]
      dsimp only
      rw [cut_name]
      change (cut _ _ _ >>= _) = _
      rw [cut_params]
      change Except.ok (name, params, byteSize (':' :: _) - byteSize _ + byteSize _ + 1) = _
      rw [place_call, byteSize, Nat.add_sub_cancel]
      rfl
    · rw [closing_none name hclosed, cutLast?_none hclosed]
      rfl
  · rw [find?_none hopen, cut?_none hopen]
    dsimp only
    split <;> rfl

theorem run_call [Scalar R] (dialect : Dialect R) (r : Text) (t : Trace R) :
    (call dialect (':' :: r)).run t = settle (':' :: r) t (readCall ⟨dialect, t.memory⟩ (':' :: r)) := by
  rw [call, callParts_eq, readCall]
  cases splitCall (':' :: r) with
  | error e => rfl
  | ok parts =>
    obtain ⟨name, params, rest⟩ := parts
    change (match dialect.functions.control? (upper name) with
      | some control => _
      | none => _ : Effect R Nat).run t = settle _ t (match dialect.functions.control? (upper name) with
      | some control => _
      | none => _)
    cases dialect.functions.control? (upper name) with
    | none => rfl
    | some control =>
      dsimp only
      rw [run_bind, Control.run_apply]
      cases control.events t.memory.symbols params <;> rfl

theorem run_signature (fragment : Text) (t : Trace R) :
    (signature fragment).run t =
      match readSignature t.memory fragment with
      | .ok (events, memory, left) => (.ok (place fragment left), ⟨t.events ++ events, memory⟩)
      | .error e => (.error (.failed e), t) := by
  unfold readSignature signature
  cases after? timeWord fragment with
  | some body =>
    dsimp only
    cases Meter.ofText body <;> rfl
  | none =>
    dsimp only
    cases Key.ofText (((after? keyWord fragment).or (after? shortKeyWord fragment)).getD fragment) <;> rfl

/-- The changes in an atom are made up to the first that fails. -/
theorem run_atomParts (fragment : Text) (parts : List Text) (t : Trace R) :
    (atomParts fragment parts).run t =
      ((match (readAtomParts t.memory.symbols fragment parts : List (Event R) × Option Error).2 with
        | none => .ok ()
        | some e => .error (.failed e)),
      { t with events := t.events ++ (readAtomParts t.memory.symbols fragment parts).1 }) := by
  induction parts generalizing t with
  | nil =>
    rw [readAtomParts, List.append_nil]
    rfl
  | cons part rest ih =>
    rcases selector?_spec t part with ⟨hselect, hreading⟩ | ⟨select, reading, hselect, hreading, hrun⟩
    · rw [atomParts, hselect, readAtomParts, hreading, List.append_nil]
      rfl
    · rw [atomParts, hselect, readAtomParts, hreading]
      dsimp only
      rw [run_bind, hrun]
      cases reading with
      | error e =>
        rw [List.append_nil]
        rfl
      | ok p =>
        change (atomParts fragment rest).run { t with events := t.events ++ [p.1] } = _
        rw [ih, List.append_assoc]
        rfl

theorem run_atom [Scalar R] (dialect : Dialect R) (r : Text) (t : Trace R) :
    (atom dialect ('~' :: r)).run t =
      match readAtom ⟨dialect, t.memory⟩ ('~' :: r) with
      | (events, .ok left) => (.ok (place ('~' :: r) left), { t with events := t.events ++ events })
      | (events, .error e) => (.error (.failed e), { t with events := t.events ++ events }) := by
  rw [atom, body_sign (by decide)]
  change (atomParts ('~' :: r) (fields ',' r).dropLast >>= fun _ => _ : Effect R Nat).run t = _
  rw [run_bind, run_atomParts, readAtom, List.drop_succ_cons, List.drop_zero]
  dsimp only
  generalize (fields ',' r).getLast?.getD [] = note
  rcases readAtomParts t.memory.symbols ('~' :: r) (fields ',' r).dropLast with ⟨changes, _ | e⟩
  · dsimp only
    rw [run_remembered_bind, Scanner.read_eq, readNotes]
    cases hread : (Context.noteContext ⟨dialect, t.memory⟩).read note with
    | error e => rfl
    | ok p =>
      obtain ⟨elements, left⟩ := p
      have hleft := ((Context.noteContext ⟨dialect, t.memory⟩).keeps_read note).suffix _ _ hread
      change (if place note left ≠ byteSize note then _ else _ : Effect R Nat).run _ = _
      cases left with
      | nil =>
        rw [if_neg (not_not.mpr (place_nil note)), run_bind, run_fireAll, List.append_assoc]
        rfl
      | cons c u =>
        have hshort : place note (c :: u) < byteSize note := by
          obtain ⟨front, hfront⟩ := hleft.trans (List.tail_suffix note)
          rw [← hfront, place_append, byteSize_append]
          exact Nat.lt_add_of_pos_right (byteSize_pos_iff.mpr rfl)
        rw [if_pos (Nat.ne_of_lt hshort)]
        rfl
  · rfl

end Parsing

/-- What a reading comes to that goes on from somewhere, counted in bytes. -/
def Reading.onBytes (fragment : Text) (before : Trace R) (reading : Reading R) : Except Halt Nat × Trace R :=
  (match reading.result with
    | .ok left => .ok (Text.place fragment left)
    | .error e => .error (.failed e),
  ⟨before.events ++ reading.events, reading.memory⟩)

namespace Family

open Text Scanner Fragment

theorem onBytes_failed (fragment : Text) (t : Trace R) (e : Error) :
    Reading.onBytes fragment t ⟨[], t.memory, .error e⟩ = (.error (.failed e), t) := by
  rw [Reading.onBytes, List.append_nil]

theorem onBytes_settled (fragment : Text) (t : Trace R) (x : Except Error (List (Event R) × Text)) :
    (settled t.memory x).onBytes fragment t = Parsing.settle fragment t x := by
  cases x with
  | ok p => rfl
  | error e => exact onBytes_failed fragment t e

/-- The first byte tells what the first character tells. -/
theorem opens_eq_claims (family : Family) (s : Text) : family.opens s = family.claims s := by
  have hfirst : seen? s 0 = s.head?.map glance := by
    have hseen := seen?_place_eq (List.suffix_rfl (l := s))
    rwa [place_self] at hseen
  have hsign : ∀ a : Char, a.toNat < 128 → (seen? s 0 == some a) = (s.head? == some a) := by
    intro a ha
    cases s with
    | nil => rfl
    | cons c r =>
      refine Bool.eq_iff_iff.mpr ?_
      rw [hfirst, beq_iff_eq, beq_iff_eq, List.head?_cons, Option.map_some, Option.some.injEq, glance_eq_iff ha,
        Option.some.injEq]
  cases family with
  | note =>
    rw [opens, claims, hfirst]
    cases s with
    | nil => rfl
    | cons c r => exact (plain_of_beyond false startsNote_beyond).glance c
  | selection => rw [opens, claims, hsign 'V' (by decide), hsign 'L' (by decide), hsign 'I' (by decide)]
  | _ => rfl

variable [Scalar R]

/-- A family takes, to the byte, what is read of a fragment that it claims, and comes to the same. -/
theorem run_parse (dialect : Dialect R) {family : Family} {fragment : Text} (h : family.claims fragment = true)
    (before : Trace R) :
    (family.parse dialect fragment).run before =
      (family.read ⟨dialect, before.memory⟩ fragment).onBytes fragment before := by
  have hhead : ∀ {c : Char}, (fragment.head? == some c) = true → ∃ r, fragment = c :: r := fun hc =>
    List.head?_eq_some_iff.mp (beq_iff_eq.mp hc)
  cases family with
  | atom =>
    obtain ⟨r, rfl⟩ := hhead h
    rw [parse, Parsing.run_atom, read]
    rcases readAtom ⟨dialect, before.memory⟩ ('~' :: r) with ⟨events, _ | left⟩ <;> rfl
  | note => rw [parse, Parsing.run_notes, read, onBytes_settled]
  | barLine =>
    obtain ⟨r, rfl⟩ := hhead h
    rw [parse, Parsing.run_barLine, read, onBytes_settled]
  | selection => rw [parse, Parsing.run_selection h, read, onBytes_settled]
  | signature =>
    rw [parse, Parsing.run_signature, read]
    cases readSignature before.memory fragment with
    | ok p => rfl
    | error e => exact (onBytes_failed fragment before e).symm
  | tempo =>
    obtain ⟨r, rfl⟩ := hhead h
    rw [parse, Parsing.run_tempo, read, onBytes_settled]
  | beatTime =>
    obtain ⟨r, rfl⟩ := hhead h
    rw [parse, Parsing.run_beatTime, read, onBytes_settled]
  | caption =>
    rcases Bool.or_eq_true_iff.mp h with h | h
    all_goals
      obtain ⟨r, rfl⟩ := hhead h
      rw [parse, Parsing.run_caption (by decide), read, onBytes_settled]
  | call =>
    obtain ⟨r, rfl⟩ := hhead h
    rw [parse, Parsing.run_call, read, onBytes_settled]

end Family

end ScoreText
