import ScoreText.Proofs.Bytes.Dispatching
import ScoreText.Proofs.Notation.Kinds

/-!
Fragments told by their kinds. The kind of a fragment and the family that takes it are told apart by two
analyses of how it starts, one by its first characters and one by signs and words that are tried in turn. They
agree on every text: the kind names the family, and where one family reads two kinds it reads each as the kind
says.
-/

set_option autoImplicit false

namespace ScoreText

open Text

/-- White space starts no note. -/
theorem startsNote_of_isBlank {c : Char} (h : isBlank c = true) : startsNote c = false := by
  have hall : ∀ n < 128, isBlank (Char.ofNat n) = true → startsNote (Char.ofNat n) = false := by decide
  rcases Nat.lt_or_ge c.toNat 128 with hascii | hbeyond
  · exact Expansion.forall_ascii (P := fun c => isBlank c = true → startsNote c = false) hall hascii h
  · exact Scanner.startsNote_beyond c hbeyond

theorem Text.isPrefixOf_eq_false {word s : Text} (h : ∀ body, s ≠ word ++ body) :
    word.isPrefixOf s = false := by
  rw [← Bool.not_eq_true, List.isPrefixOf_iff_prefix]
  rintro ⟨body, hbody⟩
  exact h body hbody.symm

namespace TokenKind

/-- The family that fragments of a kind belong to. -/
def family? : TokenKind → Option Family
  | .atom => some .atom
  | .note => some .note
  | .barLine => some .barLine
  | .voice | .layer | .instrument => some .selection
  | .keySignature | .timeSignature => some .signature
  | .tempo => some .tempo
  | .beatTime | .bookmarkRequest => some .beatTime
  | .lyric | .marker => some .caption
  | .call => some .call
  | .blank | .unknown => none

theorem family?_eq_none_iff (kind : TokenKind) : kind.family? = none ↔ kind = .blank ∨ kind = .unknown := by
  cases kind <;> decide

/-- The kinds of the events that fragments of a kind announce. -/
def announced : TokenKind → List EventKind
  | .voice => [.track]
  | .layer => [.layer]
  | .instrument => [.instrument]
  | .keySignature => [.keySignature]
  | .timeSignature => [.timeSignature]
  | .beatTime => [.timeRequest]
  | .bookmarkRequest => [.bookmarkRequest]
  | .lyric => [.lyric]
  | .marker => [.marker, .bookmark]
  | .atom => Family.atom.kinds
  | .note => Family.note.kinds
  | .barLine => Family.barLine.kinds
  | .tempo => Family.tempo.kinds
  | .call => Family.call.kinds
  | .blank | .unknown => []

section

variable {R : Type}

open Fragment

/-- The value after a sign, within its range. -/
def readSelected (symbols : Symbols) (kind : NameKind) (quantity : Quantity) (high : Nat)
    (event : Nat → Event R) (fragment : Text) : Except Error (List (Event R) × Text) := do
  let (value, rest) ← readValue symbols kind fragment
  let number ← checkRange quantity value 0 high
  return ([event number], rest)

/-- What stands after the first colon. -/
def afterColon (fragment : Text) : Text := ((cut? ':' fragment).map Prod.snd).getD []

/-- A signature, which takes all of a fragment and is remembered. -/
def signed (memory : Memory) : Except Error (Event R × Memory) → Reading R
  | .ok (event, memory) => ⟨[event], memory, .ok []⟩
  | .error e => ⟨[], memory, .error e⟩

def readRequest (fragment : Text) : Except Error (List (Event R) × Text) :=
  if (fragment.drop 2).isEmpty then .error (.malformed .bookmarkNeedsName fragment)
  else .ok ([.bookmarkRequest (fragment.drop 2)], [])

variable [Scalar R]

def readTime (fragment : Text) : Except Error (List (Event R) × Text) :=
  match Decimal.ofText? (fragment.drop 1) with
  | none => .error (.invalid .beatTime fragment)
  | some d =>
    let time : R := Scalar.ofDecimal d
    if time < ((0 : Nat) : R) ∨ !Scalar.isFinite time then .error (.invalid .beatTime fragment)
    else .ok ([.timeRequest time], [])

/-- Reads a fragment of a kind, of which nothing else is known. -/
def read (ctx : Context R) (fragment : Text) : TokenKind → Reading R
  | .voice => Family.settled ctx.memory
      (readSelected ctx.memory.symbols .voice .voice (trackCount - 1) .track fragment)
  | .layer => Family.settled ctx.memory
      (readSelected ctx.memory.symbols .layer .layer (trackCount - 1) .layer fragment)
  | .instrument => Family.settled ctx.memory
      (readSelected ctx.memory.symbols .instrument .instrument maxData .instrument fragment)
  | .keySignature => signed ctx.memory do
      let key ← Key.ofText (afterColon fragment)
      return (.keySignature key.fifths key.mode, { ctx.memory with key := key })
  | .timeSignature => signed ctx.memory do
      let meter ← Meter.ofText (afterColon fragment)
      return (.timeSignature meter.beats meter.power, { ctx.memory with meter := meter })
  | .beatTime => Family.settled ctx.memory (readTime fragment)
  | .bookmarkRequest => Family.settled ctx.memory (readRequest fragment)
  | .lyric => ⟨[.lyric (captionText (fragment.drop 1))], ctx.memory, .ok []⟩
  | .marker =>
    let text := captionText (fragment.drop 1)
    ⟨[.marker text, .bookmark text], ctx.memory, .ok []⟩
  | .atom => Family.atom.read ctx fragment
  | .note => Family.note.read ctx fragment
  | .barLine => Family.barLine.read ctx fragment
  | .tempo => Family.tempo.read ctx fragment
  | .call => Family.call.read ctx fragment
  | .blank | .unknown => ⟨[], ctx.memory, .ok fragment⟩

end

/-! ### The family of a kind -/

/-- A text that starts with none of the signs and words is of a note, or of nothing. -/
theorem of?_unsigned {c : Char} {r : Text} (hsign : c ∉ ['~', '|', 'V', 'L', 'I', 'T', '@', '&', '!', ':'])
    (hkey : ∀ body, c :: r ≠ 'K' :: 'E' :: 'Y' :: ':' :: body) (hshort : ∀ body, c :: r ≠ 'K' :: ':' :: body) :
    Family.of? (c :: r) = if startsNote c then some .note else none := by
  have htime : ∀ body, c :: r ≠ Fragment.timeWord ++ body := by
    intro body heq
    rw [(List.cons.inj heq).1] at hsign
    exact hsign (by decide)
  have hothers : ∀ family : Family, family ≠ .note → family.claims (c :: r) = false := by
    simp only [List.mem_cons, List.not_mem_nil, or_false, not_or] at hsign
    intro family hnote
    cases family with
    | note => exact absurd rfl hnote
    | signature =>
      rw [Family.claims, isPrefixOf_eq_false htime, isPrefixOf_eq_false hkey, isPrefixOf_eq_false hshort]
      rfl
    | _ => simp [Family.claims, hsign]
  have hnote : Family.note.claims (c :: r) = startsNote c := rfl
  rw [Family.of?, Family.all]
  cases hstarts : startsNote c <;> simp [hothers, hnote, hstarts]

/-- The first family that claims a text is the one that its kind names. -/
theorem of?_eq_family? (s : Text) : Family.of? s = (TokenKind.of s).family? := by
  fun_cases TokenKind.of s
  case case10 r htime =>
    have hsignature : Family.signature.claims ('T' :: r) = false := by
      rw [Family.claims, isPrefixOf_eq_false fun body heq => htime body (List.cons.inj heq).2]
      rfl
    have hof : Family.of? ('T' :: r) =
        bif Family.signature.claims ('T' :: r) then some .signature else some .tempo := rfl
    rw [hof, hsignature]
    rfl
  case case18 hblank =>
    rw [of?_unsigned (by simp_all) (by simp_all) (by simp_all), startsNote_of_isBlank hblank]
    rfl
  case case19 hnote =>
    have hstarts : ∀ c : Char, 'A' ≤ c ∧ c ≤ 'G' ∨ c.isDigit = true → startsNote c = true := by
      rintro c (⟨hlow, hhigh⟩ | hdigit)
      · simp [startsNote, hlow, hhigh]
      · simp [startsNote, hdigit]
    rw [of?_unsigned (by simp_all) (by simp_all) (by simp_all), hstarts _ hnote]
    rfl
  case case20 hrest hbracket _ hother =>
    rw [of?_unsigned (by simp_all) (by simp_all) (by simp_all), if_neg]
    · rfl
    · simp_all [startsNote]
  all_goals rfl

theorem forall_opens_iff (s : Text) :
    (∀ family : Family, family.opens s = false) ↔ TokenKind.of s = .blank ∨ TokenKind.of s = .unknown := by
  simp only [Family.opens_eq_claims, ← Family.of?_eq_none_iff, of?_eq_family?, family?_eq_none_iff]

/-! ### Reading by kind -/

section

variable {R : Type}

open Fragment

theorem readSelected_eq (symbols : Symbols) (kind : NameKind) (quantity : Quantity) (high : Nat)
    (event : Nat → Event R) (fragment : Text) :
    (do
      let (event, rest) ← (do
        let (value, rest) ← readValue symbols kind fragment
        let number ← checkRange quantity value 0 high
        return (event number, rest) : Except Error (Event R × Text))
      return ([event], rest)) = readSelected symbols kind quantity high event fragment := by
  simp only [readSelected, bind_assoc, pure_bind]

section

variable [Scalar R] (ctx : Context R) {s body : Text}

theorem read_meter (hbody : after? timeWord s = some body) (hcolon : afterColon s = body) :
    Family.signature.read ctx s = TokenKind.timeSignature.read ctx s := by
  rw [Family.read, readSignature, hbody, read, hcolon]
  dsimp only
  cases Meter.ofText body <;> rfl

theorem read_key (htime : after? timeWord s = none)
    (hbody : (after? keyWord s).or (after? shortKeyWord s) = some body) (hcolon : afterColon s = body) :
    Family.signature.read ctx s = TokenKind.keySignature.read ctx s := by
  rw [Family.read, readSignature, htime, read, hcolon]
  dsimp only
  rw [hbody, Option.getD_some]
  cases Key.ofText body <;> rfl

theorem read_time (h : ∀ name, body ≠ '#' :: name) :
    Family.beatTime.read ctx ('@' :: body) = TokenKind.beatTime.read ctx ('@' :: body) := by
  refine congrArg (Family.settled ctx.memory) ?_
  unfold readBeatTime
  split
  · rename_i name heq
    exact absurd heq (h name)
  · rfl

/-- A family reads a fragment as the kind says. -/
theorem read_eq {family : Family} (h : (TokenKind.of s).family? = some family) :
    family.read ctx s = (TokenKind.of s).read ctx s := by
  revert h
  fun_cases TokenKind.of s
  all_goals
    intro h
    cases h
  case case4 | case5 | case6 => exact congrArg (Family.settled ctx.memory) (readSelected_eq _ _ _ _ _ _)
  case case7 | case8 => exact read_key ctx rfl rfl rfl
  case case9 => exact read_meter ctx rfl rfl
  case case12 r hrequest => exact read_time ctx hrequest
  all_goals rfl

/-- Fragments of a kind announce its events. -/
theorem kind_read (s : Text) (kind : TokenKind) : ∀ e ∈ (kind.read ctx s).events, e.kind ∈ kind.announced := by
  have hsigned : ∀ {kinds : List EventKind} {x : Except Error (Event R × Memory)},
      (∀ e memory, x = .ok (e, memory) → e.kind ∈ kinds) → ∀ e ∈ (signed ctx.memory x).events, e.kind ∈ kinds := by
    intro kinds x h
    cases x with
    | error e => simp [signed]
    | ok found => exact List.forall_mem_singleton.mpr (h _ _ rfl)
  have hselected : ∀ {kind : NameKind} {quantity : Quantity} {high : Nat} {event : Nat → Event R}
      {announced : EventKind}, (∀ n, (event n).kind = announced) → ∀ e ∈ (Family.settled ctx.memory
        (readSelected ctx.memory.symbols kind quantity high event s)).events, e.kind ∈ [announced] := by
    intro kind quantity high event announced hkind
    refine Family.forall_settled fun es rest hread => ?_
    obtain ⟨⟨value, left⟩, -, hread⟩ := ok_of_bind hread
    obtain ⟨n, -, hread⟩ := ok_of_bind hread
    cases hread
    exact List.forall_mem_singleton.mpr (List.mem_singleton.mpr (hkind n))
  cases kind with
  | voice | layer | instrument => exact hselected fun _ => rfl
  | keySignature =>
    refine hsigned fun e memory h => ?_
    obtain ⟨key, -, h⟩ := ok_of_bind h
    cases h
    exact List.mem_singleton.mpr rfl
  | timeSignature =>
    refine hsigned fun e memory h => ?_
    obtain ⟨meter, -, h⟩ := ok_of_bind h
    cases h
    exact List.mem_singleton.mpr rfl
  | beatTime =>
    refine Family.forall_settled fun es rest h => ?_
    unfold readTime at h
    split at h
    · cases h
    · dsimp only at h
      split at h
      · cases h
      · cases h
        exact List.forall_mem_singleton.mpr (List.mem_singleton.mpr rfl)
  | bookmarkRequest =>
    refine Family.forall_settled fun es rest h => ?_
    unfold readRequest at h
    split at h
    · cases h
    · cases h
      exact List.forall_mem_singleton.mpr (List.mem_singleton.mpr rfl)
  | lyric | marker => simp [read, announced, Event.kind]
  | atom | note | barLine | tempo | call => exact Family.kind_read ctx s _
  | blank | unknown => simp [read]

end

end

/-- The kind decides what is done with a text. The family that the kind names is the first that claims the text,
by its characters and by its bytes, and there is none exactly where the kind is blank or unknown. That family
reads what the kind by itself would have read, be it voice, layer or instrument, key or meter, time or bookmark,
lyric or marker, and announces no events but those of the kind. -/
theorem decides_dispatch {R : Type} [Scalar R] (dialect : Dialect R) (s : Text) (before : Trace R) :
    Family.of? s = (TokenKind.of s).family? ∧
    Family.all.find? (·.opens s) = (TokenKind.of s).family? ∧
    ((∀ family : Family, family.opens s = false) ↔ TokenKind.of s = .blank ∨ TokenKind.of s = .unknown) ∧
    ∀ family : Family, Family.all.find? (·.opens s) = some family →
      family.read ⟨dialect, before.memory⟩ s = (TokenKind.of s).read ⟨dialect, before.memory⟩ s ∧
      (family.parse dialect s).run before =
        ((TokenKind.of s).read ⟨dialect, before.memory⟩ s).onBytes s before ∧
      ∀ e ∈ (family.read ⟨dialect, before.memory⟩ s).events, e.kind ∈ (TokenKind.of s).announced := by
  have hopens := Family.find?_opens s
  refine ⟨of?_eq_family? s, hopens.trans (of?_eq_family? s), forall_opens_iff s, fun family hfamily => ?_⟩
  have hof : Family.of? s = some family := hopens.symm.trans hfamily
  have hread := read_eq ⟨dialect, before.memory⟩ ((of?_eq_family? s).symm.trans hof)
  refine ⟨hread, ?_, ?_⟩
  · rw [← hread]
    exact Family.run_parse dialect (Family.claims_of_of? hof) before
  · rw [hread]
    exact kind_read ⟨dialect, before.memory⟩ s (TokenKind.of s)

/-- A key, whose word starts like no note and like no meter. -/
def keyOfG : Text := ['K', 'E', 'Y', ':', 'G', 'M', 'A', 'J']

theorem keyOfG_dispatched :
    Family.all.find? (·.opens keyOfG) = some .signature ∧
      ((Family.signature.parse (.standard : Dialect Rat) keyOfG).run ⟨[], .initial .standard⟩).1 = .ok 8 ∧
      ∀ e ∈ (Family.signature.read ⟨(.standard : Dialect Rat), .initial .standard⟩ keyOfG).events,
        e.kind = .keySignature := by
  obtain ⟨-, -, -, hfamily⟩ := decides_dispatch (.standard : Dialect Rat) keyOfG ⟨[], .initial .standard⟩
  have hopens : Family.all.find? (·.opens keyOfG) = some .signature := rfl
  obtain ⟨-, hparse, hkinds⟩ := hfamily .signature hopens
  refine ⟨hopens, ?_, fun e he => List.mem_singleton.mp (hkinds e he)⟩
  rw [hparse]
  rfl

end TokenKind

end ScoreText
