import ScoreText.Proofs.Bytes.Parsing
import ScoreText.Proofs.Notation.Strictness

/-!
Cutting a fragment up. The first family that opens what is left of a fragment takes a part of it, until
nothing is left or nothing opens what is. Every family takes something, and ends between two characters;
so the loop ends, and the parts that were taken and what is left in the end are the fragment.
-/

set_option autoImplicit false

namespace ScoreText

variable {R : Type}

/-- Why a fragment is not cut up further. -/
inductive Cuts.Ending where
  | complete
  | unclaimed
  /-- A family has taken nothing, more than there is, or a part of a character. -/
  | stalled

/-- The pieces that were taken of a text, and what was not. -/
structure Cuts where
  pieces : List Text
  tail : Text
  ending : Cuts.Ending

namespace Parsing

open Text Effect

variable [Scalar R]

/-- Lets the families take pieces of a text, one after another. -/
def consume (dialect : Dialect R) : Nat → Text → Effect R Cuts
  | 0, _ => of (.error .spent)
  | fuel + 1, text =>
    if text.isEmpty then return ⟨[], [], .complete⟩
    else
      match Family.all.find? (·.opens text) with
      | none => return ⟨[], text, .unclaimed⟩
      | some family => do
        let taken ← family.parse dialect text
        match (splitAt? taken text).filter fun _ => 0 < taken with
        | none => return ⟨[], text, .stalled⟩
        | some (piece, left) => do
          let cuts ← consume dialect fuel left
          return { cuts with pieces := piece :: cuts.pieces }

/-- What was not taken of a fragment is an error in strict mode, which tells where it begins. -/
def unrecognized (dialect : Dialect R) (position : Nat) (fragment tail : Text) : Effect R Unit :=
  if dialect.settings.strict then do
    let front ← of (Scanner.cut fragment 0 (byteSize fragment - byteSize tail))
    check (.error (.unrecognized tail (position + front.length)))
  else pure ()

/-- Parses all of a fragment, which stands at `position`. -/
def dispatch (dialect : Dialect R) (position : Nat) (fragment : Text) : Effect R Unit := do
  let cuts ← consume dialect (byteSize fragment + 1) fragment
  match cuts.ending with
  | .complete => pure ()
  | .unclaimed | .stalled => unrecognized dialect position fragment cuts.tail

end Parsing

/-- Taking a part of a text: some of it, no more than there is, and each character whole or not at all. -/
structure Takes (text : Text) (result : Except Halt Nat) : Prop where
  untorn : result ≠ .error .torn
  unspent : result ≠ .error .spent
  part : ∀ n, result = .ok n → 0 < n ∧ n ≤ Text.byteSize text ∧
    ∃ piece left, text = piece ++ left ∧ Text.byteSize piece = n

/-- A text cut up as far as the families claim it. -/
structure Cuts.Cover (cuts : Cuts) (text : Text) : Prop where
  whole : cuts.pieces.flatten ++ cuts.tail = text
  nonempty : ∀ piece ∈ cuts.pieces, piece ≠ []
  ending : cuts.ending = if cuts.tail.isEmpty then .complete else .unclaimed
  unclaimed : ∀ family : Family, family.opens cuts.tail = false

theorem Cuts.Cover.cons {cuts : Cuts} {piece left : Text} (hpiece : piece ≠ []) (h : cuts.Cover left) :
    Cuts.Cover { cuts with pieces := piece :: cuts.pieces } (piece ++ left) where
  whole := by rw [List.flatten_cons, List.append_assoc, h.whole]
  nonempty := List.forall_mem_cons.mpr ⟨hpiece, h.nonempty⟩
  ending := h.ending
  unclaimed := h.unclaimed

namespace Family

open Text

theorem find?_opens (text : Text) : all.find? (·.opens text) = of? text := by
  simp only [opens_eq_claims, of?]

theorem opens_nil (family : Family) : family.opens [] = false := by cases family <;> rfl

/-- What is taken of a text that a reading keeps an end of. -/
theorem takes_onBytes {text : Text} (hne : text ≠ []) {reading : Reading R} (h : reading.Keeps text.tail)
    (before : Trace R) : Takes text (reading.onBytes text before).1 := by
  rw [Reading.onBytes]
  cases hresult : reading.result with
  | error e => exact ⟨by rintro ⟨⟩, by rintro ⟨⟩, by rintro n ⟨⟩⟩
  | ok left =>
    have hleft := h.suffix left hresult
    obtain ⟨piece, hsplit, -⟩ := splitAt?_place (hleft.trans (List.tail_suffix text))
    refine ⟨by rintro ⟨⟩, by rintro ⟨⟩, fun n hn => ?_⟩
    cases hn
    refine ⟨place_lt hne hleft, place_le text left, piece, left, hsplit, ?_⟩
    rw [hsplit, place_append]

theorem ne_nil_of_claims {family : Family} {text : Text} (h : family.claims text = true) : text ≠ [] := by
  rintro rfl
  rw [← opens_eq_claims, opens_nil] at h
  cases h

/-- A family takes a part of every text that it claims. -/
theorem takes_parse [Scalar R] (dialect : Dialect R) {family : Family} {text : Text} (h : family.claims text = true)
    (before : Trace R) : Takes text ((family.parse dialect text).run before).1 := by
  rw [run_parse dialect h]
  exact takes_onBytes (ne_nil_of_claims h) (keeps_read _ _ _ h) before

end Family

/-- What an outcome is to one who goes on from somewhere. -/
def Outcome.onTrace (before : Trace R) (o : Outcome R) : Except Halt Unit × Trace R :=
  (Halt.lift o.result, ⟨before.events ++ o.events, o.memory⟩)

namespace Parser

open Text Parsing Scanner Effect

/-- What comes of a fragment in the end, once it is cut up. -/
def leftover (dialect : Dialect R) (position : Nat) (text tail : Text) : Except Error Unit :=
  if dialect.settings.strict && !tail.isEmpty then
    .error (.unrecognized tail (position + (text.length - tail.length)))
  else .ok ()

/-- A text is cut up as it is read: either a family fails, or all is taken that is claimed. -/
inductive CutUp (dialect : Dialect R) (position : Nat) (text : Text) (before : Trace R) (o : Outcome R) :
    Except Halt Cuts × Trace R → Prop
  | failed (e : Error) (h : o.result = .error e) :
    CutUp dialect position text before o (.error (.failed e), ⟨before.events ++ o.events, o.memory⟩)
  | covered (cuts : Cuts) (cover : cuts.Cover text) (h : o.result = leftover dialect position text cuts.tail) :
    CutUp dialect position text before o (.ok cuts, ⟨before.events ++ o.events, o.memory⟩)

/-- Nothing is taken of a text, and nothing read. -/
theorem CutUp.untouched {dialect : Dialect R} {position : Nat} {text : Text} {ending : Cuts.Ending}
    (cover : Cuts.Cover ⟨[], text, ending⟩ text) (before : Trace R) :
    CutUp dialect position text before ⟨[], before.memory, leftover dialect position text text⟩
      (.ok ⟨[], text, ending⟩, before) := by
  have hcovered : CutUp dialect position text before ⟨[], before.memory, leftover dialect position text text⟩
      (.ok ⟨[], text, ending⟩, ⟨before.events ++ [], before.memory⟩) := .covered _ cover rfl
  rwa [List.append_nil] at hcovered

/-- What is left of a text is cut up after a piece has been taken. -/
theorem CutUp.cons {dialect : Dialect R} {position : Nat} {piece left : Text} (hpiece : piece ≠ [])
    {before : Trace R} {first : Outcome R} (hfirst : first.result = .ok ()) {next : Memory → Outcome R}
    {x : Effect R Cuts}
    (h : CutUp dialect (position + piece.length) left ⟨before.events ++ first.events, first.memory⟩
      (next first.memory) (x.run ⟨before.events ++ first.events, first.memory⟩)) :
    CutUp dialect position (piece ++ left) before (first.andThen next)
      ((x >>= fun cuts => pure { cuts with pieces := piece :: cuts.pieces }).run
        ⟨before.events ++ first.events, first.memory⟩) := by
  have hthen : first.andThen next =
      { next first.memory with events := first.events ++ (next first.memory).events } := by
    rw [Outcome.andThen, hfirst]
  rw [run_bind, hthen]
  generalize x.run ⟨before.events ++ first.events, first.memory⟩ = result at h
  cases h with
  | failed e h =>
    dsimp only
    rw [List.append_assoc]
    exact .failed e h
  | covered cuts cover h =>
    have hplace : position + piece.length + (left.length - cuts.tail.length) =
        position + ((piece ++ left).length - cuts.tail.length) := by
      have htail : cuts.tail.length ≤ left.length := by
        rw [← cover.whole, List.length_append]
        exact Nat.le_add_left _ _
      rw [List.length_append]
      omega
    dsimp only
    rw [List.append_assoc]
    refine .covered { cuts with pieces := piece :: cuts.pieces } (cover.cons hpiece) ?_
    rw [leftover, ← hplace]
    exact h

theorem CutUp.ends {dialect : Dialect R} {position : Nat} {text : Text} {before : Trace R} {o : Outcome R}
    {result : Except Halt Cuts × Trace R} (h : CutUp dialect position text before o result) :
    (∀ halt, result.1 = .error halt → ∃ e, halt = .failed e) ∧ ∀ cuts, result.1 = .ok cuts → cuts.Cover text := by
  cases h with
  | failed e h =>
    refine ⟨fun halt heq => ⟨e, (Except.error.inj heq).symm⟩, ?_⟩
    rintro cuts ⟨⟩
  | covered cuts cover h =>
    constructor
    · rintro halt ⟨⟩
    · rintro cuts' ⟨⟩
      exact cover

/-- The place of what was not taken is told in characters. -/
theorem run_unrecognized (dialect : Dialect R) (position : Nat) {fragment tail : Text} (h : tail <:+ fragment)
    (hsome : tail.isEmpty = false) (t : Trace R) :
    (unrecognized dialect position fragment tail).run t =
      (Halt.lift (leftover dialect position fragment tail), t) := by
  obtain ⟨front, rfl⟩ := h
  have hcut := cut_between [] front tail
  have hfront : byteSize (front ++ tail) - byteSize tail = byteSize front := place_append front tail
  have hlength : (front ++ tail).length - tail.length = front.length := by
    rw [List.length_append, Nat.add_sub_cancel]
  rw [List.nil_append, byteSize] at hcut
  rw [unrecognized, leftover, hsome, hfront, hcut, hlength]
  cases dialect.settings.strict <;> rfl

variable [Scalar R]

/-- What no family claims is left as it is. -/
theorem cutUp_unclaimed (dialect : Dialect R) (chars position : Nat) (t : Trace R) {c : Char} {r : Text}
    (hnone : Family.of? (c :: r) = none) :
    CutUp dialect position (c :: r) t (readFragment dialect (chars + 1) position t.memory (c :: r))
      (.ok ⟨[], c :: r, .unclaimed⟩, t) := by
  have hread : readFragment dialect (chars + 1) position t.memory (c :: r) =
      ⟨[], t.memory, leftover dialect position (c :: r) (c :: r)⟩ := by
    rw [readFragment, hnone, unclaimed, leftover, Nat.sub_self]
    · cases dialect.settings.strict <;> rfl
    · exact List.cons_ne_nil c r
  have hclosed : ∀ family : Family, family.opens (c :: r) = false := fun family =>
    (Family.opens_eq_claims family _).trans ((Family.of?_eq_none_iff _).mp hnone family)
  rw [hread]
  exact .untouched ⟨rfl, List.forall_mem_nil _, rfl, hclosed⟩ t

/-- The bytes of a piece with a character in it are taken off the front of a text. -/
theorem splitAt?_place {piece : Text} (hpiece : piece ≠ []) (left : Text) :
    (splitAt? (place (piece ++ left) left) (piece ++ left)).filter
      (fun _ => 0 < place (piece ++ left) left) = some (piece, left) := by
  have hpos : 0 < byteSize piece := byteSize_pos_iff.mpr (by simpa using hpiece)
  rw [place_append, splitAt?_append, Option.filter_some_pos (by simpa using hpos)]

/-- A text is cut up by bytes as it is read by characters. The induction is on the bytes that are left, which
each piece makes fewer. -/
theorem cutUp_consume (dialect : Dialect R) {fuel chars : Nat} (position : Nat) {text : Text} (t : Trace R)
    (hfuel : byteSize text < fuel) (hchars : text.length ≤ chars) :
    CutUp dialect position text t (readFragment dialect chars position t.memory text)
      ((consume dialect fuel text).run t) := by
  induction fuel generalizing chars position text t with
  | zero => cases hfuel
  | succ fuel ih =>
    cases text with
    | nil =>
      have hread : readFragment dialect chars position t.memory [] =
          ⟨[], t.memory, leftover dialect position [] []⟩ := by
        rw [leftover, List.isEmpty_nil, Bool.not_true, Bool.and_false]
        cases chars <;> rfl
      rw [hread]
      exact .untouched ⟨rfl, List.forall_mem_nil _, rfl, Family.opens_nil⟩ t
    | cons c r =>
      obtain ⟨k, rfl⟩ : ∃ k, chars = k + 1 :=
        Nat.exists_eq_add_one.mpr (Nat.lt_of_lt_of_le (Nat.succ_pos _) hchars)
      rw [consume, if_neg (by simp), Family.find?_opens]
      cases hfamily : Family.of? (c :: r) with
      | none => exact cutUp_unclaimed dialect k position t hfamily
      | some family =>
        have hclaims := Family.claims_of_of? hfamily
        have hkeeps := Family.keeps_read ⟨dialect, t.memory⟩ _ family hclaims
        dsimp only
        rw [run_bind, Family.run_parse dialect hclaims, Reading.onBytes]
        cases hresult : (family.read ⟨dialect, t.memory⟩ (c :: r)).result with
        | error e =>
          rw [readFragment_of_error dialect k position hfamily hresult]
          exact .failed e rfl
        | ok left =>
          obtain ⟨taken, hr⟩ := hkeeps.suffix left hresult
          obtain rfl : taken ++ left = r := hr
          have hshorter : byteSize left < fuel := by
            have hsize : byteSize (c :: (taken ++ left)) = byteSize (c :: taken) + byteSize left :=
              byteSize_append (c :: taken) left
            have hpos : 0 < byteSize (c :: taken) := byteSize_pos_iff.mpr rfl
            omega
          have hfewer : left.length ≤ k := by
            simp only [List.length_cons, List.length_append] at hchars
            omega
          rw [readFragment_of_ok dialect k position hfamily rfl hresult]
          dsimp only
          rw [← List.cons_append, splitAt?_place (List.cons_ne_nil c taken) left]
          exact CutUp.cons (List.cons_ne_nil c taken) rfl (ih _ _ hshorter hfewer)

theorem run_dispatch (dialect : Dialect R) (position : Nat) (fragment : Text) (before : Trace R) :
    (dispatch dialect position fragment).run before =
      (readFragment dialect fragment.length position before.memory fragment).onTrace before := by
  have hcut := cutUp_consume dialect position before (Nat.lt_succ_self (byteSize fragment))
    (Nat.le_refl fragment.length)
  rw [dispatch, run_bind]
  generalize (consume dialect (byteSize fragment + 1) fragment).run before = result at hcut
  cases hcut with
  | failed e h =>
    rw [Outcome.onTrace, h]
    rfl
  | covered cuts cover h =>
    rw [Outcome.onTrace, h]
    dsimp only
    rw [cover.ending]
    cases hempty : cuts.tail.isEmpty with
    | true =>
      rw [leftover, hempty, Bool.not_true, Bool.and_false]
      rfl
    | false => exact run_unrecognized dialect position ⟨_, cover.whole⟩ hempty _

/-- Dispatching makes progress. Whatever family opens a fragment takes a part of it. Unless a family fails to
read its piece, the fragment is cut up into pieces that are taken and a tail that no family opens, and these
together are the fragment. What comes of it all is what comes of reading it. -/
theorem dispatch_progresses (dialect : Dialect R) (position : Nat) (fragment : Text) (before : Trace R) :
    (∀ family : Family, family.opens fragment = true →
      Takes fragment ((family.parse dialect fragment).run before).1) ∧
    (∀ halt, ((consume dialect (byteSize fragment + 1) fragment).run before).1 = .error halt →
      ∃ e, halt = .failed e) ∧
    (∀ cuts, ((consume dialect (byteSize fragment + 1) fragment).run before).1 = .ok cuts →
      cuts.Cover fragment) ∧
    (dispatch dialect position fragment).run before =
      (readFragment dialect fragment.length position before.memory fragment).onTrace before := by
  have hends := (cutUp_consume dialect position before (Nat.lt_succ_self (byteSize fragment))
    (Nat.le_refl fragment.length)).ends
  refine ⟨fun family h => ?_, hends.1, hends.2, run_dispatch dialect position fragment before⟩
  rw [Family.opens_eq_claims] at h
  exact Family.takes_parse dialect h before

/-- A call whose name and parameter are beyond ASCII, before a letter that no family opens. -/
def accentedCall : Text := [':', 'É', '(', 'Ü', ')', 'Z']

theorem accentedCall_cut_up :
    Family.call.opens accentedCall = true ∧
      (∃ piece left, accentedCall = piece ++ left ∧ byteSize piece = 7) ∧
      Cuts.Cover ⟨[[':', 'É', '(', 'Ü', ')']], ['Z'], .unclaimed⟩ accentedCall := by
  have hprogress := dispatch_progresses (.standard : Dialect Rat) 0 accentedCall ⟨[], .initial .standard⟩
  have hopens : Family.call.opens accentedCall = true := rfl
  exact ⟨hopens, ((hprogress.1 .call hopens).part 7 rfl).2.2, hprogress.2.2.1 _ rfl⟩

end Parser

end ScoreText
