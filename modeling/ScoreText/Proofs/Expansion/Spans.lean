import Mathlib.Data.List.Forall2
import ScoreText.Proofs.Expansion.Words

/-!
What upper-casing spares. The spans that keep their case are told by signs, parentheses, names and white space, to
all of which the case of a letter is the same: a text in upper case is cut where it was before, so that it stays as
it is.
-/

set_option autoImplicit false

namespace ScoreText

open Text Stage

namespace Text

/-! ### Characters in upper case -/

theorem toUpper_of_beyond {c : Char} (h : ¬ c.toNat < 128) : c.toUpper = c := by
  refine dif_neg fun hletter => h ?_
  exact Nat.lt_of_le_of_lt (UInt32.le_iff_toNat_le.mp hletter.2) (by decide)

/-- What is the same for letters of ASCII in either case is the same for every character in either. -/
theorem comp_toUpper {α : Type} {q : Char → α} (h : ∀ n < 128, q (Char.ofNat n).toUpper = q (Char.ofNat n)) :
    q ∘ Char.toUpper = q := by
  funext c
  by_cases hc : c.toNat < 128
  · exact Expansion.forall_ascii (P := fun c => q c.toUpper = q c) h hc
  · exact congrArg q (toUpper_of_beyond hc)

theorem toUpper_eq_iff {a : Char} (h : ∀ n < 128, ((Char.ofNat n).toUpper == a) = (Char.ofNat n == a)) (c : Char) :
    c.toUpper = a ↔ c = a := by
  have hsame := congrFun (comp_toUpper (q := fun c => c == a) h) c
  rw [← beq_iff_eq, ← beq_iff_eq (a := c)]
  exact iff_of_eq (congrArg (· = true) hsame)

theorem toUpper_toUpper (c : Char) : c.toUpper.toUpper = c.toUpper :=
  congrFun (comp_toUpper (q := Char.toUpper) (by decide)) c

theorem takeWhile_raised {p : Char → Bool} (hp : p ∘ Char.toUpper = p) (s : Text) :
    (s.map Char.toUpper).takeWhile p = (s.takeWhile p).map Char.toUpper := by
  rw [List.takeWhile_map, hp]

theorem dropWhile_raised {p : Char → Bool} (hp : p ∘ Char.toUpper = p) (s : Text) :
    (s.map Char.toUpper).dropWhile p = (s.dropWhile p).map Char.toUpper := by
  rw [List.dropWhile_map, hp]

theorem head?_raised {a : Char} (ha : ∀ c : Char, c.toUpper = a ↔ c = a) (s : Text) :
    (s.map Char.toUpper).head? = some a ↔ s.head? = some a := by
  cases s with
  | nil => exact iff_of_false nofun nofun
  | cons c r =>
    rw [List.map_cons, List.head?_cons, List.head?_cons, Option.some.injEq, Option.some.injEq]
    exact ha c

end Text

namespace Casing

/-! ### Spans in upper case -/

theorem blank_raised : (fun c => !isBlank c) ∘ Char.toUpper = fun c => !isBlank c := comp_toUpper (by decide)

theorem close_raised : (· != ')') ∘ Char.toUpper = (· != ')') := comp_toUpper (by decide)

theorem throughParenthesis_raised (s : Text) :
    throughParenthesis (s.map Char.toUpper) = (throughParenthesis s).map Char.toUpper := by
  rw [throughParenthesis, takeWhile_raised close_raised, dropWhile_raised close_raised, ← List.map_take,
    ← List.map_append]
  rfl

theorem payload_raised (s : Text) : payload (s.map Char.toUpper) = (payload s).map Char.toUpper := by
  have hopen : ((s.map Char.toUpper).head? == some '(') = (s.head? == some '(') :=
    Bool.eq_iff_iff.mpr (by
      rw [beq_iff_eq, beq_iff_eq]
      exact head?_raised (toUpper_eq_iff (by decide)) s)
  rw [payload, hopen, throughParenthesis_raised, takeWhile_raised blank_raised, payload]
  split <;> rfl

theorem atFragmentStart_raised (behind : Text) :
    atFragmentStart (behind.map Char.toUpper) = atFragmentStart behind := by
  have hblank : isBlank ∘ Char.toUpper = isBlank := comp_toUpper (by decide)
  cases behind with
  | nil => rfl
  | cons c r => exact congrFun hblank c

theorem afterCallName_raised (behind : Text) : afterCallName (behind.map Char.toUpper) = afterCallName behind := by
  have hname : isNameChar ∘ Char.toUpper = isNameChar := comp_toUpper (by decide)
  have hcolon : (((behind.dropWhile isNameChar).map Char.toUpper).head? == some ':') =
      ((behind.dropWhile isNameChar).head? == some ':') :=
    Bool.eq_iff_iff.mpr (by
      rw [beq_iff_eq, beq_iff_eq]
      exact head?_raised (toUpper_eq_iff (by decide)) _)
  rw [afterCallName, takeWhile_raised hname, dropWhile_raised hname, hcolon, afterCallName, List.isEmpty_map]

/-- What is spared of a text in upper case, behind one in upper case, is what is spared of it as written. -/
theorem spared?_raised (behind here : Text) :
    spared? (behind.map Char.toUpper) (here.map Char.toUpper) =
      (spared? behind here).map (·.map Char.toUpper) := by
  cases here with
  | nil => rfl
  | cons c r =>
    have hlyric := toUpper_eq_iff (a := '&') (by decide) c
    have hmarker := toUpper_eq_iff (a := '!') (by decide) c
    have hat := toUpper_eq_iff (a := '@') (by decide) c
    have hparen := toUpper_eq_iff (a := '(') (by decide) c
    have hhash := head?_raised (toUpper_eq_iff (a := '#') (by decide)) r
    have hspan := throughParenthesis_raised (c :: r)
    rw [List.map_cons] at hspan
    rw [List.map_cons]
    simp only [spared?, hlyric, hmarker, hat, hparen, hhash, atFragmentStart_raised, afterCallName_raised,
      payload_raised, hspan, ← List.map_drop]
    split
    · rfl
    · split
      · rfl
      · split <;> rfl

/-! ### What a span is -/

/-- What is in parentheses, up to the first that closes, or to the end of the text where none does. -/
inductive Enclosed : Text → Text → Prop
  | closed {inner : Text} (after : Text) (h : ')' ∉ inner) : Enclosed ('(' :: (inner ++ [')'])) after
  | unclosed {inner : Text} (h : ')' ∉ inner) : Enclosed ('(' :: inner) []

/-- The text of a lyric or a marker, or the name of a request: enclosed, or a word up to white space. -/
inductive Payload : Text → Text → Prop
  | enclosed {body after : Text} (h : Enclosed body after) : Payload body after
  | word {body after : Text} (hopen : (body ++ after).head? ≠ some '(') (hword : IsWord body)
      (hend : ∀ c ∈ after.head?, isBlank c = true) : Payload body after

/-- A span of a text that keeps its case, from what is before it to what comes after. -/
inductive Span (before : Text) : Text → Text → Prop
  | caption {sign : Char} {body after : Text} (hsign : sign = '&' ∨ sign = '!')
      (hstart : ∀ c ∈ before.getLast?, isBlank c = true) (h : Payload body after) : Span before (sign :: body) after
  | request {body after : Text} (hstart : ∀ c ∈ before.getLast?, isBlank c = true) (h : Payload body after) :
      Span before ('@' :: '#' :: body) after
  | params {front name body after : Text} (hbefore : before = front ++ ':' :: name) (hname : name ≠ [])
      (hchars : ∀ c ∈ name, isNameChar c = true) (h : Enclosed body after) : Span before body after

theorem throughParenthesis_open {s : Text} (h : ')' ∉ s) : throughParenthesis s = s := by
  have hrun : ∀ c ∈ s, (c != ')') = true := fun c hc => bne_iff_ne.mpr fun heq => h (heq ▸ hc)
  rw [throughParenthesis, List.takeWhile_eq_self_iff.mpr hrun, List.dropWhile_eq_nil_iff.mpr hrun, List.take_nil,
    List.append_nil]

theorem enclosed_iff {body after : Text} :
    Enclosed body after ↔ (body ++ after).head? = some '(' ∧ throughParenthesis (body ++ after) = body := by
  constructor
  · rintro (⟨_, hinner⟩ | ⟨hinner⟩)
    · rename_i inner
      have hclose : ')' ∉ '(' :: inner := by simpa using hinner
      refine ⟨rfl, ?_⟩
      rw [List.cons_append, List.append_assoc, List.singleton_append, ← List.cons_append]
      exact Expansion.throughParenthesis_append hclose after
    · rw [List.append_nil]
      exact ⟨rfl, throughParenthesis_open (by simpa using hinner)⟩
  · rintro ⟨hopen, hbody⟩
    obtain ⟨r, hr⟩ := List.head?_eq_some_iff.mp hopen
    rw [hr] at hbody
    by_cases hclose : ')' ∈ r
    · obtain ⟨inner, rest, rfl, hinner⟩ := List.eq_append_cons_of_mem hclose
      have hspan : throughParenthesis ('(' :: inner ++ ')' :: rest) = '(' :: inner ++ [')'] :=
        Expansion.throughParenthesis_append (by simpa using hinner) rest
      rw [← List.cons_append, hspan] at hbody
      rw [← hbody]
      exact .closed after hinner
    · rw [throughParenthesis_open (by simpa using hclose)] at hbody
      rw [← hbody] at hr ⊢
      rw [List.append_right_eq_self.mp hr]
      exact .unclosed hclose

theorem payload_iff {body after : Text} : Payload body after ↔ payload (body ++ after) = body := by
  by_cases hopen : (body ++ after).head? = some '('
  · have hpayload : payload (body ++ after) = throughParenthesis (body ++ after) := if_pos (beq_iff_eq.mpr hopen)
    rw [hpayload]
    constructor
    · rintro (⟨h⟩ | ⟨hword, -, -⟩)
      · exact (enclosed_iff.mp h).2
      · exact absurd hopen hword
    · exact fun hbody => .enclosed (enclosed_iff.mpr ⟨hopen, hbody⟩)
  · have hpayload : payload (body ++ after) = (body ++ after).takeWhile fun c => !isBlank c :=
      if_neg (mt beq_iff_eq.mp hopen)
    rw [hpayload]
    constructor
    · rintro (⟨h⟩ | ⟨-, hword, hend⟩)
      · exact absurd (enclosed_iff.mp h).1 hopen
      · have hrun : ∀ c ∈ body, (!isBlank c) = true := fun c hc => by rw [hword c hc]; rfl
        rw [List.takeWhile_append_of_pos hrun]
        cases after with
        | nil => exact List.append_nil body
        | cons c r =>
          rw [List.takeWhile_cons_of_neg (by simp [hend c rfl]), List.append_nil]
    · intro hbody
      have hword : IsWord body := fun c hc => by
        rw [← hbody] at hc
        simpa using List.mem_takeWhile_imp hc
      refine .word hopen hword fun c hc => ?_
      obtain ⟨r, rfl⟩ := List.head?_eq_some_iff.mp hc
      by_contra hblank
      have hrun : ∀ c ∈ body, (!isBlank c) = true := fun c hc => by rw [hword c hc]; rfl
      rw [List.takeWhile_append_of_pos hrun, List.takeWhile_cons_of_pos (by simpa using hblank)] at hbody
      exact List.cons_ne_nil _ _ (List.append_right_eq_self.mp hbody)

theorem atFragmentStart_reverse_iff (before : Text) :
    atFragmentStart before.reverse = true ↔ ∀ c ∈ before.getLast?, isBlank c = true := by
  rw [List.getLast?_eq_head?_reverse]
  cases before.reverse with
  | nil => exact iff_of_true rfl nofun
  | cons c r => simp [atFragmentStart]

theorem afterCallName_reverse_iff (before : Text) : afterCallName before.reverse = true ↔
    ∃ front name, before = front ++ ':' :: name ∧ name ≠ [] ∧ ∀ c ∈ name, isNameChar c = true := by
  rw [afterCallName, Bool.and_eq_true, Bool.not_eq_true', List.isEmpty_eq_false_iff, beq_iff_eq]
  constructor
  · rintro ⟨hname, hcolon⟩
    obtain ⟨rest, hrest⟩ := List.head?_eq_some_iff.mp hcolon
    have hsplit := List.takeWhile_append_dropWhile (p := isNameChar) (l := before.reverse)
    rw [hrest] at hsplit
    have hbefore : before = (before.reverse.takeWhile isNameChar ++ ':' :: rest).reverse := by
      rw [hsplit, List.reverse_reverse]
    refine ⟨rest.reverse, (before.reverse.takeWhile isNameChar).reverse, hbefore.trans (by simp),
      by simpa using hname, fun c hc => ?_⟩
    exact List.mem_takeWhile_imp (List.mem_reverse.mp hc)
  · rintro ⟨front, name, rfl, hne, hchars⟩
    have hreverse : (front ++ ':' :: name).reverse = name.reverse ++ ':' :: front.reverse := by simp
    have hrun : ∀ c ∈ name.reverse, isNameChar c = true := fun c hc => hchars c (List.mem_reverse.mp hc)
    rw [hreverse, List.takeWhile_append_of_pos hrun, List.dropWhile_append_of_pos hrun,
      List.takeWhile_cons_of_neg (by decide), List.dropWhile_cons_of_neg (by decide), List.append_nil]
    exact ⟨by simpa using hne, rfl⟩

theorem span_iff {before span after : Text} :
    Span before span after ↔ spared? before.reverse (span ++ after) = some span := by
  constructor
  · intro h
    cases h with
    | caption hsign hstart h =>
      rw [List.cons_append, spared?, if_pos ⟨hsign, (atFragmentStart_reverse_iff before).mpr hstart⟩,
        payload_iff.mp h]
    | request hstart h =>
      have hat := (atFragmentStart_reverse_iff before).mpr hstart
      have hcaption : ¬ (('@' = '&' ∨ '@' = '!') ∧ atFragmentStart before.reverse = true) := fun h => by simp at h
      rw [List.cons_append, List.cons_append, spared?, if_neg hcaption, if_pos ⟨rfl, hat, rfl⟩,
        List.drop_one, List.tail_cons, payload_iff.mp h]
    | params hbefore hname hchars h =>
      obtain ⟨hopen, hspan⟩ := enclosed_iff.mp h
      obtain ⟨r, hr⟩ := List.head?_eq_some_iff.mp hopen
      have hcall := (afterCallName_reverse_iff before).mpr ⟨_, _, hbefore, hname, hchars⟩
      have hcaption : ¬ (('(' = '&' ∨ '(' = '!') ∧ atFragmentStart before.reverse = true) := fun h => by simp at h
      have hrequest : ¬ ('(' = '@' ∧ atFragmentStart before.reverse = true ∧ r.head? = some '#') := fun h => by
        simp at h
      rw [hr] at hspan ⊢
      rw [spared?, if_neg hcaption, if_neg hrequest, if_pos ⟨rfl, hcall⟩, hspan]
  · intro h
    obtain ⟨c, body, rfl⟩ := List.exists_cons_of_ne_nil (prefix_spared? h).2
    rw [List.cons_append, spared?] at h
    split at h
    · rename_i hcaption
      exact .caption hcaption.1 ((atFragmentStart_reverse_iff before).mp hcaption.2)
        (payload_iff.mpr (List.cons.inj (Option.some.inj h)).2)
    · split at h
      · rename_i hrequest
        obtain ⟨rfl, hstart, -⟩ := hrequest
        obtain ⟨body, rfl⟩ : ∃ b, body = '#' :: b := ⟨_, (List.cons.inj (Option.some.inj h)).2.symm⟩
        refine .request ((atFragmentStart_reverse_iff before).mp hstart) (payload_iff.mpr ?_)
        exact (List.cons.inj (List.cons.inj (Option.some.inj h)).2).2
      · split at h
        · rename_i hparams
          obtain ⟨rfl, hcall⟩ := hparams
          obtain ⟨front, name, hbefore, hname, hchars⟩ := (afterCallName_reverse_iff before).mp hcall
          exact .params hbefore hname hchars (enclosed_iff.mpr ⟨rfl, Option.some.inj h⟩)
        · cases h

/-! ### Cutting a text -/

/-- A text, with what is before it, cut from left to right into spans and characters at which no span begins. -/
inductive Cut : Text → Text → List (Piece Text) → Prop
  | nil (before : Text) : Cut before [] []
  | kept {before : Text} {c : Char} {rest : Text} {pieces : List (Piece Text)}
      (hnone : ∀ span after, c :: rest = span ++ after → ¬ Span before span after)
      (h : Cut (before ++ [c]) rest pieces) : Cut before (c :: rest) (.kept c :: pieces)
  | found {before span after : Text} {pieces : List (Piece Text)} (hspan : Span before span after)
      (h : Cut (before ++ span) after pieces) : Cut before (span ++ after) (.found span :: pieces)

theorem spared?_eq_none_iff {before here : Text} : spared? before.reverse here = none ↔
    ∀ span after, here = span ++ after → ¬ Span before span after := by
  constructor
  · rintro hnone span after rfl hspan
    exact nomatch hnone.symm.trans (span_iff.mp hspan)
  · intro h
    cases hspared : spared? before.reverse here with
    | none => rfl
    | some span =>
      obtain ⟨after, rfl⟩ := (prefix_spared? hspared).1
      exact absurd (span_iff.mpr hspared) (h span after rfl)

theorem pieces_kept {before : Text} {c : Char} {rest : Text} (h : spared? before.reverse (c :: rest) = none) :
    piecesFrom findSpared before.reverse 0 (c :: rest) =
      .kept c :: piecesFrom findSpared (before ++ [c]).reverse 0 rest := by
  have hnone : findSpared before.reverse (c :: rest) = none := Option.map_eq_none_iff.mpr h
  rw [piecesFrom, hnone, List.reverse_concat]

theorem pieces_found {before span after : Text} (h : Span before span after) :
    piecesFrom findSpared before.reverse 0 (span ++ after) =
      .found span :: piecesFrom findSpared (before ++ span).reverse 0 after := by
  have hspared := span_iff.mp h
  have hfound : findSpared before.reverse (span ++ after) = some ⟨span, span.length⟩ :=
    Option.map_eq_some_iff.mpr ⟨span, hspared, rfl⟩
  rw [piecesFrom_found (prefix_spared? hspared).2 hfound rfl, List.reverse_append]

/-- The pieces that upper-casing finds are a cut of the text. -/
theorem cut_pieces (before text : Text) : Cut before text (piecesFrom findSpared before.reverse 0 text) := by
  cases text with
  | nil => exact .nil before
  | cons c rest =>
    cases hspared : spared? before.reverse (c :: rest) with
    | none =>
      rw [pieces_kept hspared]
      exact .kept (spared?_eq_none_iff.mp hspared) (cut_pieces (before ++ [c]) rest)
    | some span =>
      obtain ⟨⟨after, hafter⟩, hne⟩ := prefix_spared? hspared
      rw [← hafter] at hspared ⊢
      have hshorter : after.length < (c :: rest).length := by
        have hpos := List.length_pos_of_ne_nil hne
        rw [← hafter, List.length_append]
        omega
      rw [pieces_found (span_iff.mpr hspared)]
      exact .found (span_iff.mpr hspared) (cut_pieces (before ++ span) after)
termination_by text.length
decreasing_by
  · exact Nat.lt_succ_self _
  · exact hshorter

theorem cut_text (text : Text) : Cut [] text (pieces findSpared text) := cut_pieces [] text

/-- No other is. -/
theorem Cut.eq_pieces {before text : Text} {pieces : List (Piece Text)} (h : Cut before text pieces) :
    pieces = piecesFrom findSpared before.reverse 0 text := by
  induction h with
  | nil before => rfl
  | kept hnone h ih => rw [pieces_kept (spared?_eq_none_iff.mpr hnone), ← ih]
  | found hspan h ih => rw [pieces_found hspan, ← ih]

/-! ### Cut again -/

/-- A character in upper case, a span as it is. -/
def raise : Piece Text → Piece Text
  | .kept c => .kept c.toUpper
  | .found span => .found span

def written : Piece Text → Text
  | .kept c => [c]
  | .found span => span

/-- What pieces have written in them when their characters are in upper case. -/
def raised (pieces : List (Piece Text)) : Text := (pieces.map raise).flatMap written

theorem Cut.written_eq {before text : Text} {pieces : List (Piece Text)} (h : Cut before text pieces) :
    pieces.flatMap written = text := by
  induction h with
  | nil => rfl
  | kept hnone h ih => rw [List.flatMap_cons, ih]; rfl
  | found hspan h ih => rw [List.flatMap_cons, ih]; rfl

theorem map_raised (pieces : List (Piece Text)) :
    (raised pieces).map Char.toUpper = (pieces.flatMap written).map Char.toUpper := by
  induction pieces with
  | nil => rfl
  | cons piece rest ih =>
    have hpiece : (written (raise piece)).map Char.toUpper = (written piece).map Char.toUpper := by
      cases piece with
      | kept c => exact congrArg (fun d => [d]) (toUpper_toUpper c)
      | found span => rfl
    rw [raised] at ih ⊢
    rw [List.map_cons, List.flatMap_cons, List.flatMap_cons, List.map_append, List.map_append, hpiece, ih]

section

variable {before before' : Text} (hbefore : before'.map Char.toUpper = before.map Char.toUpper)

include hbefore

theorem spared?_like {here here' : Text} (hhere : here'.map Char.toUpper = here.map Char.toUpper) :
    (spared? before'.reverse here').map (·.map Char.toUpper) =
      (spared? before.reverse here).map (·.map Char.toUpper) := by
  rw [← spared?_raised, ← spared?_raised, List.map_reverse, List.map_reverse, hbefore, hhere]

/-- Of texts that differ in case only, a span begins in one where it does in the other. -/
theorem Span.like {span after after' : Text} (h : Span before span after)
    (hafter : after'.map Char.toUpper = after.map Char.toUpper) : Span before' span after' := by
  have hhere : (span ++ after').map Char.toUpper = (span ++ after).map Char.toUpper := by
    rw [List.map_append, hafter, List.map_append]
  have hlike := spared?_like hbefore hhere
  rw [span_iff.mp h] at hlike
  obtain ⟨other, hother, hsame⟩ := Option.map_eq_some_iff.mp hlike
  have hlength : other.length = span.length := by
    simpa using congrArg List.length hsame
  have hfront : other <+: span :=
    List.prefix_of_prefix_length_le (prefix_spared? hother).1 (List.prefix_append span after') hlength.le
  rw [hfront.eq_of_length hlength] at hother
  exact span_iff.mpr hother

end

/-- What a cut text becomes is cut where the text is. -/
theorem Cut.raise {before before' text : Text} {pieces : List (Piece Text)} (h : Cut before text pieces)
    (hbefore : before'.map Char.toUpper = before.map Char.toUpper) :
    Cut before' (raised pieces) (pieces.map raise) := by
  induction h generalizing before' with
  | nil => exact .nil before'
  | kept hnone h ih =>
    rename_i before c rest pieces
    have hlike : (c.toUpper :: raised pieces).map Char.toUpper = (c :: rest).map Char.toUpper := by
      rw [List.map_cons, List.map_cons, toUpper_toUpper, map_raised, h.written_eq]
    have hnone' : spared? before'.reverse (c.toUpper :: raised pieces) = none := by
      have hspared := spared?_like hbefore hlike
      rw [spared?_eq_none_iff.mpr hnone] at hspared
      exact Option.map_eq_none_iff.mp hspared
    refine .kept (spared?_eq_none_iff.mp hnone') (ih ?_)
    rw [List.map_append, List.map_append, hbefore, List.map_singleton, List.map_singleton, toUpper_toUpper]
  | found hspan h ih =>
    rename_i before span after pieces
    have hafter : (raised pieces).map Char.toUpper = after.map Char.toUpper := by
      rw [map_raised, h.written_eq]
    refine .found (hspan.like hbefore hafter) (ih ?_)
    rw [List.map_append, List.map_append, hbefore]
    rfl

theorem raised_raise (pieces : List (Piece Text)) : raised (pieces.map raise) = raised pieces := by
  have hpiece : ∀ piece, raise (raise piece) = raise piece := fun piece => by
    cases piece with
    | kept c => exact congrArg Piece.kept (toUpper_toUpper c)
    | found span => rfl
  rw [raised, raised, List.map_map]
  exact congrArg (·.flatMap written) (List.map_congr_left fun piece _ => hpiece piece)

/-- A character of a text, and what becomes of it: itself, or a letter's capital. -/
def Cased (c d : Char) : Prop := d = c ∨ c.isLower = true ∧ d = c.toUpper

theorem cased_toUpper (c : Char) : Cased c c.toUpper := by
  by_cases hletter : 'a'.val ≤ c.val ∧ c.val ≤ 'z'.val
  · exact .inr ⟨Bool.and_eq_true_iff.mpr ⟨decide_eq_true hletter.1, decide_eq_true hletter.2⟩, rfl⟩
  · exact .inl (dif_neg hletter)

theorem isLower_toUpper (c : Char) : c.toUpper.isLower = false := by
  by_cases hc : c.toNat < 128
  · have hall : ∀ n < 128, (Char.ofNat n).toUpper.isLower = false := by decide
    exact Expansion.forall_ascii (P := fun c => c.toUpper.isLower = false) hall hc
  · have hval : 128 ≤ c.val.toNat := Nat.le_of_not_lt hc
    have hpast : ¬ c.val ≤ 'z'.val := by
      rw [UInt32.not_le, UInt32.lt_iff_toNat_lt]
      exact Nat.lt_of_lt_of_le (by decide) hval
    rw [toUpper_of_beyond hc]
    exact Bool.and_eq_false_iff.mpr (.inr (decide_eq_false hpast))

theorem cased_raised (pieces : List (Piece Text)) :
    List.Forall₂ Cased (pieces.flatMap written) (raised pieces) := by
  induction pieces with
  | nil => exact .nil
  | cons piece rest ih =>
    rw [raised, List.map_cons, List.flatMap_cons, List.flatMap_cons]
    refine List.rel_append ?_ ih
    cases piece with
    | kept c => exact .cons (cased_toUpper c) .nil
    | found span => exact List.forall₂_same.mpr fun c _ => .inl rfl

theorem apply_of_ascii {text : Text} (hascii : ∀ c ∈ text, c.toNat < 128) :
    apply text = raised (pieces findSpared text) := by
  have hall : ∀ pieces : List (Piece Text), (∀ c ∈ pieces.flatMap written, c.toNat < 128) →
      pieces.flatMap upperPiece = raised pieces := by
    intro pieces
    induction pieces with
    | nil => exact fun _ => rfl
    | cons piece rest ih =>
      intro hascii
      rw [List.flatMap_cons] at hascii
      obtain ⟨hpiece, hrest⟩ := List.forall_mem_append.mp hascii
      rw [raised] at ih ⊢
      rw [List.flatMap_cons, List.map_cons, List.flatMap_cons, ih hrest]
      cases piece with
      | kept c => exact congrArg (· ++ _) (upperChar_of_lt c (hpiece c List.mem_cons_self))
      | found span => rfl
  refine hall _ ?_
  rw [(cut_text text).written_eq]
  exact hascii

theorem ascii_apply {text : Text} (hascii : ∀ c ∈ text, c.toNat < 128) : ∀ c ∈ apply text, c.toNat < 128 := by
  have hall : ∀ n < 128, (Char.ofNat n).toUpper.toNat < 128 := by decide
  intro c hc
  rcases mem_apply hc with hc | ⟨d, hd, hc⟩
  · exact hascii c hc
  · rw [upperChar_of_lt d (hascii d hd), List.mem_singleton] at hc
    rw [hc]
    exact Expansion.forall_ascii (P := fun d => d.toUpper.toNat < 128) hall (hascii d hd)

/-- A text of ASCII is put in upper case once. Nothing but letters changes; the text has one cut, from left to right,
into spans, which stay as they are, and characters outside them, of which no letter stays small; and what it becomes
is cut into the same spans again. -/
theorem cased_once {text : Text} (hascii : ∀ c ∈ text, c.toNat < 128) :
    apply (apply text) = apply text ∧ (apply text).length = text.length ∧
      List.Forall₂ Cased text (apply text) ∧
      ∃ pieces, Cut [] text pieces ∧ (∀ others, Cut [] text others → others = pieces) ∧
        apply text = (pieces.map raise).flatMap written ∧ Cut [] (apply text) (pieces.map raise) ∧
        ∀ c, .kept c ∈ pieces.map raise → c.isLower = false := by
  have hcut := cut_text text
  have happly := apply_of_ascii hascii
  have hchanged : List.Forall₂ Cased text (apply text) := by
    have hall := cased_raised (pieces findSpared text)
    rwa [hcut.written_eq, ← happly] at hall
  have hagain : Cut [] (apply text) ((pieces findSpared text).map raise) := by
    rw [happly]
    exact hcut.raise rfl
  have htwice : apply (apply text) = apply text := by
    have hpieces : pieces findSpared (apply text) = (pieces findSpared text).map raise := hagain.eq_pieces.symm
    rw [apply_of_ascii (ascii_apply hascii), hpieces, raised_raise, ← happly]
  refine ⟨htwice, hchanged.length_eq.symm, hchanged, pieces findSpared text, hcut, fun others h => h.eq_pieces, happly,
    hagain, fun c hc => ?_⟩
  obtain ⟨piece, -, hpiece⟩ := List.mem_map.mp hc
  cases piece with
  | kept d =>
    cases hpiece
    exact isLower_toUpper d
  | found span => cases hpiece

theorem cased_once_mixed :
    (∀ c ∈ "c &Hi d @#aB :f(cD) (e)q".toList, c.toNat < 128) ∧
    apply "c &Hi d @#aB :f(cD) (e)q".toList = "C &Hi D @#aB :F(cD) (E)Q".toList ∧
    apply "C &Hi D @#aB :F(cD) (E)Q".toList = "C &Hi D @#aB :F(cD) (E)Q".toList := by
  have hascii : ∀ c ∈ "c &Hi d @#aB :f(cD) (e)q".toList, c.toNat < 128 := by decide
  have hcased : apply "c &Hi d @#aB :f(cD) (e)q".toList = "C &Hi D @#aB :F(cD) (E)Q".toList := by decide
  have htwice := (cased_once hascii).1
  rw [hcased] at htwice
  exact ⟨hascii, hcased, htwice⟩

end Casing

end ScoreText
