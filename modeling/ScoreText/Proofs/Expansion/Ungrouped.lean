import ScoreText.Proofs.Expansion.Casing

/-!
Expansion of a text without parentheses and braces. Every stage goes through it part by part, so two
texts with a space between them expand to their expansions with a space between them.
-/

set_option autoImplicit false

namespace ScoreText

open Text Stage

namespace Microtone

/-- What stands at a place where a frequency may follow. -/
def report (lead r : Text) : Option (Text.Match Written) :=
  if (takeFrequency r).1.isEmpty then none
  else
    let suffix := (takeFrequency r).2.takeWhile fun c => !Text.isBlank c
    some ⟨⟨lead, (takeFrequency r).1, suffix⟩,
      lead.length + 1 + (takeFrequency r).1.length + suffix.length⟩

theorem find_first (behind r : Text) :
    find behind ('M' :: r) = if behind.isEmpty then report [] r else none := by
  cases behind <;> rfl

theorem find_later (behind r : Text) : find behind (' ' :: 'M' :: r) = report [' '] r := rfl

/-- White space is no digit of any script. -/
theorem isAnyDigit_of_isBlank {c : Char} (h : Text.isBlank c = true) : Text.isAnyDigit c = false := by
  have hblank : c.toNat ∈ List.range' 9 5 ++ [0x20, 0x85, 0xA0, 0x1680] ++ List.range' 0x2000 11 ++
      [0x2028, 0x2029, 0x202F, 0x205F, 0x3000] := by
    simp only [Text.isBlank, Bool.or_eq_true, Bool.and_eq_true, decide_eq_true_eq, beq_iff_eq] at h
    simp only [List.mem_append, List.mem_range'_1, List.mem_cons, List.not_mem_nil, or_false]
    omega
  have hall : ∀ n ∈ List.range' 9 5 ++ [0x20, 0x85, 0xA0, 0x1680] ++ List.range' 0x2000 11 ++
      [0x2028, 0x2029, 0x202F, 0x205F, 0x3000],
      Text.digitRanges.any (fun range => decide (range.1 ≤ n) && decide (n ≤ range.2)) = false := by
    decide +kernel
  exact hall c.toNat hblank

section Blank

variable {c : Char} (hc : Text.isBlank c = true)

include hc

theorem takeFrequency_append (r y : Text) :
    takeFrequency (r ++ c :: y) = ((takeFrequency r).1, (takeFrequency r).2 ++ c :: y) := by
  have hdigit := isAnyDigit_of_isBlank hc
  have hpoint : c ≠ '.' := by
    rintro rfl
    exact absurd hc (by decide)
  unfold takeFrequency
  rw [takeWhile_append_of_neg hdigit, dropWhile_append_of_neg hdigit]
  cases r.dropWhile Text.isAnyDigit with
  | nil => simp [hpoint]
  | cons d s =>
    by_cases hd : d = '.'
    · subst hd
      simp only [List.cons_append, takeWhile_append_of_neg hdigit, dropWhile_append_of_neg hdigit]
      split <;> rfl
    · simp [hd]

theorem report_append (lead r y : Text) : report lead (r ++ c :: y) = report lead r := by
  have hblank : (!Text.isBlank c) = false := by rw [hc]; rfl
  have hsuffix := takeWhile_append_of_neg (p := fun c => !Text.isBlank c) hblank
    (takeFrequency r).2 y
  simp only [report, takeFrequency_append hc, hsuffix]

end Blank

theorem length_takeFrequency (r : Text) :
    (takeFrequency r).1.length + (takeFrequency r).2.length = r.length := by
  have hsplit : ∀ s : Text,
      (s.takeWhile Text.isAnyDigit).length + (s.dropWhile Text.isAnyDigit).length = s.length := by
    intro s
    rw [← List.length_append, List.takeWhile_append_dropWhile]
  have hwhole := hsplit r
  unfold takeFrequency
  split
  · rename_i s hs
    have hplaces := hsplit s
    rw [hs, List.length_cons] at hwhole
    dsimp only
    split
    · rw [List.length_cons]
      exact hwhole
    · simp only [List.length_append, List.length_cons]
      omega
  · exact hwhole

theorem length_report {lead r : Text} {m : Text.Match Written} (h : report lead r = some m) :
    lead.length + 1 ≤ m.length ∧ m.length ≤ lead.length + 1 + r.length := by
  unfold report at h
  split at h
  · cases h
  · have hall := length_takeFrequency r
    have hsuffix := ((takeFrequency r).2.takeWhile_sublist fun c => !Text.isBlank c).length_le
    rw [← Option.some.inj h]
    constructor <;> simp only <;> omega

theorem find_none {c : Char} (behind : Text) {r : Text} (hc : c ≠ 'M')
    (hspace : c = ' ' → r.head? ≠ some 'M') : find behind (c :: r) = none :=
  Expansion.findMicrotone_none (.inr hc) hspace

theorem contained {c : Char} (hc : Text.isBlank c = true) (x y : Text) :
    Contained find x (c :: y) := by
  intro behind d r _
  by_cases hd : d = 'M'
  · subst hd
    rw [find_first, find_first, report_append hc]
    refine ⟨rfl, fun m hm => ?_⟩
    split at hm
    · have := (length_report hm).2
      simp only [List.length_nil] at this
      omega
    · cases hm
  · by_cases hlater : d = ' ' ∧ r.head? = some 'M'
    · obtain ⟨rfl, hhead⟩ := hlater
      obtain ⟨rest, rfl⟩ : ∃ rest, r = 'M' :: rest := List.head?_eq_some_iff.mp hhead
      rw [List.cons_append, find_later, find_later, report_append hc]
      refine ⟨rfl, fun m hm => ?_⟩
      have := (length_report hm).2
      simp only [List.length_cons, List.length_nil] at this ⊢
      omega
    · have hnext : d = ' ' → r.head? ≠ some 'M' := fun h hm => hlater ⟨h, hm⟩
      have hfar : d = ' ' → (r ++ c :: y).head? ≠ some 'M' := by
        intro h hm
        cases r with
        | nil =>
          rw [List.nil_append, List.head?_cons, Option.some.injEq] at hm
          rw [hm] at hc
          exact absurd hc (by decide)
        | cons e r => exact hnext h hm
      rw [find_none behind hd hnext, find_none behind hd hfar]
      exact ⟨rfl, fun m hm => nomatch hm⟩

/-- A microtone with one more space in front. -/
def Written.spaced (w : Written) : Written := { w with lead := ' ' :: w.lead }

theorem render_spaced (w : Written) : render w.spaced = ahead [' '] (render w) := by
  unfold render Written.spaced
  cases Decimal.ofText? w.frequency with
  | none => rfl
  | some d =>
    simp only [bind, Except.bind]
    cases noteAndBend (Scalar.ofDecimal d) <;> rfl

theorem report_spaced (r : Text) :
    report [' '] r = (report [] r).map fun m => ⟨m.value.spaced, m.length + 1⟩ := by
  unfold report
  split
  · rfl
  · simp only [Option.map_some, Written.spaced, List.length_cons, List.length_nil,
      Option.some.injEq, Text.Match.mk.injEq, true_and]
    omega

theorem find_congr {b d : Text} {c : Char} (h : c = 'M' → b.isEmpty = d.isEmpty) (r : Text) :
    find b (c :: r) = find d (c :: r) := by
  by_cases hc : c = 'M'
  · subst hc
    rw [find_first, find_first, h rfl]
  · by_cases hlater : c = ' ' ∧ r.head? = some 'M'
    · obtain ⟨rfl, hhead⟩ := hlater
      obtain ⟨rest, rfl⟩ : ∃ rest, r = 'M' :: rest := List.head?_eq_some_iff.mp hhead
      rw [find_later, find_later]
    · have hnext : c = ' ' → r.head? ≠ some 'M' := fun h hm => hlater ⟨h, hm⟩
      rw [find_none b hc hnext, find_none d hc hnext]

/-- After other characters it does not matter which. -/
theorem piecesFrom_behind (c d : Char) (b e : Text) (skip : Nat) (s : Text) :
    piecesFrom find (c :: b) skip s = piecesFrom find (d :: e) skip s := by
  have hsome : (c :: b).isEmpty = (d :: e).isEmpty := rfl
  exact piecesFrom_congr (fun b d => b.isEmpty = d.isEmpty) (fun _ _ _ _ => rfl)
    (fun b d c r hbd _ => find_congr (fun _ => hbd) r) hsome skip

theorem produce_found_spaced (w : Written) (ps : List (Piece Written)) :
    produce (pieceOr render) (.found w.spaced :: ps) =
      ahead [' '] (produce (pieceOr render) (.found w :: ps)) := by
  simp only [produce, pieceOr, render_spaced]
  cases render w with
  | error e => rfl
  | ok t => cases produce (pieceOr render) ps <;> rfl

/-- After a space a text goes on as if it started there. A microtone that it starts with takes the
space along. -/
theorem produce_after_space (behind y : Text) :
    produce (pieceOr render) (piecesFrom find behind 0 (' ' :: y)) =
      ahead [' '] (produce (pieceOr render) (pieces find y)) := by
  have hkept : pieceOr render (.kept ' ') = .ok [' '] := rfl
  cases y with
  | nil =>
    have hnone : find behind [' '] = none := find_none behind (by decide) fun _ => by simp
    simp only [piecesFrom, hnone]
    exact produce_cons_ok hkept _
  | cons c r =>
    by_cases hc : c = 'M'
    · subst hc
      have hsecond : find (' ' :: behind) ('M' :: r) = none := rfl
      have hfirst : find [] ('M' :: r) = report [] r := rfl
      have hspaced := report_spaced r
      rw [pieces]
      simp only [piecesFrom, find_later, hspaced, hfirst]
      cases hreport : report [] r with
      | none =>
        simp only [Option.map_none, hsecond]
        rw [produce_cons_ok hkept, piecesFrom_behind 'M' 'M' (' ' :: behind) []]
      | some m =>
        obtain ⟨k, hk⟩ : ∃ k, m.length = k + 1 :=
          Nat.exists_eq_succ_of_ne_zero (by have := (length_report hreport).1; omega)
        simp only [Option.map_some, hk, Nat.add_sub_cancel, piecesFrom]
        rw [produce_found_spaced, piecesFrom_behind 'M' 'M' (' ' :: behind) []]
    · have hnone : find behind (' ' :: c :: r) = none :=
        find_none behind (by decide) fun _ h => hc (Option.some.inj h)
      have hsame : find (' ' :: behind) (c :: r) = find [] (c :: r) := find_congr (absurd · hc) r
      have hrest : piecesFrom find (' ' :: behind) 0 (c :: r) = pieces find (c :: r) := by
        rw [pieces, piecesFrom, piecesFrom, hsame]
        split <;> rw [piecesFrom_behind c c (' ' :: behind) []]
      rw [piecesFrom, hnone, ← hrest]
      exact produce_cons_ok hkept _

theorem apply_append (x y : Text) :
    apply (x ++ ' ' :: y) = (apply x).bind fun u => ahead u (ahead [' '] (apply y)) := by
  simp only [apply, renderPiecesOr_eq]
  rw [pieces, piecesFrom_append (contained rfl x y) [] (Nat.zero_le _), produce_append,
    produce_after_space]
  rfl

end Microtone

namespace Ornaments

variable {R : Type} [Scalar R]

theorem length_of_mapM {α β ε : Type} {f : α → Except ε β} {l : List α} {r : List β}
    (h : l.mapM f = .ok r) : r.length = l.length := by
  induction l generalizing r with
  | nil =>
    cases h
    rfl
  | cons a rest ih =>
    rw [List.mapM_cons] at h
    cases ha : f a with
    | error e =>
      rw [ha] at h
      cases h
    | ok b =>
      cases hrest : rest.mapM f with
      | error e =>
        rw [ha, hrest] at h
        cases h
      | ok bs =>
        rw [ha, hrest] at h
        cases h
        rw [List.length_cons, List.length_cons, ih hrest]

/-- Broken chords are written out fragment by fragment. -/
theorem expandBrokenChords_append (ctx : NoteContext R) (x y : Text) :
    expandBrokenChords ctx (x ++ ' ' :: y) =
      (expandBrokenChords ctx x).bind fun u => ahead u (ahead [' '] (expandBrokenChords ctx y)) := by
  simp only [expandBrokenChords, fields_append_fields, List.mapM_append]
  cases hx : (Text.fields ' ' x).mapM (expandBroken ctx) with
  | error e => rfl
  | ok us =>
    cases hy : (Text.fields ' ' y).mapM (expandBroken ctx) with
    | error e => rfl
    | ok vs =>
      have hus : us ≠ [] := by
        have hlength := length_of_mapM hx
        have hsome := List.length_pos_of_ne_nil (fields_ne_nil ' ' x)
        exact List.ne_nil_of_length_pos (by omega)
      have hvs : vs ≠ [] := by
        have hlength := length_of_mapM hy
        have hsome := List.length_pos_of_ne_nil (fields_ne_nil ' ' y)
        exact List.ne_nil_of_length_pos (by omega)
      have hjoin := join_append_join [' '] hus hvs
      rw [List.append_assoc] at hjoin
      exact congrArg Except.ok hjoin

end Ornaments

namespace Expansion

variable {R : Type} [Scalar R]

theorem not_mem_of_suffix {c d : Char} {r s : Text} (h : d ∉ s) (hs : c :: r <:+ s) :
    c ≠ d ∧ d ∉ r :=
  ⟨fun he => h (he ▸ hs.subset List.mem_cons_self),
    fun hr => h (hs.subset (List.mem_cons_of_mem c hr))⟩

theorem findCall_none_of_suffix {c : Char} {r s : Text} (h : '(' ∉ s) (hs : c :: r <:+ s)
    (behind : Text) : Parentheses.findCall behind (c :: r) = none := by
  rw [← List.append_nil r]
  exact findCall_none (not_mem_of_suffix h hs).2 (.inl rfl)

theorem enclosed?_none {s : Text} (h : '(' ∉ s) : Parentheses.enclosed? s = none := by
  unfold Parentheses.enclosed?
  split
  · exact absurd List.mem_cons_self h
  · rfl

theorem opening?_suffix {behind s lead group : Text} {opens : Text → Bool}
    (h : Parentheses.opening? behind opens s = some (lead, group)) : group <:+ s := by
  unfold Parentheses.opening? at h
  split at h
  · cases h
    exact List.suffix_refl s
  · cases s with
    | nil => cases h
    | cons c r =>
      dsimp only at h
      split at h
      · cases h
        exact List.suffix_cons c _
      · cases h

theorem findCaption_none_of_not_mem {s : Text} (h : '(' ∉ s) (behind : Text) :
    Parentheses.findCaption behind s = none := by
  unfold Parentheses.findCaption
  dsimp only
  cases hopen : Parentheses.opening? behind
      (fun s => s.head? == some '&' || s.head? == some '!') s with
  | none => rfl
  | some found =>
    obtain ⟨lead, group⟩ := found
    have hsuffix := opening?_suffix hopen
    cases group with
    | nil => rfl
    | cons sign r =>
      have hnone := enclosed?_none (not_mem_of_suffix h hsuffix).2
      simp [hnone]

/-- Without parentheses there is nothing to collect. -/
theorem collect_ungrouped {s : Text} (h : '(' ∉ s) : Parentheses.collect s = s := by
  refine (congrArg _ (piecesFrom_of_none (fun behind c r hr => ?_) [])).trans (renderPieces_kept _ s)
  obtain ⟨hc, hrest⟩ := not_mem_of_suffix h hr
  exact findCollected_none (.inr hc) fun _ hm => hrest (List.mem_of_mem_head? hm)

/-- Nor is there anything to close up, -/
theorem closeUp_ungrouped {s : Text} (h : '(' ∉ s) : Parentheses.closeUp s = s := by
  refine (congrArg _ (piecesFrom_of_none (fun behind c r hr => ?_) [])).trans (renderPieces_kept _ s)
  exact findCall_none_of_suffix h hr behind

/-- nor to protect. -/
theorem joinUp_ungrouped {s : Text} (h : '(' ∉ s) : Parentheses.joinUp s = s := by
  rw [Parentheses.joinUp, closeUp_ungrouped h]
  refine (congrArg _ (piecesFrom_of_none (fun behind c r hr => ?_) [])).trans (renderPieces_kept _ s)
  exact findCaption_none_of_not_mem (fun hm => h (hr.subset hm)) behind

theorem joinUp_collect_ungrouped {s : Text} (h : '(' ∉ s) :
    Parentheses.joinUp (Parentheses.collect s) = s := by
  rw [collect_ungrouped h, joinUp_ungrouped h]

theorem expandCalls_ungrouped (functions : Functions) (ctx : NoteContext R) {s : Text}
    (h : '(' ∉ s) : Ornaments.expandCalls functions ctx s = .ok s := by
  have hnone : ∀ behind c r, c :: r <:+ s → Ornaments.findCall behind (c :: r) = none :=
    fun behind c r hr => findOrnament_none (findCall_none_of_suffix h hr behind)
  rw [Ornaments.expandCalls, pieces, piecesFrom_of_none hnone, renderPiecesOr_kept]

theorem instructions_unbraced (t : Instructions) {s : Text} (h : '{' ∉ s) : t.apply s = .ok s := by
  have hnone : ∀ behind c r, c :: r <:+ s → Instructions.findBraces behind (c :: r) = none :=
    fun behind c r hr => findBraces_none (not_mem_of_suffix h hr).1 behind r
  rw [Instructions.apply, pieces, piecesFrom_of_none hnone, renderPiecesOr_kept]

end Expansion

namespace Parser

open Expansion

variable {R : Type} [Scalar R]

/-- A parser that replaces no keys, and whose own stages go through a text part by part. -/
structure Partwise (p : Parser R) : Prop where
  substitution : p.substitution.values.isEmpty = true
  stages : ∀ stage ∈ p.extraStages, ∀ x y, stage (x ++ ' ' :: y) = stage x ++ ' ' :: stage y

/-- A text without groups and instructions. -/
structure Ungrouped (s : Text) : Prop where
  parenthesis : '(' ∉ s
  brace : '{' ∉ s

instance (s : Text) : Decidable (Ungrouped s) :=
  decidable_of_iff ('(' ∉ s ∧ '{' ∉ s) ⟨fun h => ⟨h.1, h.2⟩, fun h => ⟨h.parenthesis, h.brace⟩⟩

theorem Ungrouped.append {a b : Text} (ha : Ungrouped a) (hb : Ungrouped b) :
    Ungrouped (a ++ ' ' :: b) := by
  constructor
  · simpa using ⟨ha.parenthesis, hb.parenthesis⟩
  · simpa using ⟨ha.brace, hb.brace⟩

/-- The stages that remain: microtones and broken chords, and those that the user has added. -/
theorem expand_ungrouped {p : Parser R} (hp : p.Partwise) {s : Text} (h : Ungrouped s) :
    p.expand s = (Microtone.apply (Casing.apply s)).bind fun t =>
      (Ornaments.expandBrokenChords p.context.noteContext t).map fun u =>
        p.extraStages.foldl (fun text stage => stage text) u := by
  have hsubst : p.substitution.apply s = s := if_pos hp.substitution
  have hcased := Casing.not_mem_apply h.parenthesis
  simp only [expand, hsubst, instructions_unbraced p.instructions h.brace,
    joinUp_collect_ungrouped hcased, expandCalls_ungrouped _ _ hcased, bind, Except.bind, pure,
    Except.pure]
  cases Microtone.apply (Casing.apply s) with
  | error e => rfl
  | ok t => cases Ornaments.expandBrokenChords p.context.noteContext t <;> rfl

theorem foldl_stages {stages : List (Text → Text)}
    (h : ∀ stage ∈ stages, ∀ x y, stage (x ++ ' ' :: y) = stage x ++ ' ' :: stage y) (x y : Text) :
    stages.foldl (fun text stage => stage text) (x ++ ' ' :: y) =
      stages.foldl (fun text stage => stage text) x ++ ' ' ::
        stages.foldl (fun text stage => stage text) y := by
  induction stages generalizing x y with
  | nil => rfl
  | cons stage rest ih =>
    obtain ⟨hstage, hrest⟩ := List.forall_mem_cons.mp h
    rw [List.foldl_cons, hstage, ih hrest]
    rfl

/-- What becomes of a text once its groups are written out: the stages that remain are those of microtones
and broken chords, and those that the user has added. -/
def completed (p : Parser R) (s : Text) : Except Error Text :=
  (Microtone.apply s).bind fun t =>
    (Ornaments.expandBrokenChords p.context.noteContext t).map fun u =>
      p.extraStages.foldl (fun text stage => stage text) u

/-- The stages that there are for a text without braces. -/
theorem expand_unbraced (p : Parser R) (hsubst : p.substitution.values.isEmpty = true) {s : Text}
    (h : '{' ∉ s) : p.expand s =
      (Ornaments.expandCalls p.dialect.functions p.context.noteContext
        (Parentheses.joinUp (Parentheses.collect (Casing.apply s)))).bind p.completed := by
  have hkept : p.substitution.apply s = s := if_pos hsubst
  simp only [expand, hkept, instructions_unbraced p.instructions h, bind, Except.bind, pure, Except.pure,
    completed]
  generalize Ornaments.expandCalls p.dialect.functions p.context.noteContext
    (Parentheses.joinUp (Parentheses.collect (Casing.apply s))) = called
  cases called with
  | error e => rfl
  | ok t =>
    cases Microtone.apply t with
    | error e => rfl
    | ok u => cases Ornaments.expandBrokenChords p.context.noteContext u <;> rfl

/-- These stages come through two texts together just when they come through each of them. -/
theorem completed_append {p : Parser R} (hp : p.Partwise) (x y w : Text) :
    p.completed (x ++ ' ' :: y) = .ok w ↔
      ∃ u v, p.completed x = .ok u ∧ p.completed y = .ok v ∧ w = u ++ ' ' :: v := by
  rw [completed, completed, completed, Microtone.apply_append]
  cases Microtone.apply x with
  | error e => simp [Except.bind]
  | ok s =>
    cases Microtone.apply y with
    | error e => simp [Except.bind, ahead, Except.map]
    | ok t =>
      have hbroken := Ornaments.expandBrokenChords_append p.context.noteContext s t
      simp only [ahead_ok, List.singleton_append, Except.bind, hbroken]
      cases Ornaments.expandBrokenChords p.context.noteContext s with
      | error e => simp [Except.map]
      | ok u =>
        cases Ornaments.expandBrokenChords p.context.noteContext t with
        | error e => simp [ahead, Except.map]
        | ok v =>
          have hstages := foldl_stages hp.stages u v
          simp only [ahead_ok, List.singleton_append, Except.map, hstages, Except.ok.injEq]
          constructor
          · rintro rfl
            exact ⟨_, _, rfl, rfl, rfl⟩
          · rintro ⟨_, _, rfl, rfl, rfl⟩
            rfl

/-- Two texts expand together just when each of them expands. -/
theorem expand_append {p : Parser R} (hp : p.Partwise) {a b : Text} (ha : Ungrouped a)
    (hb : Ungrouped b) (w : Text) :
    p.expand (a ++ ' ' :: b) = .ok w ↔
      ∃ u v, p.expand a = .ok u ∧ p.expand b = .ok v ∧ w = u ++ ' ' :: v := by
  rw [expand_ungrouped hp (ha.append hb), expand_ungrouped hp ha, expand_ungrouped hp hb,
    Casing.apply_append ha.parenthesis]
  exact completed_append hp _ _ w

end Parser

end ScoreText
