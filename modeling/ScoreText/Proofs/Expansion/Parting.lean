import ScoreText.Proofs.Expansion.Joining
import ScoreText.Proofs.Expansion.Ungrouped

/-!
Expansion of a text in parts that may hold groups. Where the parentheses of a part are closed within it, no
stage reaches across the white space behind it, and what stands there expands as if the text began with it.
-/

set_option autoImplicit false

namespace ScoreText

open Text Stage

namespace Expansion

variable {R : Type} [Scalar R] {c : Char}

theorem restarts_instructions (t : Instructions) (hc : isBlank c = true) :
    (instructions t).Restarts c [c] := by
  refine restarts_of_blind (fun _ _ _ => rfl) (fun b y => findBraces_none ?_ b y) rfl
  rintro rfl
  exact absurd hc (by decide)

theorem restarts_closed (hc : isBlank c = true) : closed.Restarts c [c] := by
  refine restarts_of_blind (fun _ _ _ => rfl) (fun b y => findCall_none_of_ne ?_ b y) rfl
  rintro rfl
  exact absurd hc (by decide)

theorem restarts_ornaments (functions : Functions) (ctx : NoteContext R) (hc : isBlank c = true) :
    (ornaments functions ctx).Restarts c [c] := by
  refine restarts_of_blind (fun _ _ _ => rfl)
    (fun b y => findOrnament_none (findCall_none_of_ne ?_ b y)) rfl
  rintro rfl
  exact absurd hc (by decide)

section Opening

variable {α : Type} {st : Stage α} {opens : Text → Bool} {report : Text → Text → Option (Match α)}

/-- A stage that looks for something where a group opens, which may have white space in front. -/
structure Opens (st : Stage α) (opens : Text → Bool) (report : Text → Text → Option (Match α)) : Prop where
  find : ∀ behind here, st.find behind here =
    (Parentheses.opening? behind opens here).bind fun (lead, group) => report lead group
  kept : ∀ c, st.out (.kept c) = .ok [c]
  /-- Only the first character tells, and it is not white space. -/
  head : ∀ c r z, opens (c :: r ++ z) = opens (c :: r)
  blank : ∀ c r, isBlank c = true → opens (c :: r) = false
  nil : opens [] = false
  /-- What is found has a character at least, and the white space in front stays there. -/
  length : ∀ {y m}, report [] y = some m → 0 < m.length
  spaced : ∀ c y, ∃ spaced : α → α, report [c] y =
      (report [] y).map (fun m => ⟨spaced m.value, m.length + 1⟩) ∧
    ∀ a, st.out (.found (spaced a)) = ahead [c] (st.out (.found a))

/-- After some character or other such a stage does the same. -/
theorem Opens.behind (h : Opens st opens report) (c d : Char) (b e : Text) (skip : Nat) (s : Text) :
    piecesFrom st.find (c :: b) skip s = piecesFrom st.find (d :: e) skip s := by
  have hsome : (c :: b).isEmpty = (d :: e).isEmpty := rfl
  refine piecesFrom_congr (fun b d => b.isEmpty = d.isEmpty) (fun _ _ _ _ => rfl) ?_ hsome skip
  intro b d c r hbd _
  simp only [h.find, Parentheses.opening?, hbd]

/-- At white space such a stage looks at what follows it. -/
theorem Opens.find_blank (h : Opens st opens report) (hc : isBlank c = true) (behind y : Text) :
    st.find behind (c :: y) = if opens y = true then report [c] y else none := by
  rw [h.find, Parentheses.opening?, h.blank c y hc, Bool.and_false, if_neg Bool.false_ne_true]
  dsimp only
  rw [hc, Bool.true_and]
  split <;> rfl

/-- A group that opens behind white space is found with it; otherwise it is found where a text begins and not
behind anything. -/
theorem Opens.restarts_opening (h : Opens st opens report) (hc : isBlank c = true) (behind : Text) {d : Char}
    {r : Text} (hopens : opens (d :: r) = true) :
    st.onward behind (c :: d :: r) = ahead [c] (st.run (d :: r)) := by
  have hfind := h.find_blank hc behind (d :: r)
  have hfirst : st.find [] (d :: r) = report [] (d :: r) := by
    rw [h.find, Parentheses.opening?, hopens]
    rfl
  have hblank : isBlank d = false := by
    rw [Bool.eq_false_iff]
    intro hd
    rw [h.blank d r hd] at hopens
    cases hopens
  have hsecond : st.find (c :: behind) (d :: r) = none := by
    simp [h.find, Parentheses.opening?, hblank]
  obtain ⟨spaced, hreport, hout⟩ := h.spaced c (d :: r)
  rw [hopens, if_pos rfl, hreport] at hfind
  rw [run, onward, onward]
  simp only [piecesFrom, hfind, hfirst]
  cases hm : report [] (d :: r) with
  | none =>
    simp only [Option.map_none, hsecond]
    rw [produce_cons_ok (h.kept c), h.behind d d (c :: behind) []]
  | some m =>
    obtain ⟨k, hk⟩ := Nat.exists_eq_add_of_le' (h.length hm)
    simp only [Option.map_some, hk, Nat.add_sub_cancel, piecesFrom, produce, hout]
    rw [h.behind d d (c :: behind) []]
    cases st.out (.found m.value) with
    | error e => rfl
    | ok t => cases produce st.out (piecesFrom st.find [d] k r) <;> rfl

theorem Opens.restarts (h : Opens st opens report) (hc : isBlank c = true) : st.Restarts c [c] := by
  intro behind y
  have hfind := h.find_blank hc behind y
  cases y with
  | nil =>
    have hnone : st.find behind [c] = none := by rw [hfind, h.nil]; rfl
    rw [run, onward, onward]
    simp only [piecesFrom, hnone]
    exact produce_cons_ok (h.kept c) _
  | cons d r =>
    by_cases hopens : opens (d :: r) = true
    · exact h.restarts_opening hc behind hopens
    · have hnone : st.find behind (c :: d :: r) = none := by rw [hfind, if_neg hopens]
      have hsame : st.find (c :: behind) (d :: r) = st.find [] (d :: r) := by
        simp [h.find, Parentheses.opening?, hopens]
      have hrest : piecesFrom st.find (c :: behind) 0 (d :: r) = piecesFrom st.find [] 0 (d :: r) := by
        simp only [piecesFrom, hsame]
        split <;> rw [h.behind d d (c :: behind) []]
      rw [run, onward, onward, piecesFrom, hnone, ← hrest]
      exact produce_cons_ok (h.kept c) _

/-- Within a closed text a group is found as it is by itself, if it is reported so. -/
theorem Opens.contained (h : Opens st opens report) (hc : isBlank c = true) {x : Text} (y : Text)
    (hreport : ∀ lead group, group <:+ x → opens group = true →
      report lead (group ++ c :: y) = report lead group ∧
        ∀ m, report lead group = some m → m.length ≤ lead.length + group.length) :
    Contained st.find x (c :: y) := by
  intro behind d r hr
  have hnot : opens (c :: y) = false := h.blank c y hc
  have hrest : opens (r ++ c :: y) = opens r := by
    cases r with
    | nil => exact hnot.trans h.nil.symm
    | cons e r => exact h.head e r _
  rw [h.find, h.find, Parentheses.opening?, Parentheses.opening?, ← List.cons_append, h.head d r]
  dsimp only
  rw [hrest]
  by_cases hfirst : (behind.isEmpty && opens (d :: r)) = true
  · rw [if_pos hfirst, if_pos hfirst]
    obtain ⟨hsame, hreach⟩ := hreport [] (d :: r) hr (Bool.and_eq_true _ _ ▸ hfirst).2
    refine ⟨hsame, fun m hm => ?_⟩
    have := hreach m hm
    simpa using this
  · rw [if_neg hfirst, if_neg hfirst]
    by_cases hlater : (isBlank d && opens r) = true
    · obtain ⟨-, hopens⟩ := Bool.and_eq_true _ _ ▸ hlater
      obtain ⟨hsame, hreach⟩ := hreport [d] r ((List.suffix_cons d r).trans hr) hopens
      rw [if_pos hlater, if_pos hlater]
      refine ⟨hsame, fun m hm => ?_⟩
      have := hreach m hm
      rw [List.length_singleton] at this
      omega
    · rw [if_neg hlater, if_neg hlater]
      exact ⟨rfl, fun m hm => by cases hm⟩

end Opening

theorem dropWhile_append_of_mem {p : Char → Bool} {s : Text} {d : Char} (hd : d ∈ s) (hp : p d = false)
    (z : Text) : (s ++ z).takeWhile p = s.takeWhile p ∧ (s ++ z).dropWhile p = s.dropWhile p ++ z ∧
      s.dropWhile p ≠ [] := by
  induction s with
  | nil => exact nomatch hd
  | cons e s ih =>
    cases he : p e with
    | false => simp [he]
    | true =>
      have hds : d ∈ s := by
        rcases List.mem_cons.mp hd with rfl | hds
        · rw [hp] at he
          cases he
        · exact hds
      simpa [he] using ih hds

/-- A group of notes where a parenthesis opens, if it is closed before another one opens. -/
def reportCollected (lead group : Text) : Option (Match Parentheses.Collected) :=
  let inner := (group.drop 1).takeWhile fun c => c != '(' && c != ')'
  match (group.drop 1).dropWhile fun c => c != '(' && c != ')' with
  | ')' :: r =>
    let suffix := r.takeWhile fun c => !isBlank c
    some ⟨⟨lead, inner, suffix⟩, lead.length + inner.length + 2 + suffix.length⟩
  | _ => none

theorem opens_collected : Opens collected (·.head? == some '(') reportCollected where
  find behind here := rfl
  kept c := rfl
  head c r z := rfl
  blank c r hc := by
    rw [List.head?_cons, beq_eq_false_iff_ne]
    rintro ⟨⟩
    exact absurd hc (by decide)
  nil := rfl
  length := by
    intro y m hm
    unfold reportCollected at hm
    dsimp only at hm
    split at hm
    · rw [← Option.some.inj hm]
      simp only
      omega
    · cases hm
  spaced c y := by
    refine ⟨fun v => { v with lead := c :: v.lead }, ?_, fun a => rfl⟩
    unfold reportCollected
    dsimp only
    split
    · simp only [Option.map_some, List.length_cons, List.length_nil, Option.some.injEq, Match.mk.injEq,
        true_and]
      omega
    · rfl

/-- A caption where its sign stands, if it is in parentheses. -/
def reportCaption (lead group : Text) : Option (Match Parentheses.Caption) :=
  match group with
  | sign :: r => (Parentheses.enclosed? r).map fun inner =>
      ⟨⟨lead, sign, inner⟩, lead.length + inner.length + 3⟩
  | [] => none

theorem opens_captions :
    Opens captions (fun s => s.head? == some '&' || s.head? == some '!') reportCaption where
  find behind here := by
    rw [show captions.find = Parentheses.findCaption from rfl, Parentheses.findCaption]
    cases Parentheses.opening? behind (fun s => s.head? == some '&' || s.head? == some '!') here with
    | none => rfl
    | some found =>
      obtain ⟨lead, _ | ⟨sign, r⟩⟩ := found
      · rfl
      · cases hr : Parentheses.enclosed? r <;> simp [reportCaption, hr]
  kept c := rfl
  head c r z := rfl
  blank c r hc := by
    have hne : ∀ d, isBlank d = false → (some c == some d) = false := fun d hd => by
      rw [beq_eq_false_iff_ne]
      rintro ⟨⟩
      rw [hc] at hd
      cases hd
    rw [List.head?_cons, hne _ (by decide), hne _ (by decide)]
    rfl
  nil := rfl
  length := by
    intro y m hm
    cases y with
    | nil => cases hm
    | cons sign r =>
      obtain ⟨inner, -, rfl⟩ := Option.map_eq_some_iff.mp hm
      simp only
      omega
  spaced c y := by
    refine ⟨fun v => { v with lead := c :: v.lead }, ?_, fun a => rfl⟩
    cases y with
    | nil => rfl
    | cons sign r =>
      rw [reportCaption, reportCaption]
      cases Parentheses.enclosed? r with
      | none => rfl
      | some inner =>
        simp only [Option.map_some, List.length_cons, List.length_nil, Option.some.injEq, Match.mk.injEq,
          true_and]
        omega

section Contained

variable {x : Text} (h : Closed x) (hc : isBlank c = true) (y : Text)

include h hc

theorem contained_collected : Contained Parentheses.findCollected x (c :: y) := by
  refine opens_collected.contained hc y fun lead group hgroup hopens => ?_
  obtain ⟨r, rfl⟩ : ∃ r, group = '(' :: r := List.head?_eq_some_iff.mp (beq_iff_eq.mp hopens)
  obtain ⟨htake, hdrop, hne⟩ := dropWhile_append_of_mem (p := fun c => c != '(' && c != ')')
    (h.mem hgroup) (by decide) (c :: y)
  have hlength := congrArg List.length
    (List.takeWhile_append_dropWhile (p := fun c => c != '(' && c != ')') (l := r))
  simp only [reportCollected, List.cons_append, List.drop_succ_cons, List.drop_zero, htake, hdrop]
  obtain ⟨d, s, hrest⟩ := List.exists_cons_of_ne_nil hne
  rw [hrest, List.length_append, List.length_cons] at hlength
  rw [hrest, List.cons_append]
  by_cases hd : d = ')'
  · subst hd
    have hstop : (!isBlank c) = false := by rw [hc]; rfl
    have hsuffix := takeWhile_append_of_neg (p := fun c => !isBlank c) hstop s y
    have hreach := (s.takeWhile_sublist fun c => !isBlank c).length_le
    refine ⟨congrArg (fun suffix => some (⟨⟨lead, _, suffix⟩, _ + 2 + suffix.length⟩ :
      Match Parentheses.Collected)) hsuffix, fun m hm => ?_⟩
    rw [← Option.some.inj hm]
    simp only [List.length_cons]
    omega
  · simp [hd]

omit hc in
/-- What is enclosed in a closed text is so whatever follows that. -/
theorem enclosed?_append {r : Text} (hr : r <:+ x) (hne : c ≠ '(') :
    Parentheses.enclosed? (r ++ c :: y) = Parentheses.enclosed? r ∧
      ∀ inner, Parentheses.enclosed? r = some inner → inner.length + 2 ≤ r.length := by
  have hother : ∀ d s, d ≠ '(' → Parentheses.enclosed? (d :: s) = none := by
    intro d s hd
    unfold Parentheses.enclosed?
    split
    · rename_i heq
      exact absurd (List.cons.inj heq).1 hd
    · rfl
  cases r with
  | nil => exact ⟨hother c y hne, fun inner hi => by cases hi⟩
  | cons d r =>
    by_cases hd : d = '('
    · subst hd
      obtain ⟨front, back, rfl, hfront⟩ := List.eq_append_cons_of_mem (h.mem hr)
      rw [List.cons_append, List.append_assoc, List.cons_append, Parentheses.enclosed?,
        Parentheses.enclosed?, cut?_append hfront, cut?_append hfront]
      refine ⟨rfl, fun inner hi => ?_⟩
      rw [← Option.some.inj hi]
      simp only [List.length_cons, List.length_append]
      omega
    · rw [List.cons_append, hother d _ hd, hother d _ hd]
      exact ⟨rfl, fun inner hi => by cases hi⟩

theorem contained_captions : Contained Parentheses.findCaption x (c :: y) := by
  refine opens_captions.contained hc y fun lead group hgroup hopens => ?_
  have hne : c ≠ '(' := by
    rintro rfl
    exact absurd hc (by decide)
  cases group with
  | nil => cases hopens
  | cons sign r =>
    obtain ⟨hsame, hreach⟩ := enclosed?_append h y ((List.suffix_cons sign r).trans hgroup) hne
    rw [List.cons_append, reportCaption, reportCaption, hsame]
    refine ⟨rfl, fun m hm => ?_⟩
    obtain ⟨inner, hinner, rfl⟩ := Option.map_eq_some_iff.mp hm
    have := hreach inner hinner
    simp only [List.length_cons]
    omega

theorem contained_closed : Contained Parentheses.findCall x (c :: y) := by
  intro behind d r hr
  by_cases hd : d = ':'
  · subst hd
    have hstop := isNameChar_of_isBlank hc
    have hne : c ≠ '(' := by
      rintro rfl
      exact absurd hc (by decide)
    have hlength := congrArg List.length (List.takeWhile_append_dropWhile (p := isNameChar) (l := r))
    obtain ⟨hsame, hreach⟩ := enclosed?_append h y
      ((List.dropWhile_suffix isNameChar).trans ((List.suffix_cons ':' r).trans hr)) hne
    simp only [Parentheses.findCall, takeWhile_append_of_neg hstop, dropWhile_append_of_neg hstop, hsame]
    refine ⟨trivial, fun m hm => ?_⟩
    split at hm
    · cases hm
    · obtain ⟨inner, hinner, rfl⟩ := Option.map_eq_some_iff.mp hm
      have := hreach inner hinner
      rw [List.length_append] at hlength
      simp only
      omega
  · rw [findCall_none_of_ne hd, findCall_none_of_ne hd]
    exact ⟨rfl, fun m hm => by cases hm⟩

theorem contained_ornaments : Contained Ornaments.findCall x (c :: y) := by
  intro behind d r hr
  obtain ⟨hsame, hreach⟩ := contained_closed h hc y behind d r hr
  rw [Ornaments.findCall, Ornaments.findCall, hsame]
  exact ⟨rfl, fun m hm => hreach m (Option.filter_eq_some_iff.mp hm).1⟩

theorem casing_append :
    Casing.apply (x ++ c :: y) = Casing.apply x ++ (upperChar c ++ Casing.apply y) :=
  Stage.apply_append casing_run (restarts_casing hc) (contained_casing h hc y)

theorem collect_append :
    Parentheses.collect (x ++ c :: y) = Parentheses.collect x ++ c :: Parentheses.collect y :=
  Stage.apply_append collected_run (opens_collected.restarts hc) (contained_collected h hc y)

theorem closeUp_append :
    Parentheses.closeUp (x ++ c :: y) = Parentheses.closeUp x ++ c :: Parentheses.closeUp y :=
  Stage.apply_append closed_run (restarts_closed hc) (contained_closed h hc y)

theorem protect_append :
    Parentheses.protect (x ++ c :: y) = Parentheses.protect x ++ c :: Parentheses.protect y :=
  Stage.apply_append captions_run (opens_captions.restarts hc) (contained_captions h hc y)

theorem expandCalls_append (functions : Functions) (ctx : NoteContext R) :
    Ornaments.expandCalls functions ctx (x ++ c :: y) = (Ornaments.expandCalls functions ctx x).bind
      fun u => ahead u (ahead [c] (Ornaments.expandCalls functions ctx y)) := by
  have hparts := run_append (restarts_ornaments functions ctx hc) (contained_ornaments h hc y)
  rwa [← ornaments_run, ← ornaments_run, ← ornaments_run] at hparts

end Contained

theorem instructions_append (t : Instructions) {x : Text} (h : '{' ∉ x) (hc : isBlank c = true) (y : Text) :
    t.apply (x ++ c :: y) = ahead x (ahead [c] (t.apply y)) := by
  have hbraces : Contained Instructions.findBraces x (c :: y) := by
    intro behind d r hr
    obtain ⟨hd, -⟩ := not_mem_of_suffix h hr
    rw [findBraces_none hd, findBraces_none hd]
    exact ⟨rfl, fun m hm => by cases hm⟩
  have hparts := run_append (restarts_instructions t hc) hbraces
  rw [← instructions_run, ← instructions_run, ← instructions_run, instructions_unbraced t h] at hparts
  exact hparts

end Expansion

namespace Parser

open Expansion

variable {R : Type} [Scalar R]

/-- The forms that a text takes until its groups are written out and its captions tied together. -/
def forms (x : Text) : List Text :=
  let cased := Casing.apply x
  let written := Parentheses.collect cased
  [x, cased, written, Parentheses.closeUp written, Parentheses.joinUp written]

/-- A text without instructions whose parentheses are closed in it, whatever form it takes. -/
structure Detached (x : Text) : Prop where
  brace : '{' ∉ x
  closed : ∀ t ∈ forms x, Closed t

instance (x : Text) : Decidable (Detached x) :=
  decidable_of_iff ('{' ∉ x ∧ ∀ t ∈ forms x, Closed t)
    ⟨fun h => ⟨h.1, h.2⟩, fun h => ⟨h.brace, h.closed⟩⟩

theorem Ungrouped.detached {x : Text} (h : Ungrouped x) : Detached x := by
  have hcased := Casing.not_mem_apply h.parenthesis
  refine ⟨h.brace, fun t ht => Closed.of_not_mem ?_⟩
  simp only [forms, collect_ungrouped hcased, closeUp_ungrouped hcased, joinUp_ungrouped hcased,
    List.mem_cons, List.not_mem_nil, or_false, or_self] at ht
  rcases ht with rfl | rfl
  · exact h.parenthesis
  · exact hcased

/-- A detached text expands by itself, whatever follows it after a space. -/
theorem expand_detached {p : Parser R} (hp : p.Partwise) {x : Text} (h : Detached x) (y w : Text) :
    p.expand (x ++ ' ' :: y) = .ok w ↔
      ∃ u v, p.expand x = .ok u ∧ p.expand y = .ok v ∧ w = u ++ ' ' :: v := by
  have hblank : isBlank ' ' = true := rfl
  have hspace : upperChar ' ' = [' '] := rfl
  obtain ⟨hraw, hcased, hwritten, hclosed, hjoined⟩ : Closed x ∧ Closed (Casing.apply x) ∧
      Closed (Parentheses.collect (Casing.apply x)) ∧
      Closed (Parentheses.closeUp (Parentheses.collect (Casing.apply x))) ∧
      Closed (Parentheses.joinUp (Parentheses.collect (Casing.apply x))) := by
    simpa [forms] using h.closed
  rw [Parentheses.joinUp] at hjoined
  have hsubst : ∀ s, p.substitution.apply s = s := fun s => if_pos hp.substitution
  -- every stage up to the ornaments treats the text and what follows it separately
  simp only [expand, hsubst, instructions_append p.instructions h.brace hblank,
    instructions_unbraced p.instructions h.brace, bind, Except.bind, pure, Except.pure]
  cases p.instructions.apply y with
  | error e => simp [ahead, Except.map]
  | ok y =>
    simp only [ahead_ok, List.singleton_append, Parentheses.joinUp, casing_append hraw hblank, hspace,
      collect_append hcased hblank, closeUp_append hwritten hblank, protect_append hclosed hblank,
      expandCalls_append hjoined hblank]
    generalize Ornaments.expandCalls p.dialect.functions p.context.noteContext
      (Parentheses.protect (Parentheses.closeUp (Parentheses.collect (Casing.apply x)))) = front
    generalize Ornaments.expandCalls p.dialect.functions p.context.noteContext
      (Parentheses.protect (Parentheses.closeUp (Parentheses.collect (Casing.apply y)))) = back
    cases front with
    | error e => simp [Except.bind]
    | ok s =>
      cases back with
      | error e => simp [Except.bind, ahead, Except.map]
      | ok t =>
        have hlast := completed_append hp s t w
        simp only [completed, Except.bind, Except.map] at hlast
        simpa only [Except.bind, ahead_ok, List.singleton_append] using hlast

/-- Detached texts with a space between neighbours expand each by itself. -/
theorem expand_parts {p : Parser R} (hp : p.Partwise) {xs : List Text} (hne : xs ≠ [])
    (h : ∀ x ∈ xs, Detached x) (w : Text) :
    p.expand (join [' '] xs) = .ok w ↔
      ∃ us, List.Forall₂ (fun x u => p.expand x = .ok u) xs us ∧ w = join [' '] us := by
  induction xs generalizing w with
  | nil => exact absurd rfl hne
  | cons x rest ih =>
    obtain ⟨hx, hrest⟩ := List.forall_mem_cons.mp h
    cases rest with
    | nil =>
      constructor
      · exact fun hw => ⟨[w], .cons hw .nil, rfl⟩
      · rintro ⟨us, hus, rfl⟩
        cases hus with
        | cons hu hnil =>
          cases hnil
          exact hu
    | cons y rest =>
      have hsplit : ∀ a b : Text, ∀ more, join [' '] (a :: b :: more) = a ++ ' ' :: join [' '] (b :: more) :=
        fun a b more => by rw [join, List.append_assoc, List.singleton_append]
      rw [hsplit, expand_detached hp hx]
      simp only [ih (List.cons_ne_nil y rest) hrest]
      constructor
      · rintro ⟨u, v, hu, ⟨us, hus, rfl⟩, rfl⟩
        refine ⟨u :: us, .cons hu hus, ?_⟩
        cases hus
        rw [hsplit]
      · rintro ⟨us, hus, rfl⟩
        cases hus with
        | cons hu hus =>
          refine ⟨_, _, hu, ⟨_, hus, rfl⟩, ?_⟩
          cases hus
          rw [hsplit]

end Parser

end ScoreText
