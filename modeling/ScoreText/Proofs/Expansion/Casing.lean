import ScoreText.Proofs.Expansion.Calls
import ScoreText.Proofs.Text.Splitting

/-!
Upper-casing of a text in parts. It looks back to white space and no further, and what it spares ends where
a parenthesis is closed or white space begins.
-/

set_option autoImplicit false

namespace ScoreText

open Text Stage

namespace Text

theorem takeWhile_append_of_neg {p : Char → Bool} {c : Char} (hc : p c = false) (s r : Text) :
    (s ++ c :: r).takeWhile p = s.takeWhile p := by
  induction s with
  | nil => simp [hc]
  | cons d s ih =>
    rw [List.cons_append, List.takeWhile_cons, List.takeWhile_cons, ih]

theorem dropWhile_append_of_neg {p : Char → Bool} {c : Char} (hc : p c = false) (s r : Text) :
    (s ++ c :: r).dropWhile p = s.dropWhile p ++ c :: r := by
  induction s with
  | nil => simp [hc]
  | cons d s ih =>
    rw [List.cons_append, List.dropWhile_cons, List.dropWhile_cons, ih]
    split <;> rfl

theorem eq_of_ofNat {n : Nat} (h : Char.ofNat n = '(') : n = 40 := by
  by_cases hvalid : n.isValidChar
  · have hchar : Char.ofNat n = Char.ofNatAux n hvalid := dif_pos hvalid
    rw [hchar] at h
    exact congrArg Char.toNat h
  · have hchar : Char.ofNat n = Char.ofNat 0 := dif_neg hvalid
    rw [hchar] at h
    exact absurd h (by decide)

/-- No character but the parenthesis itself has one in upper case. -/
theorem eq_of_mem_upperChar {c : Char} (h : '(' ∈ upperChar c) : c = '(' := by
  unfold upperChar at h
  split at h
  · rename_i hascii
    have hall : ∀ n < 128, (Char.ofNat n).toUpper = '(' → Char.ofNat n = '(' := by decide
    exact Expansion.forall_ascii (P := fun c => c.toUpper = '(' → c = '(') hall hascii
      (List.mem_singleton.mp h).symm
  · split at h
    · rename_i ns hns
      have hall : ∀ e ∈ upperExpansions, ∀ n ∈ e.2, Char.ofNat n ≠ '(' := by
        decide +kernel
      obtain ⟨n, hn, heq⟩ := List.mem_map.mp h
      obtain ⟨before, after, hentries, -⟩ := List.lookup_eq_some_iff.mp hns
      refine absurd heq (hall (c.toNat, ns) ?_ n hn)
      rw [hentries]
      simp
    · split at h
      · rename_i n hn
        have hall : ∀ run ∈ upperRuns, (40 : Int) < run.first + run.shift := by
          decide +kernel
        obtain ⟨run, hrun, hmap⟩ := List.exists_of_findSome?_eq_some hn
        have hfar := hall run hrun
        have hbeyond : 40 < n := by
          unfold CaseRun.map? at hmap
          split at hmap
          · rename_i hin
            rw [← Option.some.inj hmap]
            omega
          · cases hmap
        have hcode := eq_of_ofNat (List.mem_singleton.mp h).symm
        omega
      · exact (List.mem_singleton.mp h).symm

/-- A text whose last parenthesis, if it has any, is a closing one. -/
def Closed (x : Text) : Prop := (x.filter fun c => c == '(' || c == ')').getLast? ≠ some '('

instance (x : Text) : Decidable (Closed x) := inferInstanceAs (Decidable (_ ≠ _))

namespace Closed

theorem of_not_mem {x : Text} (h : '(' ∉ x) : Closed x := by
  intro hlast
  have hm := List.mem_of_getLast? hlast
  exact h (List.mem_of_mem_filter hm)

theorem concat (x : Text) : Closed (x ++ [')']) := by
  intro hlast
  rw [List.filter_append, List.filter_cons_of_pos (by decide), List.filter_nil, List.getLast?_concat] at hlast
  exact absurd hlast (by decide)

/-- What opens is closed. -/
theorem mem {x r : Text} (h : Closed x) (hr : '(' :: r <:+ x) : ')' ∈ r := by
  by_contra hnot
  obtain ⟨front, rfl⟩ := hr
  refine h ?_
  have hopen : ∀ c ∈ '(' :: r.filter (fun c => c == '(' || c == ')'), c = '(' := by
    intro c hc
    rcases List.mem_cons.mp hc with rfl | hc
    · rfl
    · obtain ⟨hcr, hc⟩ := List.mem_filter.mp hc
      rcases Bool.or_eq_true_iff.mp hc with hc | hc
      · exact beq_iff_eq.mp hc
      · exact absurd (beq_iff_eq.mp hc ▸ hcr) hnot
  have hfilter : (front ++ '(' :: r).filter (fun c => c == '(' || c == ')') =
      front.filter (fun c => c == '(' || c == ')') ++ '(' :: r.filter (fun c => c == '(' || c == ')') := by
    simp
  rw [hfilter, List.getLast?_append_of_ne_nil _ (List.cons_ne_nil _ _)]
  obtain ⟨last, hlast⟩ := Option.isSome_iff_exists.mp
    (List.getLast?_isSome.mpr (List.cons_ne_nil '(' (r.filter fun c => c == '(' || c == ')')))
  rw [hlast, hopen last (List.mem_of_getLast? hlast)]

theorem append {x y : Text} (hx : Closed x) (hy : Closed y) : Closed (x ++ y) := by
  rw [Closed, List.filter_append, List.getLast?_append]
  cases hlast : (y.filter fun c => c == '(' || c == ')').getLast? with
  | none => exact hx
  | some c => exact fun h => hy (hlast.trans h)

end Closed

namespace Stage

variable {α : Type} {st : Stage α} {c : Char}

/-- After such a character a stage goes on as if the text began there. -/
def Restarts (st : Stage α) (c : Char) (text : Text) : Prop :=
  ∀ behind y, st.onward behind (c :: y) = ahead text (st.run y)

theorem run_append {x y text : Text} (h : st.Restarts c text) (hx : Contained st.find x (c :: y)) :
    st.run (x ++ c :: y) = (st.run x).bind fun u => ahead u (ahead text (st.run y)) := by
  have hrest := h (x.reverse ++ []) y
  rw [onward] at hrest
  rw [run, onward, piecesFrom_append hx [] (Nat.zero_le _), produce_append, hrest]
  rfl

theorem apply_append {f : Text → Text} {x y text : Text} (hrun : ∀ s, .ok (f s) = st.run s)
    (hrestarts : st.Restarts c text) (hx : Contained st.find x (c :: y)) :
    f (x ++ c :: y) = f x ++ (text ++ f y) := by
  have hparts := run_append hrestarts hx
  rw [← hrun, ← hrun, ← hrun] at hparts
  exact Except.ok.inj hparts

/-- A stage that does not look back restarts wherever it finds nothing. -/
theorem restarts_of_blind (hblind : ∀ b d here, st.find b here = st.find d here)
    (hnone : ∀ b y, st.find b (c :: y) = none) (hout : st.out (.kept c) = .ok [c]) :
    st.Restarts c [c] := by
  intro behind y
  have hsame : st.onward (c :: behind) y = st.run y := by
    rw [run, onward, onward, piecesFrom_congr (fun _ _ => True) (fun _ _ _ _ => trivial)
      (fun b d _ _ _ _ => hblind b d _) trivial 0]
  rw [onward_kept (hnone behind y) hout, hsame]

end Stage

end Text

namespace Casing

theorem prefix_throughParenthesis (s : Text) : throughParenthesis s <+: s := by
  have htake : (s.dropWhile (· != ')')).take 1 <+: s.dropWhile (· != ')') := List.take_prefix 1 _
  have hfront := (List.prefix_append_right_inj (s.takeWhile (· != ')'))).mpr htake
  rwa [List.takeWhile_append_dropWhile] at hfront

theorem prefix_payload (r : Text) : payload r <+: r := by
  unfold payload
  split
  · exact prefix_throughParenthesis r
  · exact List.takeWhile_prefix _

theorem length_payload_le (r : Text) : (payload r).length ≤ r.length := (prefix_payload r).length_le

/-- What is spared stands at the front, and is not empty. -/
theorem prefix_spared? {behind here span : Text} (h : spared? behind here = some span) :
    span <+: here ∧ span ≠ [] := by
  cases here with
  | nil => cases h
  | cons c r =>
    simp only [spared?] at h
    split at h
    · rw [← Option.some.inj h]
      exact ⟨List.cons_prefix_cons.mpr ⟨rfl, prefix_payload r⟩, List.cons_ne_nil _ _⟩
    · split at h
      · rename_i hrequest
        obtain ⟨s, rfl⟩ := List.head?_eq_some_iff.mp hrequest.2.2
        rw [← Option.some.inj h]
        exact ⟨List.cons_prefix_cons.mpr ⟨rfl, List.cons_prefix_cons.mpr ⟨rfl, prefix_payload s⟩⟩,
          List.cons_ne_nil _ _⟩
      · split at h
        · rename_i hopen
          rw [← Option.some.inj h, throughParenthesis,
            List.takeWhile_cons_of_pos (by rw [hopen.1]; rfl)]
          have hfront := prefix_throughParenthesis (c :: r)
          rw [throughParenthesis, List.takeWhile_cons_of_pos (by rw [hopen.1]; rfl)] at hfront
          exact ⟨hfront, List.cons_ne_nil _ _⟩
        · cases h

theorem apply_spared {w : Text} (h : spared? [] w = some w) : apply w = w := by
  have hfound : Expansion.casing.find [] (w ++ []) = some ⟨w, w.length⟩ := by
    rw [List.append_nil, show Expansion.casing.find = findSpared from rfl, findSpared, h]
    rfl
  have hrun := onward_found (prefix_spared? h).2 hfound rfl rfl
  rw [List.append_nil] at hrun
  exact Except.ok.inj ((Expansion.casing_run w).trans (hrun.trans (by
    simp [onward, piecesFrom, produce, upperPiece])))

/-- Every character that comes out was there or is one of those put for it in upper case. -/
theorem mem_apply {x : Text} {c : Char} (h : c ∈ apply x) : c ∈ x ∨ ∃ d ∈ x, c ∈ upperChar d := by
  obtain ⟨piece, hpiece, hin⟩ := List.mem_flatMap.mp h
  rcases mem_piecesFrom hpiece with ⟨d, hd, rfl⟩ | ⟨b, t, m, ht, hfound, rfl⟩
  · exact .inr ⟨d, hd, hin⟩
  · obtain ⟨span, hspan, rfl⟩ := Option.map_eq_some_iff.mp hfound
    exact .inl (ht.subset ((prefix_spared? hspan).1.subset hin))

theorem not_mem_apply {x : Text} (h : '(' ∉ x) : '(' ∉ apply x := by
  intro hm
  rcases mem_apply hm with hm | ⟨d, hd, hm⟩
  · exact h hm
  · exact h (eq_of_mem_upperChar hm ▸ hd)

end Casing

namespace Expansion

variable {c : Char}

/-- White space is no part of a name. -/
theorem isNameChar_of_isBlank (hc : isBlank c = true) : isNameChar c = false := by
  rw [Bool.eq_false_iff]
  intro hname
  have hall : ∀ n < 128, isNameChar (Char.ofNat n) = true → isBlank (Char.ofNat n) = false := by decide
  have hascii : c.toNat < 128 := by
    rcases Bool.or_eq_true_iff.mp hname with hname | hname
    · exact lt_of_isAlphanum hname
    · rw [beq_iff_eq.mp hname]
      decide
  have hnot := forall_ascii (P := fun c => isNameChar c = true → isBlank c = false) hall hascii hname
  rw [hc] at hnot
  cases hnot

theorem spared?_blank (hc : isBlank c = true) (behind y : Text) :
    Casing.findSpared behind (c :: y) = none := by
  have hne : ∀ d, isBlank d = false → c ≠ d := fun d hd he => by rw [← he, hc] at hd; cases hd
  refine findSpared_none ⟨hne _ (by decide), hne _ (by decide), hne _ (by decide)⟩ behind y fun hat => ?_
  exact absurd hat (hne _ (by decide))

/-- Casing looks back to white space, and no further. -/
theorem restarts_casing (hc : isBlank c = true) : casing.Restarts c (upperChar c) := by
  intro behind y
  have hstart : ∀ u e, Casing.atFragmentStart (u ++ c :: e) = Casing.atFragmentStart u := by
    intro u e
    cases u with
    | nil => exact hc
    | cons d u => rfl
  have hname : ∀ u e, Casing.afterCallName (u ++ c :: e) = Casing.afterCallName u := by
    intro u e
    have hstop := isNameChar_of_isBlank hc
    have hcolon : c ≠ ':' := by
      rintro rfl
      exact absurd hc (by decide)
    rw [Casing.afterCallName, takeWhile_append_of_neg hstop, dropWhile_append_of_neg hstop,
      Casing.afterCallName]
    cases u.dropWhile isNameChar with
    | nil => simp [hcolon]
    | cons d u => rfl
  have hfind : ∀ b d e r, (∃ u o, b = u ++ c :: o ∧ d = u) → e :: r <:+ y →
      Casing.findSpared b (e :: r) = Casing.findSpared d (e :: r) := by
    rintro b d e r ⟨u, o, rfl, rfl⟩ -
    simp only [Casing.findSpared, Casing.spared?, hstart, hname]
  have hpieces : piecesFrom Casing.findSpared (c :: behind) 0 y = piecesFrom Casing.findSpared [] 0 y := by
    refine piecesFrom_congr (fun b d => ∃ u o, b = u ++ c :: o ∧ d = u) ?_ hfind ⟨[], behind, rfl, rfl⟩ 0
    rintro e b d ⟨u, o, rfl, rfl⟩
    exact ⟨e :: d, o, rfl, rfl⟩
  have hsame : casing.onward (c :: behind) y = casing.run y := congrArg (produce casing.out) hpieces
  rw [onward_kept (spared?_blank hc behind y) rfl, hsame]
  rfl

section Spared

variable {x : Text} (h : Closed x) (hc : isBlank c = true) (y : Text)

include h hc

omit hc in
/-- A closed text that opens is spared as far as it is by itself. -/
theorem throughParenthesis_closed {r : Text} (hr : '(' :: r <:+ x) :
    Casing.throughParenthesis ('(' :: (r ++ c :: y)) = Casing.throughParenthesis ('(' :: r) ∧
      (Casing.throughParenthesis ('(' :: r)).length ≤ r.length + 1 := by
  obtain ⟨front, back, rfl, hfront⟩ := List.eq_append_cons_of_mem (h.mem hr)
  have hclose : ')' ∉ '(' :: front := by simpa using hfront
  have hspan : ∀ z, Casing.throughParenthesis ('(' :: (front ++ ')' :: z)) = '(' :: front ++ [')'] :=
    fun z => throughParenthesis_append hclose z
  rw [List.append_assoc, List.cons_append, hspan, hspan]
  refine ⟨rfl, ?_⟩
  simp only [List.length_append, List.length_cons, List.length_nil]
  omega

theorem payload_closed {r : Text} (hr : r <:+ x) :
    Casing.payload (r ++ c :: y) = Casing.payload r := by
  have hstop : (!isBlank c) = false := by rw [hc]; rfl
  have hbare : (r ++ c :: y).takeWhile (fun c => !isBlank c) = r.takeWhile fun c => !isBlank c :=
    takeWhile_append_of_neg (p := fun c => !isBlank c) hstop r y
  cases r with
  | nil =>
    have hne : (some c == some '(') = false := by
      rw [beq_eq_false_iff_ne]
      rintro ⟨⟩
      exact absurd hc (by decide)
    rw [Casing.payload, List.nil_append, List.head?_cons, hne, if_neg Bool.false_ne_true]
    exact hbare
  | cons d r =>
    by_cases hd : d = '('
    · subst hd
      exact (throughParenthesis_closed h y hr).1
    · have hne : (some d == some '(') = false := by simpa using hd
      rw [Casing.payload, Casing.payload, List.cons_append, List.head?_cons, List.head?_cons, hne,
        if_neg Bool.false_ne_true, if_neg Bool.false_ne_true]
      exact hbare

theorem contained_casing : Contained Casing.findSpared x (c :: y) := by
  intro behind d r hr
  have hrest : r <:+ x := (List.suffix_cons d r).trans hr
  have hbehind : r.drop 1 <:+ x := (List.drop_suffix 1 r).trans hrest
  have hhash : ((r ++ c :: y).head? = some '#') = (r.head? = some '#') := by
    cases r with
    | nil =>
      have hne : c ≠ '#' := by
        rintro rfl
        exact absurd hc (by decide)
      simp [hne]
    | cons e r => rfl
  have hrequest : r.head? = some '#' →
      Casing.payload ((r ++ c :: y).drop 1) = Casing.payload (r.drop 1) := by
    intro hhead
    obtain ⟨s, rfl⟩ := List.head?_eq_some_iff.mp hhead
    exact payload_closed h hc y hbehind
  have hparen : d = '(' → Casing.throughParenthesis (d :: (r ++ c :: y)) =
      Casing.throughParenthesis (d :: r) ∧ (Casing.throughParenthesis (d :: r)).length ≤ r.length + 1 := by
    rintro rfl
    exact throughParenthesis_closed h y hr
  simp only [Casing.findSpared, Casing.spared?, hhash, payload_closed h hc y hrest]
  split
  · refine ⟨rfl, fun m hm => ?_⟩
    rw [← Option.some.inj hm]
    exact Nat.succ_le_succ (Casing.length_payload_le r)
  · split
    · rename_i hat
      rw [hrequest hat.2.2]
      refine ⟨rfl, fun m hm => ?_⟩
      obtain ⟨s, rfl⟩ := List.head?_eq_some_iff.mp hat.2.2
      rw [← Option.some.inj hm]
      exact Nat.succ_le_succ (Nat.succ_le_succ (Casing.length_payload_le s))
    · split
      · rename_i hopen
        rw [(hparen hopen.1).1]
        refine ⟨rfl, fun m hm => ?_⟩
        rw [← Option.some.inj hm]
        exact (hparen hopen.1).2
      · exact ⟨rfl, fun m hm => by cases hm⟩

end Spared

end Expansion

namespace Casing

open Expansion

theorem apply_append {x : Text} (hx : '(' ∉ x) (y : Text) : apply (x ++ ' ' :: y) = apply x ++ ' ' :: apply y :=
  Stage.apply_append casing_run (restarts_casing rfl) (contained_casing (Closed.of_not_mem hx) rfl y)

end Casing

end ScoreText
