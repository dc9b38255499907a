import Mathlib.Data.List.TakeWhile
import ScoreText.Proofs.Expansion.Parting

/-!
Upper-casing and microtones word by word. What has been put in upper case stays as it is the next time, and
only a word at the very front of a fragment can be a microtone.
-/

set_option autoImplicit false

namespace ScoreText

open Text Stage Expansion

namespace Text

/-- A text without white space. -/
def IsWord (w : Text) : Prop := ∀ c ∈ w, isBlank c = false

/-- A text is a word, or begins with one that white space ends. -/
theorem word_or_split (s : Text) :
    IsWord s ∨ ∃ w c r, s = w ++ c :: r ∧ IsWord w ∧ isBlank c = true := by
  have hsplit := List.takeWhile_append_dropWhile (p := fun c => !isBlank c) (l := s)
  have hword : IsWord (s.takeWhile fun c => !isBlank c) := fun c hc => by
    simpa using List.mem_takeWhile_imp hc
  cases hrest : s.dropWhile fun c => !isBlank c with
  | nil =>
    rw [hrest, List.append_nil] at hsplit
    exact .inl (hsplit ▸ hword)
  | cons c r =>
    rw [hrest] at hsplit
    have hhead := List.head?_dropWhile_not (fun c => !isBlank c) s
    rw [hrest] at hhead
    exact .inr ⟨_, c, r, hsplit.symm, hword, by simpa using hhead⟩

theorem upperChar_of_isBlank {c : Char} (hc : isBlank c = true) (hascii : c.toNat < 128) :
    upperChar c = [c] := by
  have hall : ∀ n < 128, isBlank (Char.ofNat n) = true → (Char.ofNat n).toUpper = Char.ofNat n := by decide
  rw [upperChar_of_lt c hascii]
  exact congrArg (fun d => [d]) (forall_ascii (P := fun c => isBlank c = true → c.toUpper = c) hall hascii hc)

/-- A character that is no letter is in upper case only what is that character already. -/
theorem eq_of_mem_upperChar_ascii {c d : Char} (hc : c.isUpper = false) (hascii : d.toNat < 128)
    (h : c ∈ upperChar d) : c = d := by
  have hall : ∀ n < 128, (Char.ofNat n).toUpper.isUpper = true ∨ (Char.ofNat n).toUpper = Char.ofNat n := by
    decide
  rw [upperChar_of_lt d hascii, List.mem_singleton] at h
  rcases forall_ascii (P := fun d => d.toUpper.isUpper = true ∨ d.toUpper = d) hall hascii with hd | hd
  · rw [← h, hc] at hd
    cases hd
  · rw [h, hd]

theorem lt_of_mem_upper {s : Text} (h : ∀ c ∈ s, c.toNat < 128) : ∀ c ∈ upper s, c.toNat < 128 := by
  have hall : ∀ n < 128, (Char.ofNat n).toUpper.toNat < 128 := by decide
  rw [upper_of_ascii h]
  intro c hc
  obtain ⟨d, hd, rfl⟩ := List.mem_map.mp hc
  exact forall_ascii (P := fun d => d.toUpper.toNat < 128) hall (h d hd)

theorem upperChar_of_mem_upper {s : Text} (h : ∀ c ∈ s, c.toNat < 128) : ∀ c ∈ upper s, upperChar c = [c] := by
  have hall : ∀ n < 128, (Char.ofNat n).toUpper.toUpper = (Char.ofNat n).toUpper := by decide
  intro c hc
  rw [upperChar_of_lt c (lt_of_mem_upper h c hc)]
  rw [upper_of_ascii h] at hc
  obtain ⟨d, hd, rfl⟩ := List.mem_map.mp hc
  exact congrArg (fun d => [d]) (forall_ascii (P := fun d => d.toUpper.toUpper = d.toUpper) hall (h d hd))

end Text

namespace Casing

/-- Where every character is in upper case already it does not matter what is spared. -/
theorem apply_raised {s : Text} (h : ∀ c ∈ s, upperChar c = [c]) : apply s = s := by
  have hraised : ∀ u : Text, u ⊆ s → u.flatMap upperChar = u := by
    intro u
    induction u with
    | nil => exact fun _ => rfl
    | cons c r ih =>
      intro hu
      obtain ⟨hc, hr⟩ := List.cons_subset.mp hu
      rw [List.flatMap_cons, h c hc, ih hr]
      rfl
  refine Except.ok.inj ((casing_run s).trans ((run_of_local (fun _ => rfl) fun pre c post hs => ?_).trans
    (congrArg Except.ok (hraised s (List.Subset.refl s)))))
  refine ⟨fun m hm => ?_⟩
  obtain ⟨span, hspan, rfl⟩ := Option.map_eq_some_iff.mp hm
  obtain ⟨hfront, hne⟩ := prefix_spared? hspan
  refine ⟨List.length_pos_of_ne_nil hne, hfront.length_le, ?_⟩
  rw [← List.prefix_iff_eq_take.mp hfront, hraised span fun c hc => hs ▸ by simp [hfront.subset hc]]
  rfl

theorem payload_word {r : Text} (h : IsWord r) (hparen : '(' ∉ r) : payload r = r := by
  have hopen : (r.head? == some '(') = false := by
    rw [beq_eq_false_iff_ne]
    exact fun hm => hparen (List.mem_of_mem_head? hm)
  rw [payload, hopen, if_neg Bool.false_ne_true, List.takeWhile_eq_self_iff]
  intro c hc
  rw [h c hc]
  rfl

/-- A word whose first character says so is spared as a whole. -/
theorem spared?_word {w span : Text} (h : IsWord w) (hparen : '(' ∉ w) (hspared : spared? [] w = some span) :
    span = w ∧ w.head? ≠ some 'M' := by
  cases w with
  | nil => cases hspared
  | cons c r =>
    have hr : IsWord r := fun d hd => h d (List.mem_cons_of_mem c hd)
    have hfree : '(' ∉ r := fun hm => hparen (List.mem_cons_of_mem c hm)
    have hc : c ≠ '(' := fun he => hparen (he ▸ List.mem_cons_self)
    simp only [spared?, hc, false_and, if_false] at hspared
    split at hspared
    · rename_i hsign
      rw [payload_word hr hfree] at hspared
      refine ⟨(Option.some.inj hspared).symm, ?_⟩
      rcases hsign.1 with rfl | rfl <;> simp
    · split at hspared
      · rename_i hrequest
        obtain ⟨rfl, -, hhash⟩ := hrequest
        obtain ⟨s, rfl⟩ := List.head?_eq_some_iff.mp hhash
        have hs : payload s = s := payload_word (fun d hd => hr d (List.mem_cons_of_mem '#' hd))
          fun hm => hfree (List.mem_cons_of_mem '#' hm)
        rw [List.drop_succ_cons, List.drop_zero, hs] at hspared
        exact ⟨(Option.some.inj hspared).symm, by simp⟩
      · cases hspared

/-- A word is spared if its first character says so, or put in upper case. -/
theorem apply_word {w : Text} (h : IsWord w) (hparen : '(' ∉ w) :
    apply w = w ∧ w.head? ≠ some 'M' ∨ apply w = upper w := by
  cases hspared : spared? [] w with
  | some span =>
    left
    obtain ⟨rfl, hhead⟩ := spared?_word h hparen hspared
    exact ⟨apply_spared hspared, hhead⟩
  | none =>
    right
    refine Except.ok.inj ((casing_run w).trans (run_of_local (fun _ => rfl) fun pre c post hw => ?_))
    have hc : c ≠ '(' := fun he => hparen (by rw [hw, he]; simp)
    refine local_of_none ?_
    cases pre with
    | nil =>
      rw [List.nil_append] at hw
      change findSpared [] (c :: post) = none
      rw [findSpared, ← hw, hspared]
      rfl
    | cons d pre =>
      -- behind a character of the word no fragment starts
      have hinside : atFragmentStart (d :: pre).reverse = false := by
        obtain ⟨e, rest, he⟩ := List.exists_cons_of_ne_nil
          (List.reverse_ne_nil_iff.mpr (List.cons_ne_nil d pre))
        have hmem : e ∈ d :: pre := List.mem_reverse.mp (he ▸ List.mem_cons_self)
        rw [he]
        exact h e (by rw [hw]; exact List.mem_append_left _ hmem)
      change findSpared (d :: pre).reverse (c :: post) = none
      simp only [findSpared, spared?, hinside, hc, Bool.false_eq_true, and_false, false_and, if_false,
        Option.map_none]

/-- White space of ASCII parts what is put in upper case. -/
theorem apply_blank {x : Text} (hx : '(' ∉ x) {c : Char} (hc : isBlank c = true) (hascii : c.toNat < 128)
    (y : Text) : apply (x ++ c :: y) = apply x ++ c :: apply y := by
  rw [casing_append (Closed.of_not_mem hx) hc, upperChar_of_isBlank hc hascii]
  rfl

/-- What has been put in upper case stays as it is. -/
theorem apply_apply {s : Text} (hascii : ∀ c ∈ s, c.toNat < 128) (hparen : '(' ∉ s) :
    apply (apply s) = apply s := by
  have hwords : ∀ w : Text, IsWord w → (∀ c ∈ w, c.toNat < 128) → '(' ∉ w → apply (apply w) = apply w := by
    intro w hw hascii hparen
    rcases apply_word hw hparen with ⟨hspared, -⟩ | hupper
    · rw [hspared, hspared]
    · rw [hupper, apply_raised (upperChar_of_mem_upper hascii)]
  induction hlen : s.length using Nat.strongRecOn generalizing s with
  | ind n ih =>
    rcases word_or_split s with hs | ⟨w, c, r, rfl, hw, hc⟩
    · exact hwords s hs hascii hparen
    · obtain ⟨hwparen, hrparen⟩ : '(' ∉ w ∧ '(' ∉ r := by
        rw [List.mem_append, List.mem_cons] at hparen
        exact ⟨fun hm => hparen (.inl hm), fun hm => hparen (.inr (.inr hm))⟩
      obtain ⟨hwascii, hcr⟩ := List.forall_mem_append.mp hascii
      obtain ⟨hcascii, hrascii⟩ := List.forall_mem_cons.mp hcr
      have hshort : r.length < n := by
        rw [← hlen, List.length_append, List.length_cons]
        omega
      rw [apply_blank hwparen hc hcascii, apply_blank (not_mem_apply hwparen) hc hcascii,
        hwords w hw hwascii hwparen, ih r.length hshort hrascii hrparen rfl]

/-- Of ASCII no character comes in but letters. -/
theorem not_mem_apply_ascii {s : Text} {c : Char} (hascii : ∀ d ∈ s, d.toNat < 128) (hc : c.isUpper = false)
    (h : c ∉ s) : c ∉ apply s := by
  intro hm
  rcases mem_apply hm with hm | ⟨d, hd, hm⟩
  · exact h hm
  · exact h (eq_of_mem_upperChar_ascii hc (hascii d hd) hm ▸ hd)

theorem isWord_apply {w : Text} (hascii : ∀ c ∈ w, c.toNat < 128) (h : IsWord w) : IsWord (apply w) := by
  have hall : ∀ n < 128, isBlank (Char.ofNat n) = false → isBlank (Char.ofNat n).toUpper = false := by decide
  intro c hc
  rcases mem_apply hc with hc | ⟨d, hd, hc⟩
  · exact h c hc
  · rw [upperChar_of_lt d (hascii d hd), List.mem_singleton] at hc
    rw [hc]
    exact forall_ascii (P := fun d => isBlank d = false → isBlank d.toUpper = false) hall (hascii d hd) (h d hd)

end Casing

namespace Microtone

/-- A text that does not start like a microtone and holds no space has none. -/
theorem apply_self {x : Text} (hm : x.head? ≠ some 'M') (hspace : ' ' ∉ x) : apply x = .ok x := by
  refine (microtones_run x).trans (run_of_none (fun _ => rfl) fun pre c post hx => findMicrotone_none ?_ ?_)
  · cases pre with
    | nil => exact .inr fun hc => hm (by rw [hx, hc]; rfl)
    | cons d pre => exact .inl (by simp)
  · rintro rfl
    exact absurd (by rw [hx]; simp) hspace

/-- Nor has what follows white space that is no space. -/
theorem apply_blank {c : Char} (hc : isBlank c = true) (hne : c ≠ ' ') (x : Text) {y : Text}
    (hspace : ' ' ∉ y) : apply (x ++ c :: y) = (apply x).map (· ++ c :: y) := by
  have hrest : microtones.onward (x.reverse ++ []) (c :: y) = .ok (c :: y) := by
    have hlocal : microtones.onward (x.reverse ++ []) (c :: y ++ []) =
        ahead ((c :: y).flatMap fun c => [c]) (microtones.onward ((c :: y).reverse ++ (x.reverse ++ [])) []) := by
      refine onward_of_local (fun _ => rfl) fun pre d post hs => local_of_none (findMicrotone_none ?_ ?_)
      · cases pre with
        | nil =>
          obtain ⟨rfl, -⟩ := List.cons.inj hs
          refine .inr ?_
          rintro rfl
          exact absurd hc (by decide)
        | cons e pre => exact .inl (by simp)
      · rintro rfl
        have hm : ' ' ∈ c :: y := by rw [hs]; simp
        rcases List.mem_cons.mp hm with he | hm
        · exact absurd he.symm hne
        · exact absurd hm hspace
    simpa [onward, piecesFrom, produce] using hlocal
  have hx : Contained microtones.find x (c :: y) := contained hc x y
  rw [onward] at hrest
  rw [microtones_run, microtones_run, run, run, onward, onward, piecesFrom_append hx [] (Nat.zero_le _),
    produce_append, hrest]
  rfl

theorem takeFrequency_suffix (r : Text) : (takeFrequency r).2 <:+ r := by
  have hwhole : r.dropWhile Text.isAnyDigit <:+ r := List.dropWhile_suffix _
  unfold takeFrequency
  split
  · rename_i s hs
    rw [hs] at hwhole
    dsimp only
    split
    · exact hwhole
    · exact (List.dropWhile_suffix _).trans ((List.suffix_cons '.' s).trans hwhole)
  · exact hwhole

/-- A word is a microtone as a whole, or none. -/
theorem apply_word {w : Text} (h : IsWord w) :
    apply w = .ok w ∨ ∃ frequency suffix, w.head? = some 'M' ∧ suffix ⊆ w ∧
      apply w = render ⟨[], frequency, suffix⟩ := by
  have hspace : ' ' ∉ w := fun hm => absurd (h _ hm) (by decide)
  by_cases hm : w.head? = some 'M'
  · obtain ⟨r, rfl⟩ := List.head?_eq_some_iff.mp hm
    by_cases hnone : (takeFrequency r).1.isEmpty = true
    · left
      refine (microtones_run _).trans (run_of_none (fun _ => rfl) fun pre c post hw => ?_)
      cases pre with
      | nil =>
        obtain ⟨rfl, rfl⟩ := List.cons.inj hw
        exact (find_first [] r).trans (if_pos hnone)
      | cons d pre =>
        refine findMicrotone_none (.inl (by simp)) ?_
        rintro rfl
        exact absurd (by rw [hw]; simp) hspace
    · right
      have hsuffix := takeFrequency_suffix r
      have hwhole : ((takeFrequency r).2.takeWhile fun c => !Text.isBlank c) = (takeFrequency r).2 := by
        rw [List.takeWhile_eq_self_iff]
        intro c hc
        rw [h c (List.mem_cons_of_mem 'M' (hsuffix.subset hc))]
        rfl
      refine ⟨(takeFrequency r).1, (takeFrequency r).2, hm,
        fun c hc => List.mem_cons_of_mem 'M' (hsuffix.subset hc), ?_⟩
      have hfound : find [] ('M' :: r ++ []) =
          some ⟨⟨[], (takeFrequency r).1, (takeFrequency r).2⟩, r.length + 1⟩ := by
        rw [List.append_nil, find_first]
        change report [] r = _
        rw [report, if_neg hnone, hwhole]
        have hlength := length_takeFrequency r
        simp only [List.length_nil, Option.some.injEq, Match.mk.injEq, true_and]
        omega
      have hpieces := piecesFrom_found (List.cons_ne_nil 'M' r) hfound rfl
      rw [List.append_nil] at hpieces
      rw [apply, pieces, hpieces]
      simp only [piecesFrom, renderPiecesOr, bind, Except.bind, pure, Except.pure, List.append_nil]
      cases render ⟨[], (takeFrequency r).1, (takeFrequency r).2⟩ <;> rfl
  · exact .inl (apply_self hm hspace)

/-- What is written of a microtone: the bend, the note and the wheel's return. -/
theorem render_eq {frequency suffix v : Text} (h : render ⟨[], frequency, suffix⟩ = .ok v) :
    ∃ bend note, v = wheelCall bend ++ ' ' :: (Ornament.piece note suffix ++ ' ' :: wheelCall wheelCentre) := by
  unfold render at h
  split at h
  · cases h
  · rename_i d hd
    cases hnote : noteAndBend (Scalar.ofDecimal d) with
    | error e => simp [hnote, bind, Except.bind] at h
    | ok found =>
      obtain ⟨note, bend⟩ := found
      simp only [hnote, bind, Except.bind, pure, Except.pure, Except.ok.injEq] at h
      refine ⟨bend, note, ?_⟩
      rw [← h]
      simp [Ornament.piece]

end Microtone

end ScoreText
