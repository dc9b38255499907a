import ScoreText.Expansion.Substitution
import ScoreText.Proofs.Text.Splitting

/-!
Substitution of values that hold keys themselves. A text of tokens stays one when its tokens are replaced, for
neither can a bracket of one join what stands around it, so a pass replaces just the tokens, and what it leaves
to be replaced are those that the values brought in. When no value leads back to its own key, as many passes as
keys can follow one another resolve everything.
-/

set_option autoImplicit false

namespace ScoreText

namespace Substitution

open Text

/-- What may stand in the brackets of a token. -/
structure IsName (name : Text) : Prop where
  ne_nil : name ≠ []
  nonblank : ∀ c ∈ name, isBlank c = false
  open_not_mem : '<' ∉ name
  close_not_mem : '>' ∉ name

def token (name : Text) : Text := '<' :: (name ++ ['>'])

/-- A text of tokens, with no other brackets around them. -/
inductive Built : Text → Prop where
  | nil : Built []
  | char {c : Char} {s : Text} (hopen : c ≠ '<') (hclose : c ≠ '>') (h : Built s) : Built (c :: s)
  | named {name s : Text} (hname : IsName name) (h : Built s) : Built (token name ++ s)

/-- What a text comes to when every key in it, and in what that comes to, is replaced by its value. -/
inductive Resolves (values : Table Text) : Text → Text → Prop where
  | nil : Resolves values [] []
  | char {c : Char} {s t : Text} (hopen : c ≠ '<') (h : Resolves values s t) : Resolves values (c :: s) (c :: t)
  | kept {name s t : Text} (hname : IsName name) (hnone : values.get? name = none) (h : Resolves values s t) :
      Resolves values (token name ++ s) (token name ++ t)
  | replaced {name value s u t : Text} (hname : IsName name) (hvalue : values.get? name = some value)
      (hu : Resolves values value u) (h : Resolves values s t) : Resolves values (token name ++ s) (u ++ t)

/-- The value of one key holds another. -/
def Refers (values : Table Text) (k l : Text) : Prop := ∃ value, values.get? k = some value ∧ token l <:+: value

/-- Keys each of whose values holds the next. -/
structure IsChain (values : Table Text) (chain : List Text) : Prop where
  keys : ∀ k ∈ chain, (values.get? k).isSome = true
  refers : chain.IsChain (Refers values)

/-! ### Tokens -/

theorem token_append (name s : Text) : token name ++ s = '<' :: (name ++ '>' :: s) := by
  simp [token]

theorem token_append_inj {n m s t : Text} (hn : IsName n) (hm : IsName m) (h : token n ++ s = token m ++ t) :
    n = m ∧ s = t := by
  rw [token_append, token_append, List.cons.injEq] at h
  exact append_sep_inj hn.close_not_mem hm.close_not_mem h.2

theorem Built.append {a b : Text} (ha : Built a) (hb : Built b) : Built (a ++ b) := by
  induction ha with
  | nil => exact hb
  | char hopen hclose _ ih => exact .char hopen hclose ih
  | named hname _ ih =>
    rw [List.append_assoc]
    exact .named hname ih

/-- A token within a text of tokens parts it into such texts. -/
theorem Built.parted {x name : Text} (hx : Built x) {a b : Text} (h : x = a ++ (token name ++ b)) : Built a := by
  rw [token_append] at h
  induction hx generalizing a with
  | nil => simp at h
  | char hopen hclose _ ih =>
    cases a with
    | nil => exact absurd (List.cons.inj h).1 hopen
    | cons d a =>
      obtain ⟨rfl, hs⟩ := List.cons.inj h
      exact .char hopen hclose (ih hs)
  | @named n s hname hs ih =>
    cases a with
    | nil => exact .nil
    | cons d a =>
      rw [token_append, List.cons_append, List.cons.injEq, ← List.singleton_append, ← List.append_assoc] at h
      obtain ⟨rfl, hrest⟩ := h
      -- The bracket that opens the token is not within the one in front.
      rcases List.append_eq_append_iff.mp hrest with ⟨more, rfl, hs⟩ | ⟨more, hmore, hs⟩
      · have hbuilt := Built.named hname (ih hs)
        rw [token_append] at hbuilt
        simpa using hbuilt
      · cases more with
        | nil =>
          rw [List.append_nil] at hmore
          have hbuilt := Built.named hname .nil
          rw [List.append_nil, token] at hbuilt
          exact hmore ▸ hbuilt
        | cons e more =>
          obtain ⟨rfl, -⟩ := List.cons.inj hs
          have hmem : '<' ∈ n ++ ['>'] := hmore ▸ List.mem_append_right a List.mem_cons_self
          exact absurd hmem (by simp [hname.open_not_mem])

/-! ### One pass -/

theorem findBracketed_other {c : Char} (h : c ≠ '<') (s : Text) : findBracketed [] (c :: s) = none := by
  unfold findBracketed
  split
  · rename_i heq
    exact absurd (List.cons.inj heq).1 h
  · rfl

theorem findBracketed_token {name : Text} (h : IsName name) (s : Text) :
    findBracketed [] (token name ++ s) = some ⟨⟨token name, name⟩, (token name).length⟩ := by
  obtain ⟨c, r, rfl⟩ := List.exists_cons_of_ne_nil h.ne_nil
  have hc : isBlank c = false := h.nonblank c List.mem_cons_self
  have hr : ∀ d ∈ r, (d != '>' && !isBlank d) = true := fun d hd => by
    have hclose : d ≠ '>' := fun heq => h.close_not_mem (heq ▸ List.mem_cons_of_mem c hd)
    simp [hclose, h.nonblank d (List.mem_cons_of_mem c hd)]
  rw [token_append, List.cons_append, findBracketed, if_neg (by simp [hc])]
  simp only [List.dropWhile_append_of_pos hr, List.takeWhile_append_of_pos hr]
  simp [token]

variable {values : Table Text}

/-- The values of names, and names as tokens where they have none. -/
def pass (values : Table Text) (text : Text) : Text :=
  mapMatches findBracketed (fun c => (values.get? c.key).getD c.whole) text

theorem pass_char {c : Char} (h : c ≠ '<') (s : Text) : pass values (c :: s) = c :: pass values s := by
  rw [pass, mapMatches, pieces_kept (fun _ _ _ => rfl) (findBracketed_other h s)]
  rfl

theorem pass_token {name : Text} (h : IsName name) (s : Text) :
    pass values (token name ++ s) = (values.get? name).getD (token name) ++ pass values s := by
  rw [pass, mapMatches, pieces_found (fun _ _ _ => rfl) (u := token name) (List.cons_ne_nil _ _)
    (findBracketed_token h s) rfl]
  rfl

/-! ### Where tokens stand -/

section Infix

variable {k : Text}

theorem token_infix_char {c : Char} (h : c ≠ '<') (s : Text) : token k <:+: c :: s ↔ token k <:+: s := by
  rw [List.infix_cons_iff]
  refine or_iff_right fun hfront => ?_
  rw [token, List.cons_prefix_cons] at hfront
  exact h hfront.1.symm

theorem token_infix_plain {u : Text} (h : '<' ∉ u) (s : Text) : token k <:+: u ++ s ↔ token k <:+: s := by
  induction u with
  | nil => rfl
  | cons c r ih =>
    obtain ⟨hc, hr⟩ := not_or.mp (mt List.mem_cons.mpr h)
    rw [List.cons_append, token_infix_char (Ne.symm hc), ih hr]

theorem token_infix_token {name : Text} (hk : IsName k) (hname : IsName name) (s : Text) :
    token k <:+: token name ++ s ↔ k = name ∨ token k <:+: s := by
  have hplain : '<' ∉ name ++ ['>'] := by simp [hname.open_not_mem]
  have hshift : token name ++ s = '<' :: ((name ++ ['>']) ++ s) := rfl
  rw [hshift, List.infix_cons_iff, token_infix_plain hplain, ← hshift]
  refine or_congr_left ⟨?_, ?_⟩
  · rintro ⟨more, hmore⟩
    exact (token_append_inj hk hname hmore).1
  · rintro rfl
    exact List.prefix_append _ _

theorem token_infix_append (hk : IsName k) {a : Text} (ha : Built a) (b : Text) :
    token k <:+: a ++ b ↔ token k <:+: a ∨ token k <:+: b := by
  induction ha with
  | nil => simp [token]
  | char hopen _ _ ih => rw [List.cons_append, token_infix_char hopen, token_infix_char hopen, ih]
  | named hname _ ih =>
    rw [List.append_assoc, token_infix_token hk hname, token_infix_token hk hname, ih, or_assoc]

end Infix

/-! ### Resolving -/

namespace Resolves

theorem of_char {c : Char} (hc : c ≠ '<') {s w : Text} (h : Resolves values (c :: s) w) :
    ∃ t, w = c :: t ∧ Resolves values s t := by
  generalize hx : c :: s = x at h
  cases h with
  | nil => cases hx
  | char _ h =>
    cases hx
    exact ⟨_, rfl, h⟩
  | kept _ _ _ => exact absurd (List.cons.inj hx).1 hc
  | replaced _ _ _ _ => exact absurd (List.cons.inj hx).1 hc

theorem of_token {name : Text} (hname : IsName name) {s w : Text} (h : Resolves values (token name ++ s) w) :
    ∃ u t, w = u ++ t ∧ Resolves values s t ∧
      match values.get? name with
      | some value => Resolves values value u
      | none => u = token name := by
  generalize hx : token name ++ s = x at h
  cases h with
  | nil => cases hx
  | char hopen _ => exact absurd (List.cons.inj hx).1.symm hopen
  | kept hn hnone h =>
    obtain ⟨rfl, rfl⟩ := token_append_inj hname hn hx
    exact ⟨_, _, rfl, h, by rw [hnone]⟩
  | replaced hn hvalue hu h =>
    obtain ⟨rfl, rfl⟩ := token_append_inj hname hn hx
    exact ⟨_, _, rfl, h, by rw [hvalue]; exact hu⟩

/-- There is one text that a text resolves to. -/
theorem unique {s w v : Text} (hw : Resolves values s w) (hv : Resolves values s v) : v = w := by
  induction hw generalizing v with
  | nil =>
    cases hv
    rfl
  | char hopen _ ih =>
    obtain ⟨t, rfl, ht⟩ := hv.of_char hopen
    rw [ih ht]
  | kept hname hnone _ ih =>
    obtain ⟨u, t, rfl, ht, hu⟩ := hv.of_token hname
    rw [hnone] at hu
    rw [ih ht, hu]
  | replaced hname hvalue _ _ ihu ih =>
    obtain ⟨u, t, rfl, ht, hu⟩ := hv.of_token hname
    rw [hvalue] at hu
    rw [ih ht, ihu hu]

/-- Texts of tokens resolve part by part. -/
theorem parts {a : Text} (ha : Built a) {b w : Text} (h : Resolves values (a ++ b) w) :
    ∃ u t, w = u ++ t ∧ Resolves values a u ∧ Resolves values b t := by
  induction ha generalizing w with
  | nil => exact ⟨[], w, rfl, .nil, h⟩
  | char hopen _ _ ih =>
    obtain ⟨v, rfl, hv⟩ := h.of_char hopen
    obtain ⟨u, t, rfl, hu, ht⟩ := ih hv
    exact ⟨_, t, rfl, .char hopen hu, ht⟩
  | @named name s hname _ ih =>
    rw [List.append_assoc] at h
    obtain ⟨v, v', rfl, hv', hv⟩ := h.of_token hname
    obtain ⟨u, t, rfl, hu, ht⟩ := ih hv'
    refine ⟨v ++ u, t, by rw [List.append_assoc], ?_, ht⟩
    cases hvalue : values.get? name with
    | none =>
      rw [hvalue] at hv
      exact hv ▸ .kept hname hvalue hu
    | some value =>
      rw [hvalue] at hv
      exact .replaced hname hvalue hv hu

end Resolves

/-! ### Values that are texts of tokens -/

/-- Keys are names, and values are texts of tokens. -/
def Sound (values : Table Text) : Prop := ∀ k value, values.get? k = some value → IsName k ∧ Built value

/-- No token of a text is a key. -/
def Final (values : Table Text) (text : Text) : Prop :=
  ∀ k value, values.get? k = some value → ¬ token k <:+: text

/-- No more than `n` keys follow one another from those in a text on. -/
def Shallow (values : Table Text) (n : Nat) (text : Text) : Prop :=
  ∀ chain, IsChain values chain → (∀ k ∈ chain.head?, token k <:+: text) → chain.length ≤ n

namespace Sound

variable (hv : Sound values)

include hv

theorem built_pass {x : Text} (hx : Built x) : Built (pass values x) := by
  induction hx with
  | nil => exact .nil
  | char hopen hclose _ ih => exact pass_char hopen _ ▸ .char hopen hclose ih
  | @named name s hname _ ih =>
    rw [pass_token hname]
    refine Built.append ?_ ih
    cases hvalue : values.get? name with
    | none => exact List.append_nil (token name) ▸ .named hname .nil
    | some value => exact (hv name value hvalue).2

/-- A key that a pass leaves came with the value of another. -/
theorem exists_of_pass {k value : Text} (hk : values.get? k = some value) {x : Text} (hx : Built x)
    (h : token k <:+: pass values x) : ∃ j, token j <:+: x ∧ Refers values j k := by
  have hname : IsName k := (hv k value hk).1
  induction hx with
  | nil => exact absurd h (by simp [pass, mapMatches, pieces, piecesFrom, renderPieces, token])
  | char hopen _ _ ih =>
    rw [pass_char hopen, token_infix_char hopen] at h
    obtain ⟨j, hj, hrefers⟩ := ih h
    exact ⟨j, (token_infix_char hopen _).mpr hj, hrefers⟩
  | @named name s hn _ ih =>
    rw [pass_token hn] at h
    have hlater : token k <:+: pass values s → ∃ j, token j <:+: token name ++ s ∧ Refers values j k := fun h =>
      (ih h).imp fun j hj => hj.imp_left fun hin => hin.trans (List.suffix_append _ _).isInfix
    cases hvalue : values.get? name with
    | none =>
      rw [hvalue, Option.getD_none, token_infix_token hname hn] at h
      refine h.elim (fun heq => ?_) hlater
      rw [← heq, hk] at hvalue
      cases hvalue
    | some w =>
      rw [hvalue, Option.getD_some, token_infix_append hname (hv name w hvalue).2] at h
      exact h.elim (fun h => ⟨name, (List.prefix_append _ _).isInfix, w, hvalue, h⟩) hlater

theorem shallow_pass {n : Nat} {x : Text} (hx : Built x) (h : Shallow values (n + 1) x) :
    Shallow values n (pass values x) := by
  intro chain hchain hhead
  cases chain with
  | nil => exact Nat.zero_le n
  | cons k rest =>
    obtain ⟨value, hk⟩ := Option.isSome_iff_exists.mp (hchain.keys k List.mem_cons_self)
    obtain ⟨j, hj, w, hw, hin⟩ := hv.exists_of_pass hk hx (hhead k rfl)
    have hlonger : IsChain values (j :: k :: rest) :=
      ⟨List.forall_mem_cons.mpr ⟨by rw [hw]; rfl, hchain.keys⟩, .cons_cons ⟨w, hw, hin⟩ hchain.refers⟩
    exact Nat.le_of_succ_le_succ (h _ hlonger fun l hl => Option.some.inj hl ▸ hj)

/-- What a text comes to after a pass is what it comes to. -/
theorem resolves_of_pass {x w : Text} (hx : Built x) (h : Resolves values (pass values x) w) :
    Resolves values x w := by
  induction hx generalizing w with
  | nil => exact h
  | char hopen _ _ ih =>
    rw [pass_char hopen] at h
    obtain ⟨t, rfl, ht⟩ := h.of_char hopen
    exact .char hopen (ih ht)
  | @named name s hname _ ih =>
    rw [pass_token hname] at h
    cases hvalue : values.get? name with
    | none =>
      rw [hvalue, Option.getD_none] at h
      obtain ⟨u, t, rfl, ht, hu⟩ := h.of_token hname
      rw [hvalue] at hu
      exact hu ▸ .kept hname hvalue (ih ht)
    | some value =>
      rw [hvalue, Option.getD_some] at h
      obtain ⟨u, t, rfl, hu, ht⟩ := h.parts (hv name value hvalue).2
      exact .replaced hname hvalue hu (ih ht)

end Sound

theorem Shallow.final {x : Text} (h : Shallow values 0 x) : Final values x := by
  intro k value hk hin
  have hone : IsChain values [k] := ⟨List.forall_mem_singleton.mpr (by rw [hk]; rfl), .singleton k⟩
  exact absurd (h [k] hone fun l hl => Option.some.inj hl ▸ hin) (by simp)

theorem Final.char {c : Char} {s : Text} (h : Final values (c :: s)) : Final values s := fun k value hk hin =>
  h k value hk (hin.trans (List.suffix_cons c s).isInfix)

theorem Final.token {name s : Text} (h : Final values (token name ++ s)) :
    values.get? name = none ∧ Final values s := by
  refine ⟨Option.eq_none_iff_forall_ne_some.mpr fun value hvalue => ?_, fun k value hk hin => ?_⟩
  · exact h name value hvalue (List.prefix_append _ _).isInfix
  · exact h k value hk (hin.trans (List.suffix_append _ _).isInfix)

/-- A text without keys has come to itself, and a pass leaves it. -/
theorem Final.resolved {x : Text} (h : Final values x) (hx : Built x) :
    Resolves values x x ∧ pass values x = x := by
  induction hx with
  | nil => exact ⟨.nil, rfl⟩
  | char hopen _ _ ih =>
    obtain ⟨hself, hpass⟩ := ih h.char
    exact ⟨.char hopen hself, by rw [pass_char hopen, hpass]⟩
  | named hname _ ih =>
    obtain ⟨hnone, hrest⟩ := h.token
    obtain ⟨hself, hpass⟩ := ih hrest
    exact ⟨.kept hname hnone hself, by rw [pass_token hname, hnone, hpass, Option.getD_none]⟩

theorem passesOver_fixed {s : Substitution} {x : Text} (h : s.once x = x) (n : Nat) : s.passesOver n x = x := by
  induction n with
  | zero => rfl
  | succ n ih => rw [passesOver, h, ih]

/-- As many passes as keys follow one another resolve a text of tokens. -/
theorem Sound.exists_resolved (hv : Sound values) {d : Nat} {x : Text} (hx : Built x) (hd : Shallow values d x) :
    ∃ r, (∀ (s : Substitution) (n : Nat), s.once = pass values → d ≤ n → s.passesOver n x = r) ∧
      Built r ∧ Final values r ∧ Resolves values x r := by
  induction d generalizing x with
  | zero =>
    obtain ⟨hself, hpass⟩ := hd.final.resolved hx
    exact ⟨x, fun s n hs _ => passesOver_fixed (hs ▸ hpass) n, hx, hd.final, hself⟩
  | succ d ih =>
    obtain ⟨r, hpasses, hr, hfinal, hresolves⟩ := ih (hv.built_pass hx) (hv.shallow_pass hx hd)
    refine ⟨r, fun s n hs hn => ?_, hr, hfinal, hv.resolves_of_pass hx hresolves⟩
    obtain ⟨m, rfl⟩ : ∃ m, n = m + 1 := ⟨n - 1, by omega⟩
    rw [passesOver, hs]
    exact hpasses s m hs (by omega)

theorem get?_of_isEmpty (h : values.isEmpty = true) (k : Text) : values.get? k = none := by
  rw [Table.get?, List.isEmpty_iff.mp h]
  rfl

/-- An empty table is passed over without a look, which comes to the same. -/
theorem apply_eq_passesOver {s : Substitution} (hs : s.once = pass s.values) {x : Text} (hx : Built x) :
    s.apply x = s.passesOver s.passes x := by
  rw [apply]
  split
  · rename_i hempty
    have hfinal : Final s.values x := fun k value hk => by
      rw [get?_of_isEmpty hempty] at hk
      cases hk
    exact (passesOver_fixed (hs ▸ (hfinal.resolved hx).2) _).symm
  · rfl

/-! ### Texts without keys -/

/-- How candidates are found. -/
def finder (s : Substitution) : Text → Text → Option (Match Candidate) :=
  if s.bracketed then findBracketed else findWord

theorem findBracketed_whole {behind here : Text} {m : Match Candidate} (h : findBracketed behind here = some m) :
    0 < m.length ∧ m.value.whole = here.take m.length := by
  unfold findBracketed at h
  split at h
  · rename_i c r
    split at h
    · cases h
    · dsimp only at h
      split at h
      · rename_i after hclose
        obtain rfl := Option.some.inj h
        refine ⟨Nat.succ_pos _, ?_⟩
        obtain ⟨name, hname⟩ : ∃ name, name = r.takeWhile fun d => d != '>' && !isBlank d := ⟨_, rfl⟩
        have hr : r = name ++ '>' :: after := by rw [hname, ← hclose, List.takeWhile_append_dropWhile]
        rw [← hname, hr]
        simp [List.take_append, List.take_of_length_le]
      · cases h
  · cases h

theorem findWord_whole {behind here : Text} {m : Match Candidate} (h : findWord behind here = some m) :
    0 < m.length ∧ m.value.whole = here.take m.length := by
  simp only [findWord] at h
  split at h
  · cases h
  · rename_i hword
    obtain rfl := Option.some.inj h
    refine ⟨List.length_pos_iff.mpr fun hnil => hword (by rw [hnil]; rfl), ?_⟩
    exact List.prefix_iff_eq_take.mp (List.takeWhile_prefix _)

theorem finder_whole (s : Substitution) {behind here : Text} {m : Match Candidate}
    (h : s.finder behind here = some m) : 0 < m.length ∧ m.value.whole = here.take m.length := by
  rw [finder] at h
  split at h
  · exact findBracketed_whole h
  · exact findWord_whole h

/-- Where no candidate has a value, a text is left alone, however keys are written and looked up. -/
theorem apply_of_no_key (s : Substitution) {text : Text}
    (h : ∀ c, .found c ∈ pieces s.finder text → s.value? c.key = none) : s.apply text = text := by
  have honce : s.once text = text.drop 0 := by
    refine renderPieces_self Candidate.whole (fun _ _ _ hm => s.finder_whole hm) fun c hc => ?_
    rw [h c hc, Option.getD_none]
  rw [apply]
  split
  · rfl
  · exact passesOver_fixed honce _

/-- Let keys be names, and values and a text be texts of tokens, and let no more than `d` keys follow one
another, each held by the value of the one before. Then as soon as there are `d` passes, the text comes to one
that further passes leave as it is: the one that it resolves to, in which there is no key, and in which every
token that is none stands between what the texts on its two sides come to. And whatever the table, a text none
of whose candidates has a value stays as it is. -/
theorem nested_keys_resolve (values : Table Text) (d : Nat) (text : Text) (hkeys : Sound values)
    (hchain : ∀ chain, IsChain values chain → chain.length ≤ d) (htext : Built text) :
    (∃ result,
      (∀ n, d ≤ n → ({ values := values, passes := n } : Substitution).apply text = result) ∧
      (∀ n, ({ values := values, passes := n } : Substitution).apply result = result) ∧
      (∀ w, Resolves values text w ↔ w = result) ∧
      (∀ k value, values.get? k = some value → ¬ token k <:+: result) ∧
      ∀ a name b, IsName name → values.get? name = none → text = a ++ token name ++ b →
        ∃ u v, Resolves values a u ∧ Resolves values b v ∧ result = u ++ token name ++ v) ∧
    ∀ (s : Substitution) (other : Text), (∀ c, .found c ∈ pieces s.finder other → s.value? c.key = none) →
      ∀ n, ({ s with passes := n } : Substitution).apply other = other := by
  refine ⟨?_, fun s other hnone n => apply_of_no_key { s with passes := n } hnone⟩
  have hshallow : Shallow values d text := fun chain hc _ => hchain chain hc
  obtain ⟨result, hpasses, hbuilt, hfinal, hresolves⟩ :=
    hkeys.exists_resolved htext hshallow
  have honce : ∀ n, ({ values := values, passes := n } : Substitution).once result = result := fun n =>
    (hfinal.resolved hbuilt).2
  refine ⟨result, fun n hn => ?_, fun n => ?_, fun w => ⟨fun hw => hresolves.unique hw, fun hw => hw ▸ hresolves⟩,
    hfinal, fun a name b hname hnone hsplit => ?_⟩
  · rw [apply_eq_passesOver rfl htext]
    exact hpasses _ n rfl hn
  · rw [apply_eq_passesOver rfl hbuilt]
    exact passesOver_fixed (honce n) n
  · rw [List.append_assoc] at hsplit
    rw [hsplit] at hresolves
    obtain ⟨u, w, rfl, hu, hw⟩ := hresolves.parts (htext.parted hsplit)
    obtain ⟨kept, v, rfl, hv, hkept⟩ := hw.of_token hname
    rw [hnone] at hkept
    exact ⟨u, v, hu, hv, by rw [hkept, List.append_assoc]⟩

/-- Where every value leads to keys of lower rank only, no more keys follow one another than there are ranks. -/
theorem IsChain.length_le_of_rank (rank : Text → Nat)
    (hrank : ∀ k l, Refers values k l → (values.get? l).isSome = true → rank l < rank k) {d : Nat}
    (hd : ∀ k, (values.get? k).isSome = true → rank k < d) {chain : List Text} (h : IsChain values chain) :
    chain.length ≤ d := by
  have hhead : ∀ k rest, IsChain values (k :: rest) → rest.length ≤ rank k := by
    intro k rest
    induction rest generalizing k with
    | nil => exact fun _ => Nat.zero_le _
    | cons l rest ih =>
      rintro ⟨hkeys, hrefers⟩
      obtain ⟨hfirst, hrest⟩ := List.isChain_cons_cons.mp hrefers
      have hkey := hkeys l (List.mem_cons_of_mem k List.mem_cons_self)
      have hlater := ih l ⟨fun m hm => hkeys m (List.mem_cons_of_mem k hm), hrest⟩
      exact Nat.lt_of_le_of_lt hlater (hrank k l hfirst hkey)
  cases chain with
  | nil => exact Nat.zero_le d
  | cons k rest => exact Nat.lt_of_le_of_lt (hhead k rest h) (hd k (h.keys k List.mem_cons_self))

theorem built_token {name : Text} (h : IsName name) : Built (token name) :=
  List.append_nil (token name) ▸ .named h .nil

/-- Two notes that a key writes, with a name that is none. -/
def verse : Table Text :=
  .ofList [(['1'], token ['s'] ++ ' ' :: token ['s']), (['s'], 'C' :: token ['t'])]

theorem get?_verse {k value : Text} (h : verse.get? k = some value) :
    k = ['1'] ∧ value = token ['s'] ++ ' ' :: token ['s'] ∨ k = ['s'] ∧ value = 'C' :: token ['t'] := by
  rw [verse, Table.ofList, List.foldl_cons, List.foldl_cons, List.foldl_nil, Table.get?_insert, Table.get?_insert,
    Table.get?_empty] at h
  split at h
  · exact .inr ⟨‹_›, (Option.some.inj h).symm⟩
  · split at h
    · exact .inl ⟨‹_›, (Option.some.inj h).symm⟩
    · cases h

/-- Two passes resolve `<1>/<x>`, and no pass changes words that are no keys. -/
theorem verse_resolves :
    Sound verse ∧ (∀ chain, IsChain verse chain → chain.length ≤ 2) ∧ Built (token ['1'] ++ '/' :: token ['x']) ∧
      ({ values := verse } : Substitution).apply (token ['1'] ++ '/' :: token ['x']) = "<s> <s>/<x>".toList ∧
      (∀ n, 2 ≤ n → ({ values := verse, passes := n } : Substitution).apply (token ['1'] ++ '/' :: token ['x']) =
        "C<t> C<t>/<x>".toList) ∧
      Resolves verse (token ['1'] ++ '/' :: token ['x']) "C<t> C<t>/<x>".toList ∧
      ({ values := verse, bracketed := false, passes := 3 } : Substitution).apply ['t', ' ', 'S'] =
        ['t', ' ', 'S'] := by
  have hname : ∀ c, isBlank c = false ∧ '<' ≠ c ∧ '>' ≠ c → IsName [c] := fun c ⟨hblank, hopen, hclose⟩ =>
    ⟨List.cons_ne_nil c [], by simpa using hblank, by simpa using hopen, by simpa using hclose⟩
  have hs := hname 's' (by decide)
  have hsound : Sound verse := by
    intro k value h
    rcases get?_verse h with ⟨rfl, rfl⟩ | ⟨rfl, rfl⟩
    · exact ⟨hname '1' (by decide), .named hs (.char (by decide) (by decide) (built_token hs))⟩
    · exact ⟨hs, .char (by decide) (by decide) (built_token (hname 't' (by decide)))⟩
  have hchain : ∀ chain, IsChain verse chain → chain.length ≤ 2 := by
    refine fun chain => IsChain.length_le_of_rank (fun k => if k = ['1'] then 1 else 0) ?_ ?_
    · rintro k l ⟨value, hk, hin⟩ hl
      obtain ⟨w, hw⟩ := Option.isSome_iff_exists.mp hl
      rcases get?_verse hk with ⟨rfl, rfl⟩ | ⟨rfl, rfl⟩ <;> rcases get?_verse hw with ⟨rfl, rfl⟩ | ⟨rfl, rfl⟩
      · exact absurd hin (by decide)
      · decide
      · exact absurd hin (by decide)
      · exact absurd hin (by decide)
    · intro k hk
      split <;> omega
  have htext : Built (token ['1'] ++ '/' :: token ['x']) :=
    .named (hname '1' (by decide)) (.char (by decide) (by decide) (built_token (hname 'x' (by decide))))
  obtain ⟨⟨result, hpasses, -, hresolves, -⟩, hnone⟩ := nested_keys_resolve verse 2 _ hsound hchain htext
  have hresult : result = "C<t> C<t>/<x>".toList := (hpasses 2 (Nat.le_refl 2)).symm.trans (by decide +kernel)
  have hwords : pieces findWord ['t', ' ', 'S'] = [.found ⟨['t'], ['t']⟩, .kept ' ', .found ⟨['S'], ['S']⟩] := rfl
  refine ⟨hsound, hchain, htext, by decide +kernel, fun n hn => (hpasses n hn).trans hresult,
    (hresolves _).mpr hresult.symm, hnone { values := verse, bracketed := false } _ (fun c hc => ?_) 3⟩
  have hc : (.found c : Piece Candidate) ∈ pieces findWord ['t', ' ', 'S'] := hc
  rw [hwords] at hc
  simp only [List.mem_cons, Piece.found.injEq, reduceCtorEq, false_or, List.not_mem_nil, or_false] at hc
  rcases hc with rfl | rfl <;> decide +kernel

end Substitution

end ScoreText
