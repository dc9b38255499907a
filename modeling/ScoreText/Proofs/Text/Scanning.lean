import Mathlib.Data.List.Forall2
import ScoreText.Error
import ScoreText.Text.Classes
import ScoreText.Text.Scan

/-!
What an expansion stage makes of a text of fragments. A fragment is turned on its own when no match
reaches beyond it, whatever stands around it; then the whole is turned fragment by fragment.
-/

set_option autoImplicit false

namespace ScoreText

namespace Text

variable {α : Type}

theorem piecesFrom_skip (find : Text → Text → Option (Match α)) (behind u s : Text) :
    piecesFrom find behind u.length (u ++ s) = piecesFrom find (u.reverse ++ behind) 0 s := by
  induction u generalizing behind with
  | nil => rfl
  | cons c r ih => simpa [piecesFrom] using ih (c :: behind)

theorem piecesFrom_found {find : Text → Text → Option (Match α)} {behind u s : Text} {m : Match α}
    (hne : u ≠ []) (h : find behind (u ++ s) = some m) (hlen : m.length = u.length) :
    piecesFrom find behind 0 (u ++ s) =
      .found m.value :: piecesFrom find (u.reverse ++ behind) 0 s := by
  cases u with
  | nil => exact absurd rfl hne
  | cons c r =>
    have hlen' : m.length - 1 = r.length := by
      rw [hlen]
      rfl
    rw [List.cons_append] at h ⊢
    simp only [piecesFrom, h, hlen', piecesFrom_skip, List.reverse_cons, List.append_assoc,
      List.singleton_append]

/-- A stage of expansion: what it finds, and what it makes of each piece. -/
structure Stage (α : Type) where
  find : Text → Text → Option (Match α)
  out : Piece α → Except Error Text

namespace Stage

def produce (out : Piece α → Except Error Text) : List (Piece α) → Except Error Text
  | [] => .ok []
  | piece :: rest => do return (← out piece) ++ (← produce out rest)

/-- What becomes of a text with another one behind it. -/
def onward (st : Stage α) (behind s : Text) : Except Error Text :=
  produce st.out (piecesFrom st.find behind 0 s)

def run (st : Stage α) (s : Text) : Except Error Text := st.onward [] s

/-- Puts a text in front of what comes out. -/
def ahead (front : Text) (result : Except Error Text) : Except Error Text :=
  result.map fun rest => front ++ rest

@[simp] theorem ahead_ahead (a b : Text) (result : Except Error Text) :
    ahead a (ahead b result) = ahead (a ++ b) result := by
  cases result <;> simp [ahead, Except.map]

@[simp] theorem ahead_nil (result : Except Error Text) : ahead [] result = result := by
  cases result <;> simp [ahead, Except.map]

@[simp] theorem ahead_ok (a b : Text) : ahead a (.ok b) = .ok (a ++ b) := rfl

theorem produce_cons_ok {out : Piece α → Except Error Text} {piece : Piece α} {text : Text}
    (h : out piece = .ok text) (rest : List (Piece α)) :
    produce out (piece :: rest) = ahead text (produce out rest) := by
  simp only [produce, h]
  cases produce out rest <;> rfl

theorem onward_kept {st : Stage α} {behind : Text} {c : Char} {s text : Text}
    (h : st.find behind (c :: s) = none) (hout : st.out (.kept c) = .ok text) :
    st.onward behind (c :: s) = ahead text (st.onward (c :: behind) s) := by
  simp only [Stage.onward, piecesFrom, h]
  exact produce_cons_ok hout _

theorem onward_found {st : Stage α} {behind u s : Text} {m : Match α} {text : Text} (hne : u ≠ [])
    (h : st.find behind (u ++ s) = some m) (hlen : m.length = u.length)
    (hout : st.out (.found m.value) = .ok text) :
    st.onward behind (u ++ s) = ahead text (st.onward (u.reverse ++ behind) s) := by
  simp only [Stage.onward, piecesFrom_found hne h hlen]
  exact produce_cons_ok hout _

/-- Pieces that were not found stay, the others become a text or fail to. -/
def pieceOr (render : α → Except Error Text) : Piece α → Except Error Text
  | .kept c => .ok [c]
  | .found a => render a

theorem renderPiecesOr_eq (render : α → Except Error Text) (ps : List (Piece α)) :
    renderPiecesOr render ps = produce (pieceOr render) ps := by
  induction ps with
  | nil => rfl
  | cons piece rest ih =>
    cases piece <;> simp only [renderPiecesOr, produce, pieceOr, ih]
    rfl

theorem renderPieces_eq (render : α → Text) (ps : List (Piece α)) :
    .ok (renderPieces render ps) = produce (pieceOr fun a => .ok (render a)) ps := by
  induction ps with
  | nil => rfl
  | cons piece rest ih =>
    cases piece <;> simp only [renderPieces, produce, pieceOr, ← ih] <;> rfl

theorem flatMap_eq (out : Piece α → Text) (ps : List (Piece α)) :
    .ok (ps.flatMap out) = produce (fun piece => .ok (out piece)) ps := by
  induction ps with
  | nil => rfl
  | cons piece rest ih =>
    simp only [List.flatMap_cons, produce, ← ih]
    rfl

/-- Where a fragment may stand: at the start or after a space. -/
def Fits (behind : Text) : Prop := behind = [] ∨ behind.head? = some ' '

/-- What may stand after a fragment: nothing or a space. -/
def Bound (after : Text) : Prop := after = [] ∨ after.head? = some ' '

/-- Everywhere a fragment may stand, the stage makes the same of it. -/
structure Turns (st : Stage α) (f g : Text) : Prop where
  ne_nil : f ≠ []
  first : ∀ after, Bound after → st.onward [] (f ++ after) = ahead g (st.onward f.reverse after)
  later : ∀ behind after, behind ≠ [] → Bound after →
    st.onward behind (' ' :: (f ++ after)) =
      ahead (' ' :: g) (st.onward (f.reverse ++ ' ' :: behind) after)

theorem Turns.run_join {st : Stage α} {fs gs : List Text} (h : List.Forall₂ st.Turns fs gs) :
    st.run (join [' '] fs) = .ok (join [' '] gs) := by
  have tail : ∀ (fs gs : List Text) (f g behind : Text), List.Forall₂ st.Turns (f :: fs) (g :: gs) →
      behind ≠ [] → st.onward behind (' ' :: join [' '] (f :: fs)) =
        .ok (' ' :: join [' '] (g :: gs)) := by
    intro fs
    induction fs with
    | nil =>
      intro gs f g behind h hb
      cases h with
      | cons hf hrest =>
        cases hrest
        have := hf.later behind [] hb (.inl rfl)
        simpa [join, Stage.onward, piecesFrom, produce] using this
    | cons f' fs ih =>
      intro gs f g behind h hb
      cases h with
      | cons hf hrest =>
        cases hrest with
        | cons hf' hrest =>
          rename_i g' gs
          have hnext := ih gs f' g' (f.reverse ++ ' ' :: behind) (.cons hf' hrest) (by simp)
          have := hf.later behind (' ' :: join [' '] (f' :: fs)) hb (.inr rfl)
          rw [hnext] at this
          simpa [join, List.append_assoc] using this
  cases h with
  | nil => rfl
  | cons hf hrest =>
    cases hrest with
    | nil =>
      have := hf.first [] (.inl rfl)
      simpa [run, join, Stage.onward, piecesFrom, produce] using this
    | cons hf' hrest =>
      rename_i f g f' g' fs gs
      have hnext := tail fs gs f' g' f.reverse (.cons hf' hrest) (by simpa using hf.ne_nil)
      have := hf.first (' ' :: join [' '] (f' :: fs)) (.inr rfl)
      rw [hnext] at this
      simpa [run, join, List.append_assoc] using this

/-- What stands at a place within a fragment is not found, or comes out character by character as
what is not found does. -/
structure Local (st : Stage α) (h : Char → Text) (behind here : Text) (within : Nat) : Prop where
  found : ∀ m, st.find behind here = some m → 0 < m.length ∧ m.length ≤ within ∧
    st.out (.found m.value) = .ok ((here.take m.length).flatMap h)

theorem local_of_none {st : Stage α} {h : Char → Text} {behind here : Text} {within : Nat}
    (hn : st.find behind here = none) : Local st h behind here within :=
  ⟨fun m hm => by rw [hn] at hm; cases hm⟩

theorem onward_of_local {st : Stage α} {h : Char → Text} (hout : ∀ c, st.out (.kept c) = .ok (h c))
    {behind f after : Text}
    (hl : ∀ pre c post, f = pre ++ c :: post →
      Local st h (pre.reverse ++ behind) (c :: (post ++ after)) (post.length + 1)) :
    st.onward behind (f ++ after) = ahead (f.flatMap h) (st.onward (f.reverse ++ behind) after) := by
  have go : ∀ (n : Nat) (pre rest : Text), rest.length = n → f = pre ++ rest →
      st.onward (pre.reverse ++ behind) (rest ++ after) =
        ahead (rest.flatMap h) (st.onward (f.reverse ++ behind) after) := by
    intro n
    induction n using Nat.strongRecOn with
    | ind n ih =>
      intro pre rest hn hf
      cases rest with
      | nil =>
        rw [List.append_nil] at hf
        rw [hf]
        simp
      | cons c post =>
        cases hfind : st.find (pre.reverse ++ behind) (c :: (post ++ after)) with
        | none =>
          have hnext := ih post.length (by simp at hn; omega) (pre ++ [c]) post rfl (by simp [hf])
          rw [List.cons_append, onward_kept hfind (hout c)]
          simpa [List.flatMap_cons] using congrArg (ahead (h c)) hnext
        | some m =>
          obtain ⟨hpos, hle, htext⟩ := (hl pre c post hf).found m hfind
          -- The match is a front part of what is left of the fragment.
          obtain ⟨u, v, huv, hu⟩ : ∃ u v, c :: post = u ++ v ∧ u.length = m.length :=
            ⟨(c :: post).take m.length, (c :: post).drop m.length,
              (List.take_append_drop _ _).symm, List.length_take_of_le (by simpa using hle)⟩
          have hne : u ≠ [] := fun h => by
            rw [h] at hu
            simp at hu
            omega
          have hlen : (u ++ v).length = n := by rw [← huv, hn]
          have hsplit : c :: (post ++ after) = u ++ (v ++ after) := by
            rw [← List.cons_append, huv, List.append_assoc]
          rw [hsplit] at hfind htext
          rw [← hu, List.take_left] at htext
          have hnext := ih v.length (by simp at hlen; omega) (pre ++ u) v rfl (by rw [hf, huv]; simp)
          rw [List.cons_append, hsplit, onward_found hne hfind hu.symm htext, huv,
            List.flatMap_append]
          simpa [List.append_assoc] using congrArg (ahead (u.flatMap h)) hnext
  exact go f.length [] f rfl rfl

/-- A text by itself comes out character by character where all that is found in it does. -/
theorem run_of_local {st : Stage α} {h : Char → Text} (hout : ∀ c, st.out (.kept c) = .ok (h c)) {f : Text}
    (hl : ∀ pre c post, f = pre ++ c :: post → Local st h pre.reverse (c :: post) (post.length + 1)) :
    st.run f = .ok (f.flatMap h) := by
  have hlocal : st.onward [] (f ++ []) = ahead (f.flatMap h) (st.onward (f.reverse ++ []) []) :=
    onward_of_local hout fun pre c post hf => by simpa using hl pre c post hf
  simpa [run, onward, piecesFrom, produce] using hlocal

/-- Where nothing is found, a text stays. -/
theorem run_of_none {st : Stage α} (hout : ∀ c, st.out (.kept c) = .ok [c]) {s : Text}
    (h : ∀ pre c post, s = pre ++ c :: post → st.find pre.reverse (c :: post) = none) :
    st.run s = .ok s := by
  have hkept := run_of_local hout fun pre c post hs => local_of_none (h pre c post hs)
  rwa [List.flatMap_singleton'] at hkept

theorem turns_of_local {st : Stage α} {h : Char → Text} (hout : ∀ c, st.out (.kept c) = .ok (h c))
    (hspace : h ' ' = [' ']) {f : Text} (hne : f ≠ [])
    (hsep : ∀ behind after, behind ≠ [] → Bound after → st.find behind (' ' :: (f ++ after)) = none)
    (hl : ∀ behind after, Fits behind → Bound after → ∀ pre c post, f = pre ++ c :: post →
      Local st h (pre.reverse ++ behind) (c :: (post ++ after)) (post.length + 1)) :
    Turns st f (f.flatMap h) := by
  refine ⟨hne, fun after ha => ?_, fun behind after hb ha => ?_⟩
  · simpa using onward_of_local hout (hl [] after (.inl rfl) ha)
  · rw [onward_kept (hsep behind after hb ha) (hout ' '),
      onward_of_local hout (hl (' ' :: behind) after (.inr rfl) ha), hspace, ahead_ahead]
    rfl

/-- A fragment in which nothing is found, or only what comes out as it is. -/
theorem turns_self {st : Stage α} (hout : ∀ c, st.out (.kept c) = .ok [c]) {f : Text} (hne : f ≠ [])
    (hsep : ∀ behind after, behind ≠ [] → Bound after → st.find behind (' ' :: (f ++ after)) = none)
    (hl : ∀ behind after, Fits behind → Bound after → ∀ pre c post, f = pre ++ c :: post →
      Local st (fun c => [c]) (pre.reverse ++ behind) (c :: (post ++ after)) (post.length + 1)) :
    Turns st f f := by
  have := turns_of_local hout rfl hne hsep hl
  rwa [List.flatMap_singleton'] at this

/-- A fragment in which nothing is found. -/
theorem turns_of_none {st : Stage α} (hout : ∀ c, st.out (.kept c) = .ok [c]) {f : Text}
    (hne : f ≠ [])
    (hsep : ∀ behind after, behind ≠ [] → Bound after → st.find behind (' ' :: (f ++ after)) = none)
    (hnone : ∀ behind after, Fits behind → Bound after → ∀ pre c post, f = pre ++ c :: post →
      st.find (pre.reverse ++ behind) (c :: (post ++ after)) = none) : Turns st f f :=
  turns_self hout hne hsep fun behind after hb ha pre c post hf =>
    local_of_none (hnone behind after hb ha pre c post hf)

/-- A fragment that is found as a whole. -/
theorem turns_of_whole {st : Stage α} (hkept : st.out (.kept ' ') = .ok [' ']) {f g : Text}
    (hne : f ≠ [])
    (hsep : ∀ behind after, behind ≠ [] → Bound after → st.find behind (' ' :: (f ++ after)) = none)
    (hfound : ∀ behind after, Fits behind → Bound after →
      ∃ m, st.find behind (f ++ after) = some m ∧ m.length = f.length ∧
        st.out (.found m.value) = .ok g) : Turns st f g := by
  refine ⟨hne, fun after ha => ?_, fun behind after hb ha => ?_⟩
  · obtain ⟨m, hm, hlen, hout⟩ := hfound [] after (.inl rfl) ha
    simpa using onward_found hne hm hlen hout
  · obtain ⟨m, hm, hlen, hout⟩ := hfound (' ' :: behind) after (.inr rfl) ha
    rw [onward_kept (hsep behind after hb ha) hkept, onward_found hne hm hlen hout, ahead_ahead]
    rfl

end Stage

end Text

end ScoreText
