import ScoreText.Proofs.Text.Cutting
import ScoreText.Proofs.Text.Scanning

/-!
Cutting a text in two. Where no match reaches across a place, what a stage makes of the whole is what
it makes of the two parts.
-/

set_option autoImplicit false

namespace ScoreText

namespace Text

section Fields

variable {sep : Char}

theorem fields_append_fields (sep : Char) (x y : Text) :
    fields sep (x ++ sep :: y) = fields sep x ++ fields sep y := by
  induction x with
  | nil => simp [fields]
  | cons c r ih =>
    rw [List.cons_append, fields, fields, ih]
    split
    · rfl
    · obtain ⟨f, fs, hf⟩ := List.exists_cons_of_ne_nil (fields_ne_nil sep r)
      rw [hf]
      rfl

theorem join_append_join (sep : Text) {fs gs : List Text} (hf : fs ≠ []) (hg : gs ≠ []) :
    join sep (fs ++ gs) = join sep fs ++ sep ++ join sep gs := by
  induction fs with
  | nil => exact absurd rfl hf
  | cons f rest ih =>
    cases rest with
    | nil =>
      obtain ⟨g, more, rfl⟩ := List.exists_cons_of_ne_nil hg
      rfl
    | cons f' rest =>
      have hrest := ih (List.cons_ne_nil f' rest)
      rw [List.cons_append] at hrest ⊢
      rw [List.cons_append, join, hrest, join]
      simp only [List.append_assoc]

end Fields

variable {α : Type} {find : Text → Text → Option (Match α)}

/-- Where nothing is found, every character is kept. -/
theorem piecesFrom_of_none {s : Text}
    (h : ∀ behind c r, c :: r <:+ s → find behind (c :: r) = none) (behind : Text) :
    piecesFrom find behind 0 s = s.map .kept := by
  induction s generalizing behind with
  | nil => rfl
  | cons c r ih =>
    have hr := ih fun behind d t ht => h behind d t (ht.trans (List.suffix_cons c r))
    simp only [piecesFrom, h behind c r (List.suffix_refl _), hr, List.map_cons]

theorem renderPieces_kept (render : α → Text) (s : Text) :
    renderPieces render (s.map .kept) = s := by
  induction s with
  | nil => rfl
  | cons c r ih => rw [List.map_cons, renderPieces, ih]

theorem renderPiecesOr_kept_append {ε : Type} (render : α → Except ε Text) (s : Text) (rest : List (Piece α)) :
    renderPiecesOr render (s.map .kept ++ rest) = (renderPiecesOr render rest).map (s ++ ·) := by
  induction s with
  | nil => cases hrest : renderPiecesOr render rest <;> exact hrest
  | cons c r ih =>
    rw [List.map_cons, List.cons_append, renderPiecesOr, ih]
    cases renderPiecesOr render rest <;> rfl

theorem renderPiecesOr_kept {ε : Type} (render : α → Except ε Text) (s : Text) :
    renderPiecesOr render (s.map .kept) = .ok s := by
  have := renderPiecesOr_kept_append render s []
  rw [List.append_nil] at this
  rw [this, renderPiecesOr]
  exact congrArg Except.ok (List.append_nil s)

/-- Matches within a text see nothing of what follows it and do not reach into it. -/
def Contained (find : Text → Text → Option (Match α)) (x z : Text) : Prop :=
  ∀ behind c r, c :: r <:+ x → find behind (c :: (r ++ z)) = find behind (c :: r) ∧
    ∀ m, find behind (c :: r) = some m → m.length ≤ r.length + 1

theorem Contained.tail {c : Char} {x z : Text} (h : Contained find (c :: x) z) :
    Contained find x z :=
  fun behind d r hr => h behind d r (hr.trans (List.suffix_cons c x))

theorem piecesFrom_append {x z : Text} (h : Contained find x z) (behind : Text) {skip : Nat}
    (hskip : skip ≤ x.length) :
    piecesFrom find behind skip (x ++ z) =
      piecesFrom find behind skip x ++ piecesFrom find (x.reverse ++ behind) 0 z := by
  induction x generalizing behind skip with
  | nil =>
    obtain rfl : skip = 0 := Nat.le_zero.mp hskip
    rfl
  | cons c r ih =>
    have hrest : ∀ skip ≤ r.length, piecesFrom find (c :: behind) skip (r ++ z) =
        piecesFrom find (c :: behind) skip r ++
          piecesFrom find ((c :: r).reverse ++ behind) 0 z := by
      intro skip hle
      rw [ih h.tail (c :: behind) hle, List.reverse_cons, List.append_assoc]
      rfl
    cases skip with
    | succ skip => exact hrest skip (Nat.le_of_succ_le_succ hskip)
    | zero =>
      obtain ⟨hsame, hreach⟩ := h behind c r (List.suffix_refl _)
      rw [List.cons_append, piecesFrom, piecesFrom, hsame]
      cases hfind : find behind (c :: r) with
      | none => exact congrArg _ (hrest 0 (Nat.zero_le _))
      | some m =>
        have hle := hreach m hfind
        exact congrArg _ (hrest (m.length - 1) (by omega))

/-- What lies behind matters only as far as the recogniser can tell. -/
theorem piecesFrom_congr (alike : Text → Text → Prop)
    (hcons : ∀ c b d, alike b d → alike (c :: b) (c :: d)) {s : Text}
    (hfind : ∀ b d c r, alike b d → c :: r <:+ s → find b (c :: r) = find d (c :: r)) {b d : Text}
    (h : alike b d) (skip : Nat) : piecesFrom find b skip s = piecesFrom find d skip s := by
  induction s generalizing b d skip with
  | nil => cases skip <;> rfl
  | cons c r ih =>
    have hrest := fun skip => ih
      (fun b d e t hbd ht => hfind b d e t hbd (ht.trans (List.suffix_cons c r))) (hcons c b d h) skip
    cases skip with
    | succ skip => exact hrest skip
    | zero =>
      rw [piecesFrom, piecesFrom, hfind b d c r h (List.suffix_refl _)]
      split <;> rw [hrest]

/-- A recogniser that does not look back finds the same whatever lies behind. -/
theorem piecesFrom_blind (hblind : ∀ b d here, find b here = find d here) (behind s : Text) :
    piecesFrom find behind 0 s = pieces find s :=
  piecesFrom_congr (fun _ _ => True) (fun _ _ _ _ => trivial) (fun b d _ _ _ _ => hblind b d _) trivial 0

theorem pieces_kept (hblind : ∀ b d here, find b here = find d here) {c : Char} {s : Text}
    (h : find [] (c :: s) = none) : pieces find (c :: s) = .kept c :: pieces find s := by
  rw [pieces, piecesFrom, h, ← piecesFrom_blind hblind [c]]

theorem pieces_found (hblind : ∀ b d here, find b here = find d here) {u s : Text} {m : Match α} (hne : u ≠ [])
    (h : find [] (u ++ s) = some m) (hlen : m.length = u.length) :
    pieces find (u ++ s) = .found m.value :: pieces find s := by
  rw [pieces, piecesFrom_found hne h hlen, piecesFrom_blind hblind]

/-- When all that is found comes out as it is written there, so does the text. -/
theorem renderPieces_self (whole : α → Text) {render : α → Text}
    (hfind : ∀ behind here m, find behind here = some m → 0 < m.length ∧ whole m.value = here.take m.length)
    {s behind : Text} {skip : Nat}
    (h : ∀ a, .found a ∈ piecesFrom find behind skip s → render a = whole a) :
    renderPieces render (piecesFrom find behind skip s) = s.drop skip := by
  induction s generalizing behind skip with
  | nil => cases skip <;> rfl
  | cons c r ih =>
    cases skip with
    | succ skip => exact ih h
    | zero =>
      rw [piecesFrom] at h ⊢
      cases hm : find behind (c :: r) with
      | none =>
        rw [hm] at h
        exact congrArg (c :: ·) (ih fun a ha => h a (List.mem_cons_of_mem _ ha))
      | some m =>
        rw [hm] at h
        obtain ⟨hpos, hwhole⟩ := hfind behind (c :: r) m hm
        obtain ⟨n, hn⟩ : ∃ n, m.length = n + 1 := ⟨m.length - 1, by omega⟩
        have hrest := ih fun a ha => h a (List.mem_cons_of_mem _ ha)
        rw [renderPieces, hrest, h m.value List.mem_cons_self, hwhole, hn]
        exact congrArg (c :: ·) (List.take_append_drop n r)

/-- The characters kept are those of the text, and what is found is found in it. -/
theorem mem_piecesFrom {s behind : Text} {skip : Nat} {piece : Piece α}
    (h : piece ∈ piecesFrom find behind skip s) :
    (∃ c ∈ s, piece = .kept c) ∨
      ∃ b t m, t <:+ s ∧ find b t = some m ∧ piece = .found m.value := by
  induction s generalizing behind skip with
  | nil => cases skip <;> cases h
  | cons c r ih =>
    have hrest : ∀ {b : Text} {skip : Nat}, piece ∈ piecesFrom find b skip r →
        (∃ d ∈ c :: r, piece = .kept d) ∨
          ∃ b t m, t <:+ c :: r ∧ find b t = some m ∧ piece = .found m.value := by
      intro b skip hm
      rcases ih hm with ⟨d, hd, hp⟩ | ⟨b, t, m, ht, hm, hp⟩
      · exact .inl ⟨d, List.mem_cons_of_mem c hd, hp⟩
      · exact .inr ⟨b, t, m, ht.trans (List.suffix_cons c r), hm, hp⟩
    cases skip with
    | succ skip => exact hrest h
    | zero =>
      rw [piecesFrom] at h
      cases hfind : find behind (c :: r) with
      | none =>
        rw [hfind] at h
        rcases List.mem_cons.mp h with rfl | h
        · exact .inl ⟨c, List.mem_cons_self, rfl⟩
        · exact hrest h
      | some m =>
        rw [hfind] at h
        rcases List.mem_cons.mp h with rfl | h
        · exact .inr ⟨behind, c :: r, m, List.suffix_refl _, hfind, rfl⟩
        · exact hrest h

namespace Stage

theorem produce_append (out : Piece α → Except Error Text) (ps qs : List (Piece α)) :
    produce out (ps ++ qs) = (produce out ps).bind fun u => ahead u (produce out qs) := by
  induction ps with
  | nil => simp [produce, Except.bind]
  | cons piece rest ih =>
    rw [List.cons_append, produce, produce, ih]
    cases out piece with
    | error e => rfl
    | ok t =>
      cases produce out rest with
      | error e => rfl
      | ok u =>
        cases produce out qs with
        | error e => rfl
        | ok v => exact congrArg Except.ok (List.append_assoc t u v).symm

end Stage

end Text

end ScoreText
