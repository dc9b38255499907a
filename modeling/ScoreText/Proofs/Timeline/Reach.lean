import ScoreText.Proofs.Timeline.Chords

/-!
How far a track has come. The latest time of a track bounds all its cursors and all the notes that
were placed on it, and only a request for a time can take it back.
-/

set_option autoImplicit false

namespace ScoreText

/-- The laws of order that times obey when they are numbers. Fractions have them; among doubles the
one that does not equal itself breaks them. -/
structure Scalar.Ordered (R : Type) [Scalar R] : Prop where
  refl : ∀ a : R, a ≤ a
  trans : ∀ {a b c : R}, a ≤ b → b ≤ c → a ≤ c
  left_le_max : ∀ a b : R, a ≤ Scalar.max a b
  right_le_max : ∀ a b : R, b ≤ Scalar.max a b
  max_le : ∀ {a b c : R}, a ≤ c → b ≤ c → Scalar.max a b ≤ c
  ofBeats_mono : ∀ {a b : R} (resolution : Nat), a ≤ b →
    Tick.ofBeats a resolution ≤ Tick.ofBeats b resolution

theorem Scalar.ordered_rat : Scalar.Ordered Rat where
  refl := le_refl
  trans := le_trans
  left_le_max a b := by
    rw [Scalar.max_rat]
    exact le_max_left a b
  right_le_max a b := by
    rw [Scalar.max_rat]
    exact le_max_right a b
  max_le ha hb := by
    rw [Scalar.max_rat]
    exact max_le ha hb
  ofBeats_mono resolution h := by
    rw [Tick.ofBeats_rat, Tick.ofBeats_rat]
    refine Int.toNat_le_toNat (Rat.floor_monotone ?_)
    gcongr

variable {R : Type} [Scalar R]

namespace Cursor

/-- The group of the cursor reaches at least as far as the cursor and begins before its end. -/
structure Enclosed (c : Cursor R) : Prop where
  time : c.time ≤ c.groupEnd
  anchor : c.anchor ≤ c.groupEnd

variable {c : Cursor R}

theorem enclosed_atTime (laws : Scalar.Ordered R) (time : R) : (atTime time).Enclosed :=
  ⟨laws.refl time, laws.refl time⟩

theorem Enclosed.approach (laws : Scalar.Ordered R) (h : c.Enclosed) (n : Note R) :
    (c.approach n).Enclosed ∧ c.groupEnd ≤ (c.approach n).groupEnd := by
  unfold Cursor.approach
  cases n.isFirst with
  | true =>
    have hfirst := enclosed_atTime laws (Scalar.max c.time c.groupEnd)
    cases n.isHarmonic with
    | true => exact ⟨⟨hfirst.anchor, hfirst.anchor⟩, laws.right_le_max _ _⟩
    | false => exact ⟨hfirst, laws.right_le_max _ _⟩
  | false =>
    cases n.isHarmonic with
    | true => exact ⟨⟨h.anchor, h.anchor⟩, laws.refl _⟩
    | false => exact ⟨h, laws.refl _⟩

theorem Enclosed.advance (laws : Scalar.Ordered R) (h : c.Enclosed) (length : R) :
    (c.advance length).Enclosed ∧ c.groupEnd ≤ (c.advance length).groupEnd :=
  ⟨⟨laws.right_le_max _ _, laws.trans h.anchor (laws.left_le_max _ _)⟩, laws.left_le_max _ _⟩

theorem enclosed_lasting (laws : Scalar.Ordered R) (noteLength : R) :
    Lasting (Enclosed : Cursor R → Prop) noteLength where
  atTime := enclosed_atTime laws
  placed _ n h := ((h.approach laws n).1.advance laws _).1

theorem Enclosed.latest_le (laws : Scalar.Ordered R) (h : c.Enclosed) : c.latest ≤ c.groupEnd :=
  laws.max_le h.time (laws.refl _)

/-- Where the cursor comes to when notes are placed one after another. -/
def pass (noteLength : R) (c : Cursor R) (ns : List (Note R)) : Cursor R :=
  ns.foldl (fun c n => (c.approach n).advance (Timeline.lengthOf n noteLength)) c

theorem Enclosed.pass (laws : Scalar.Ordered R) (noteLength : R) (h : c.Enclosed)
    (ns : List (Note R)) :
    (c.pass noteLength ns).Enclosed ∧ c.groupEnd ≤ (c.pass noteLength ns).groupEnd := by
  induction ns generalizing c with
  | nil => exact ⟨h, laws.refl _⟩
  | cons n rest ih =>
    obtain ⟨hopen, happroached⟩ := h.approach laws n
    obtain ⟨hplaced, hadvanced⟩ := hopen.advance laws (Timeline.lengthOf n noteLength)
    obtain ⟨hrest, hpassed⟩ := ih hplaced
    exact ⟨hrest, laws.trans happroached (laws.trans hadvanced hpassed)⟩

theorem groupEnd_le_latest (laws : Scalar.Ordered R) (c : Cursor R) : c.groupEnd ≤ c.latest :=
  laws.right_le_max _ _

end Cursor

namespace Timeline

theorem foldl_max_le_iff (laws : Scalar.Ordered R) (l : List R) (a b : R) :
    l.foldl Scalar.max a ≤ b ↔ a ≤ b ∧ ∀ x ∈ l, x ≤ b := by
  induction l generalizing a with
  | nil => simp
  | cons x rest ih =>
    rw [List.foldl_cons, ih, List.forall_mem_cons]
    constructor
    · rintro ⟨hmax, hrest⟩
      exact ⟨laws.trans (laws.left_le_max a x) hmax, laws.trans (laws.right_le_max a x) hmax, hrest⟩
    · rintro ⟨ha, hx, hrest⟩
      exact ⟨laws.max_le ha hx, hrest⟩

variable {t u : Timeline R} {n : Nat}

theorem latest_le_iff (laws : Scalar.Ordered R) (t : Timeline R) (n : Nat) (b : R) :
    t.latest n ≤ b ↔ ((0 : Nat) : R) ≤ b ∧
      ∀ layer, (t.cursorAt (Slot.ofNat n) layer).latest ≤ b := by
  rw [latest, foldl_max_le_iff laws, List.forall_mem_map]
  refine and_congr_right fun _ => ⟨fun h layer => h _ ?_, fun h c hc => ?_⟩
  · rw [Vector.mem_toList_iff]
    exact Vector.getElem_mem layer.isLt
  · rw [Vector.mem_toList_iff, Vector.mem_iff_getElem] at hc
    obtain ⟨i, hi, rfl⟩ := hc
    exact h ⟨i, hi⟩

theorem latest_cursorAt_le (laws : Scalar.Ordered R) (t : Timeline R) (n : Nat) (layer : Slot) :
    (t.cursorAt (Slot.ofNat n) layer).latest ≤ t.latest n :=
  ((latest_le_iff laws t n _).mp (laws.refl _)).2 layer

theorem latest_mono (laws : Scalar.Ordered R)
    (h : ∀ layer, (t.cursorAt (Slot.ofNat n) layer).latest ≤
      (u.cursorAt (Slot.ofNat n) layer).latest) : t.latest n ≤ u.latest n := by
  rw [latest_le_iff laws]
  exact ⟨((latest_le_iff laws u n _).mp (laws.refl _)).1,
    fun layer => laws.trans (h layer) (latest_cursorAt_le laws u n layer)⟩

/-- A cursor that moves on takes no track back. -/
theorem latest_le_withCursor (laws : Scalar.Ordered R) {c : Cursor R}
    (h : t.cursor.latest ≤ c.latest) : t.latest n ≤ (t.withCursor c).latest n := by
  refine latest_mono laws fun layer => ?_
  by_cases hn : Slot.ofNat n = t.track
  · rw [hn]
    by_cases hl : layer = t.layer
    · subst hl
      rw [cursorAt_withCursor_self]
      exact h
    · rw [cursorAt_withCursor_layer t c hl]
      exact laws.refl _
  · rw [cursorAt_withCursor t c layer hn]
    exact laws.refl _

theorem groupEnd_le_latest (laws : Scalar.Ordered R) (t : Timeline R) :
    t.cursor.groupEnd ≤ t.latest t.track.val := by
  have hcursor := latest_cursorAt_le laws t t.track.val t.layer
  rw [Slot.ofNat_val] at hcursor
  exact laws.trans (Cursor.groupEnd_le_latest laws _) hcursor

/-- No note lies beyond where the cursor's group reaches once all have been placed. -/
theorem placements_le (laws : Scalar.Ordered R) (noteLength : R) (h : t.cursor.Enclosed)
    (ns : List (Note R)) :
    ∀ p ∈ t.placements noteLength ns, p.start ≤ (t.cursor.pass noteLength ns).groupEnd ∧
      p.finish ≤ (t.cursor.pass noteLength ns).groupEnd := by
  induction ns generalizing t with
  | nil => exact fun p hp => nomatch hp
  | cons n rest ih =>
    obtain ⟨hopen, -⟩ := h.approach laws n
    obtain ⟨hplaced, hadvanced⟩ := hopen.advance laws (lengthOf n noteLength)
    have hcursor : (t.place n (lengthOf n noteLength)).1.cursor =
        (t.cursor.approach n).advance (lengthOf n noteLength) := cursor_withCursor _ _
    obtain ⟨-, hpassed⟩ := hplaced.pass laws noteLength rest
    have hrest := ih (t := (t.place n (lengthOf n noteLength)).1) (by rwa [hcursor])
    rw [hcursor] at hrest
    refine List.forall_mem_cons.mpr ⟨⟨?_, ?_⟩, hrest⟩
    · exact laws.trans hopen.time (laws.trans hadvanced hpassed)
    · exact laws.trans hplaced.time hpassed

end Timeline

end ScoreText
