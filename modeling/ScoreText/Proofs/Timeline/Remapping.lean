import ScoreText.Proofs.Timeline.Cursor

/-!
Time told in another way. When every time is changed by a monotone function, and lengths are changed
to match, whatever happens on a timeline happens at the changed times.
-/

set_option autoImplicit false

namespace ScoreText

def Table.mapValues {V W : Type} (f : V → W) (t : Table V) : Table W :=
  ⟨t.entries.map fun e => (e.1, f e.2)⟩

namespace Table

variable {V W : Type} (f : V → W)

theorem get?_mapValues (t : Table V) (name : Text) :
    (t.mapValues f).get? name = (t.get? name).map f := by
  obtain ⟨entries⟩ := t
  simp only [get?, mapValues]
  induction entries with
  | nil => rfl
  | cons e rest ih =>
    rw [List.map_cons, lookup_cons_if, lookup_cons_if, ih]
    split <;> rfl

theorem insert_mapValues (t : Table V) (name : Text) (value : V) :
    (t.mapValues f).insert name (f value) = (t.insert name value).mapValues f := by
  simp only [insert, erase, mapValues, List.map_cons, List.filter_map]
  rfl

end Table

variable {f : Rat → Rat}

/-- A length that stands for another one after a change of times. -/
def Matches (f : Rat → Rat) (length changed : Rat) : Prop := ∀ time, f time + changed = f (time + length)

theorem Scalar.max_remap (hf : Monotone f) (a b : Rat) :
    Scalar.max (f a) (f b) = f (Scalar.max a b) := by
  rw [Scalar.max_rat, Scalar.max_rat, hf.map_max]

def Placement.remap (f : Rat → Rat) (p : Placement Rat) : Placement Rat :=
  ⟨p.on.map f, p.off.map f, f p.start, f p.finish⟩

namespace Cursor

def remap (f : Rat → Rat) (c : Cursor Rat) : Cursor Rat := ⟨f c.time, f c.anchor, f c.groupEnd⟩

theorem remap_approach (hf : Monotone f) (c : Cursor Rat) (n : Note Rat) :
    (c.remap f).approach n = (c.approach n).remap f := by
  unfold approach
  cases n.isFirst with
  | true =>
    have hmax : Scalar.max (c.remap f).time (c.remap f).groupEnd = f (Scalar.max c.time c.groupEnd) :=
      Scalar.max_remap hf c.time c.groupEnd
    cases n.isHarmonic <;> simp only [hmax] <;> rfl
  | false => cases n.isHarmonic <;> rfl

theorem remap_advance (hf : Monotone f) {length changed : Rat} (h : Matches f length changed)
    (c : Cursor Rat) : (c.remap f).advance changed = (c.advance length).remap f := by
  have htime : (c.remap f).time + changed = f (c.time + length) := h c.time
  simp only [advance, htime]
  simp only [remap, Scalar.max_remap hf]

end Cursor

namespace Timeline

/-- The timeline with every time changed, those of the bookmarks included. -/
def remap (f : Rat → Rat) (t : Timeline Rat) : Timeline Rat :=
  { t with
    cursors := t.cursors.map fun layers => layers.map (Cursor.remap f)
    bookmarks := t.bookmarks.mapValues f }

theorem cursorAt_remap (t : Timeline Rat) (track layer : Slot) :
    (t.remap f).cursorAt track layer = (t.cursorAt track layer).remap f := by
  simp [remap, cursorAt]

theorem cursor_remap (t : Timeline Rat) : (t.remap f).cursor = t.cursor.remap f :=
  cursorAt_remap t t.track t.layer

theorem time_remap (t : Timeline Rat) : (t.remap f).time = f t.time :=
  congrArg Cursor.time (cursor_remap t)

theorem remap_withCursor (t : Timeline Rat) (c : Cursor Rat) :
    (t.remap f).withCursor (c.remap f) = (t.withCursor c).remap f := by
  simp [remap, withCursor, layer, Vector.map_set]

theorem remap_setTrack (t : Timeline Rat) (n : Nat) :
    ((t.remap f).setTrack n).1 = (t.setTrack n).1.remap f := rfl

theorem remap_setLayer (t : Timeline Rat) (n : Nat) :
    (t.remap f).setLayer n = (t.setLayer n).remap f := rfl

theorem remap_setTime (t : Timeline Rat) (time : Rat) :
    (t.remap f).setTime (f time) = (t.setTime time).remap f :=
  remap_withCursor t (.atTime time)

theorem remap_setBookmark (t : Timeline Rat) (name : Text) :
    (t.remap f).setBookmark name = (t.setBookmark name).remap f := by
  rw [setBookmark, time_remap]
  simp only [setBookmark, remap, Table.insert_mapValues]

theorem remap_jump (t : Timeline Rat) (name : Text) :
    (t.remap f).jump name = (t.jump name).remap f := by
  have hbookmark : (t.remap f).bookmark? name = (t.bookmark? name).map f :=
    Table.get?_mapValues f t.bookmarks name
  rw [jump, jump, jump?, jump?, hbookmark]
  cases t.bookmark? name with
  | none => rfl
  | some time => exact remap_setTime t time

theorem remap_place (hf : Monotone f) {length changed : Rat} (h : Matches f length changed)
    (t : Timeline Rat) (n : Note Rat) :
    (t.remap f).place n changed =
      ((t.place n length).1.remap f, (t.place n length).2.remap f) := by
  have happroach : (t.remap f).cursor.approach n = (t.cursor.approach n).remap f := by
    rw [cursor_remap, Cursor.remap_approach hf]
  simp only [place, happroach, Cursor.remap_advance hf h, remap_withCursor, Placement.remap]
  cases n.isRest <;> cases n.endsTie <;> cases n.startsTie <;> rfl

end Timeline

end ScoreText
