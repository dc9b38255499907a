import ScoreText.Chronicle
import ScoreText.Live.Performer
import ScoreText.Proofs.Timeline.Cursor
import ScoreText.Sequence.Sequencer

/-!
Bookmarks in whoever keeps time. A bookmark holds the time at which it was set until it is set again, and a
request for it takes the current track and layer back to that time.
-/

set_option autoImplicit false

namespace ScoreText

namespace Timeline

variable {R : Type}

theorem bookmarks_jump (t : Timeline R) (name : Text) : (t.jump name).bookmarks = t.bookmarks := by
  rw [jump, jump?]
  cases t.bookmark? name <;> rfl

theorem time_jump {t : Timeline R} {name : Text} {time : R} (h : t.bookmark? name = some time) :
    (t.jump name).time = time := by
  rw [jump, jump?, h, Option.map_some, Option.getD_some, Timeline.time, setTime, cursor_withCursor]
  rfl

theorem jump_unknown {t : Timeline R} {name : Text} (h : t.bookmark? name = none) : t.jump name = t := by
  rw [jump, jump?, h]
  rfl

theorem bookmark?_setBookmark (t : Timeline R) (set name : Text) :
    (t.setBookmark set).bookmark? name = if name = set then some t.time else t.bookmark? name :=
  Table.get?_insert t.bookmarks set name t.time

end Timeline

/-- Those who keep time for every track and layer while they hear events. A performer does it live, with a
millisecond that was the last begun. -/
inductive Timekeeper (R : Type) where
  | recorder (r : Recorder R)
  | chronicle (c : Chronicle R)
  | performer (now : Nat) (p : Performer R)

namespace Timekeeper

variable {R : Type}

def timeline : Timekeeper R → Timeline R
  | .recorder r => r.sequencer.timeline
  | .chronicle c => c.timeline
  | .performer _ p => p.timeline

variable [Scalar R]

def hear : Timekeeper R → Event R → Timekeeper R
  | .recorder r, event => .recorder (r.hear event)
  | .chronicle c, event => .chronicle (c.hear event)
  | .performer now p, event => .performer now (p.hear now event).1

def hearAll (k : Timekeeper R) (events : List (Event R)) : Timekeeper R := events.foldl hear k

theorem hearAll_append (k : Timekeeper R) (es fs : List (Event R)) :
    k.hearAll (es ++ fs) = (k.hearAll es).hearAll fs := List.foldl_append

theorem timeline_marker (k : Timekeeper R) (text : Text) :
    (k.hear (.marker text)).timeline = k.timeline := by
  cases k <;> rfl

theorem timeline_bookmark (k : Timekeeper R) (name : Text) :
    (k.hear (.bookmark name)).timeline = k.timeline.setBookmark name := by
  cases k <;> rfl

theorem timeline_bookmarkRequest (k : Timekeeper R) (name : Text) :
    (k.hear (.bookmarkRequest name)).timeline = k.timeline.jump name := by
  cases k <;> rfl

/-- A request changes nothing but the timeline. -/
theorem hear_bookmarkRequest_unknown {k : Timekeeper R} {name : Text}
    (h : k.timeline.bookmark? name = none) : k.hear (.bookmarkRequest name) = k := by
  have hjump := Timeline.jump_unknown h
  cases k with
  | recorder r =>
    simp only [timeline] at hjump
    simp only [hear, Recorder.hear, Recorder.after, Sequencer.hear, hjump]
    rfl
  | chronicle c =>
    simp only [timeline] at hjump
    simp only [hear, Chronicle.hear, hjump]
  | performer now p =>
    simp only [timeline] at hjump
    simp only [hear, Performer.hear, hjump]

theorem bookmarks_playNotes (s : Sequencer R) (ns : List (Note R)) :
    (s.playNotes ns).1.timeline.bookmarks = s.timeline.bookmarks := by
  induction ns generalizing s with
  | nil => rfl
  | cons n rest ih => exact ih (s.playNote n).1

theorem bookmarks_placeAll (t : Timeline R) (length : R) (ns : List (Note R)) :
    (Chronicle.placeAll t length ns).1.bookmarks = t.bookmarks := by
  induction ns generalizing t with
  | nil => rfl
  | cons n rest ih => exact ih (t.place n length).1

theorem bookmarks_perform (millis : R) (p : Performer R) (ns : List (Note R)) :
    (p.playNotes millis ns).1.timeline.bookmarks = p.timeline.bookmarks := by
  induction ns generalizing p with
  | nil => rfl
  | cons n rest ih => exact ih (p.playNote n millis).1

/-- Bookmarks are set by nothing else. -/
theorem bookmarks_hear (k : Timekeeper R) {event : Event R} (h : ∀ name, event ≠ .bookmark name) :
    (k.hear event).timeline.bookmarks = k.timeline.bookmarks := by
  cases event with
  | bookmark name => exact absurd rfl (h name)
  | bookmarkRequest name => rw [timeline_bookmarkRequest, Timeline.bookmarks_jump]
  | chord c =>
    cases k with
    | recorder r => exact bookmarks_playNotes r.sequencer c.notes
    | chronicle k => exact bookmarks_placeAll k.timeline _ c.notes
    | performer now p => exact bookmarks_perform _ p c.notes
  | _ => cases k <;> rfl

/-- A bookmark keeps its time until one of its name is set again. -/
theorem bookmark?_hear (k : Timekeeper R) {event : Event R} {name : Text} (h : event ≠ .bookmark name) :
    (k.hear event).timeline.bookmark? name = k.timeline.bookmark? name := by
  by_cases hset : ∃ set, event = .bookmark set
  · obtain ⟨set, rfl⟩ := hset
    have hother : name ≠ set := fun he => h (he ▸ rfl)
    rw [timeline_bookmark, Timeline.bookmark?_setBookmark, if_neg hother]
  · have hnone : ∀ set, event ≠ .bookmark set := fun set hs => hset ⟨set, hs⟩
    rw [Timeline.bookmark?, k.bookmarks_hear hnone, Timeline.bookmark?]

theorem bookmark?_hearAll (k : Timekeeper R) {events : List (Event R)} {name : Text}
    (h : .bookmark name ∉ events) :
    (k.hearAll events).timeline.bookmark? name = k.timeline.bookmark? name := by
  induction events generalizing k with
  | nil => rfl
  | cons event rest ih =>
    rw [List.mem_cons, not_or] at h
    exact (ih (k.hear event) h.2).trans (k.bookmark?_hear (Ne.symm h.1))

/-- From a marker on, whatever is heard but another bookmark of the same name, a request for its bookmark
goes back to the time at which the marker was heard. -/
theorem time_bookmarkRequest (k : Timekeeper R) (name : Text) {middle : List (Event R)}
    (h : .bookmark name ∉ middle) :
    ((k.hearAll (.marker name :: .bookmark name :: middle)).hear (.bookmarkRequest name)).timeline.time =
      k.timeline.time := by
  obtain ⟨set, hset⟩ : ∃ set, set = (k.hear (.marker name)).hear (.bookmark name) := ⟨_, rfl⟩
  have hknown : set.timeline.bookmark? name = some k.timeline.time := by
    rw [hset, timeline_bookmark, Timeline.bookmark?_setBookmark, if_pos rfl, timeline_marker]
  have hheard : k.hearAll (.marker name :: .bookmark name :: middle) = set.hearAll middle := by
    rw [hset]
    rfl
  rw [timeline_bookmarkRequest, hheard]
  exact Timeline.time_jump ((set.bookmark?_hearAll h).trans hknown)

end Timekeeper

end ScoreText
