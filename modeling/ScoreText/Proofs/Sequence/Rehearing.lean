import ScoreText.Proofs.Sequence.Ranges

/-!
Events that sound the same: a sequencer writes the same notes for them, wherever their captions and
their spellings differ.
-/

set_option autoImplicit false

namespace ScoreText

open Sequence

variable {R : Type}

/-- A note that differs from another in nothing that a sequencer looks at. -/
def Note.SoundsLike (n m : Note R) : Prop :=
  m = { n with octaveWritten := m.octaveWritten, isPercussion := m.isPercussion, written := m.written }

/-- An event and what may stand in its place without being heard. -/
inductive Event.Sounds : Event R → List (Event R) → Prop where
  | same {e : Event R} (unspoken : e.isVerbal = false) : Sounds e [e]
  | note {n m : Note R} (like : n.SoundsLike m) : Sounds (.note n) [.note m]
  | lyric (text text' : Text) : Sounds (.lyric text) [.lyric text']
  | marker (text text' : Text) : Sounds (.marker text) [.marker text', .bookmark text']

/-- As `Event.Sounds`, all along a list. -/
inductive Event.AllSound : List (Event R) → List (Event R) → Prop where
  | nil : AllSound [] []
  | cons {e : Event R} {back es more : List (Event R)} (first : e.Sounds back)
    (rest : AllSound es more) : AllSound (e :: es) (back ++ more)

namespace Event.AllSound

theorem append {es es' more more' : List (Event R)} (h : AllSound es es') (hmore : AllSound more more') :
    AllSound (es ++ more) (es' ++ more') := by
  induction h with
  | nil => exact hmore
  | cons first _ ih =>
    rw [List.cons_append, List.append_assoc]
    exact .cons first ih

theorem same {es : List (Event R)} (h : ∀ e ∈ es, e.isVerbal = false) : AllSound es es := by
  induction es with
  | nil => exact .nil
  | cons e rest ih =>
    obtain ⟨he, hrest⟩ := List.forall_mem_cons.mp h
    exact .cons (.same he) (ih hrest)

end Event.AllSound

/-- The strokes that calls add to a track. -/
def strokesOn (track : Nat) (calls : List SinkCall) : List TimedEvent :=
  (added track calls).filter fun e => Replay.isNote e.event

theorem strokesOn_append (track : Nat) (before after : List SinkCall) :
    strokesOn track (before ++ after) = strokesOn track before ++ strokesOn track after := by
  rw [strokesOn, added_append, List.filter_append]
  rfl

/-- The note-ons and the note-offs of a track are among its strokes. -/
theorem filterMap_strokesOn (track : Nat) (calls : List SinkCall) :
    (strokesOn track calls).filterMap opening? = (added track calls).filterMap opening? ∧
      (strokesOn track calls).filterMap ending? = (added track calls).filterMap ending? := by
  rw [strokesOn, List.filterMap_filter, List.filterMap_filter]
  refine ⟨List.filterMap_congr fun e _ => ?_, List.filterMap_congr fun e _ => ?_⟩ <;>
    cases hn : Replay.isNote e.event
  · exact (Replay.opening?_of_isNote hn).1.symm
  · rfl
  · exact (Replay.opening?_of_isNote hn).2.symm
  · rfl

theorem strokesOn_meta (track channel tick kind : Nat) (data : List UInt8) :
    strokesOn track [.addEvent channel tick (.metaEvent kind data)] = [] := by
  rw [strokesOn, List.filter_eq_nil_iff]
  intro e he
  obtain ⟨call, hc, hcall⟩ := List.mem_filterMap.mp he
  rw [List.mem_singleton.mp hc] at hcall
  dsimp only at hcall
  split at hcall
  · rw [← Option.some.inj hcall]
    exact Bool.false_ne_true
  · cases hcall

namespace Sequencer

/-- A sequencer that differs from another in its bookmarks alone. -/
def Like (s s' : Sequencer R) : Prop :=
  ∃ bookmarks, s' = { s with timeline := { s.timeline with bookmarks := bookmarks } }

variable [Scalar R] {s s' : Sequencer R}

theorem like_playNote (h : s.Like s') (n : Note R) :
    (s.playNote n).1.Like (s'.playNote n).1 ∧ (s'.playNote n).2 = (s.playNote n).2 := by
  obtain ⟨bookmarks, rfl⟩ := h
  exact ⟨⟨bookmarks, rfl⟩, rfl⟩

theorem like_playNotes (h : s.Like s') (ns : List (Note R)) :
    (s.playNotes ns).1.Like (s'.playNotes ns).1 ∧ (s'.playNotes ns).2 = (s.playNotes ns).2 := by
  induction ns generalizing s s' with
  | nil => exact ⟨h, rfl⟩
  | cons n rest ih =>
    obtain ⟨hlike, hcalls⟩ := like_playNote h n
    obtain ⟨hlike', hcalls'⟩ := ih hlike
    exact ⟨hlike', congrArg₂ (· ++ ·) hcalls hcalls'⟩

/-- One event, unless it is about bookmarks, does the same to both. -/
theorem like_hear (h : s.Like s') {e : Event R} (unspoken : e.isVerbal = false) :
    (s.hear e).1.Like (s'.hear e).1 ∧ (s'.hear e).2 = (s.hear e).2 := by
  cases e with
  | note n => exact like_playNote h n
  | chord c => exact like_playNotes h c.notes
  | lyric | marker | bookmark | bookmarkRequest | call => cases unspoken
  | _ =>
    obtain ⟨bookmarks, rfl⟩ := h
    exact ⟨⟨bookmarks, rfl⟩, rfl⟩

theorem playNote_soundsLike (s : Sequencer R) {n m : Note R} (h : n.SoundsLike m) :
    s.playNote m = s.playNote n := by
  rw [h]
  rfl

/-- What stands in the place of an event has the same strokes. -/
theorem sounds_hear (h : s.Like s') {e : Event R} {back : List (Event R)} (hback : e.Sounds back) :
    (s.hear e).1.Like (s'.hearAll back).1 ∧
      ∀ t, strokesOn t (s'.hearAll back).2 = strokesOn t (s.hear e).2 := by
  cases hback with
  | same unspoken =>
    obtain ⟨hlike, hcalls⟩ := like_hear h unspoken
    refine ⟨hlike, fun t => ?_⟩
    change strokesOn t ((s'.hear e).2 ++ []) = _
    rw [List.append_nil, hcalls]
  | @note n m like =>
    obtain ⟨hlike, hcalls⟩ := like_playNote h n
    have hheard : s'.hearAll [.note m] = ((s'.playNote n).1, (s'.playNote n).2 ++ []) := by
      rw [← playNote_soundsLike s' like]
      rfl
    rw [hheard]
    refine ⟨hlike, fun t => ?_⟩
    rw [List.append_nil, hcalls]
    rfl
  | lyric text text' =>
    refine ⟨h, fun t => ?_⟩
    exact (strokesOn_meta ..).trans (strokesOn_meta ..).symm
  | marker text text' =>
    obtain ⟨bookmarks, rfl⟩ := h
    refine ⟨⟨_, rfl⟩, fun t => ?_⟩
    exact (strokesOn_meta ..).trans (strokesOn_meta ..).symm

/-- What stands in the place of events has the same strokes. -/
theorem sounds_hearAll (h : s.Like s') {es back : List (Event R)} (hback : Event.AllSound es back) :
    (s.hearAll es).1.Like (s'.hearAll back).1 ∧
      ∀ t, strokesOn t (s'.hearAll back).2 = strokesOn t (s.hearAll es).2 := by
  induction hback generalizing s s' with
  | nil => exact ⟨h, fun _ => rfl⟩
  | cons first _ ih =>
    obtain ⟨hlike, hstrokes⟩ := sounds_hear h first
    obtain ⟨hlike', hstrokes'⟩ := ih hlike
    rw [hearAll_append]
    refine ⟨hlike', fun t => ?_⟩
    rw [hearAll, strokesOn_append, strokesOn_append, hstrokes, hstrokes']

end Sequencer

end ScoreText
