import ScoreText.Proofs.Notation.Dyadic
import ScoreText.Proofs.Sequence.Tuning

/-!
A sequence that is written as a notation: what is read from it are the groups of every track, tuned
by the key in force, or nothing where a tone leaves its range.
-/

set_option autoImplicit false

namespace ScoreText

open NoteContext Sequence

namespace Replay

theorem value_sounding (resolution : Nat) (isFirst : Bool) {n : SequencedNote}
    (h : n.note ≤ maxData) : (sounding resolution isFirst n).value = n.note := Nat.min_eq_left h

section

variable {key : Key} {track resolution : Nat}

/-- A note has one reading where tuning leaves it as it is. -/
theorem certain_sounding (isFirst : Bool) {n : SequencedNote} (h : n.note ≤ maxData) :
    (sounding resolution isFirst n).Certain key track ↔ tune? key track n = some n := by
  have hvalue := value_sounding resolution isFirst h
  have hrest : (sounding resolution isFirst n).isRest = false := rfl
  rw [tune?, Note.Certain, Note.onTrack, hvalue]
  by_cases hnamed : track = Symbols.percussionTrack ∧ (Symbols.percussionName? n.note).isSome = true
  · rw [if_pos hnamed, if_pos ⟨hnamed.1, hrest, hnamed.2⟩]
    exact iff_of_true (fun _ _ hp => absurd hp.symm Bool.false_ne_true) rfl
  · rw [if_neg hnamed, if_neg fun hall => hnamed ⟨hall.1, hall.2.2⟩]
    have hsame : (sounding resolution isFirst n).written = none ∧
        (sounding resolution isFirst n).isPercussion = false := ⟨rfl, rfl⟩
    refine ⟨fun hc => ?_, fun ht _ _ _ => ?_⟩
    · rw [hc hrest hsame.1 hsame.2, Int.add_zero, if_pos ⟨by omega, by omega⟩, Int.toNat_natCast]
    · split at ht
      · have := congrArg SequencedNote.note (Option.some.inj ht)
        dsimp only at this
        omega
      · cases ht

theorem still_written {channel : Nat} {event : Event Rat} (h : (Sequencer.written? channel event).isSome) :
    event.sounds = false ∧ (∀ t, event.trackAfter t = t) ∧ event.Legible := by
  cases event <;> first | exact ⟨rfl, fun _ => rfl, trivial⟩ | cases h

theorem still_told (g : Group) : ∀ event ∈ g.told,
    event.sounds = false ∧ (∀ t, event.trackAfter t = t) ∧ event.Legible := by
  intro event h
  obtain ⟨e, -, he⟩ := List.mem_flatMap.mp h
  exact still_written (written_eventsOf 0 e event he)

theorem certain_still (key : Key) (track : Nat) {es : List (Event Rat)}
    (h : ∀ e ∈ es, e.sounds = false ∧ (∀ t, e.trackAfter t = t) ∧ e.Legible) :
    Event.AllCertain key track es ∧ Event.trackAfterAll track es = track := by
  induction es generalizing key with
  | nil => exact ⟨trivial, rfl⟩
  | cons e rest ih =>
    obtain ⟨⟨hstill, htrack, -⟩, hrest⟩ := List.forall_mem_cons.mp h
    have hcertain : e.Certain key track := by
      cases e <;> trivial
    rw [Event.AllCertain, Event.trackAfterAll, List.foldl_cons, htrack]
    obtain ⟨hall, hafter⟩ : Event.AllCertain (e.keyAfter key) track rest ∧ _ := ih _ hrest
    exact ⟨⟨hcertain, hall⟩, hafter⟩

theorem certain_approach (key : Key) (track resolution cursor tick : Nat) :
    Event.AllCertain key track (approach resolution cursor tick : List (Event Rat)) ∧
      Event.keyAfterAll key (approach resolution cursor tick : List (Event Rat)) = key ∧
      Event.trackAfterAll track (approach resolution cursor tick : List (Event Rat)) = track := by
  unfold approach
  split
  · have hrest : (Event.note { Note.rest (Tick.toBeats (tick - cursor) resolution : Rat) with
        isFirst := true }).Certain key track := fun hr => nomatch hr
    exact ⟨⟨hrest, trivial⟩, rfl, rfl⟩
  · split
    · exact ⟨⟨trivial, trivial⟩, rfl, rfl⟩
    · exact ⟨trivial, rfl, rfl⟩

/-- The notes of a group as notes of a notation. -/
def members (resolution : Nat) : List SequencedNote → List (Element Rat)
  | [] => []
  | n :: rest =>
    .note (sounding resolution true n) :: rest.map fun n => .note (sounding resolution false n)

theorem noteEvents_eq (resolution : Nat) (ns : List SequencedNote) :
    noteEvents resolution ns = (members resolution ns).map Fragment.elementEvent := by
  cases ns with
  | nil => rfl
  | cons n rest =>
    rw [noteEvents_cons, members, List.map_cons, List.map_map]
    rfl

theorem certain_notes {ns : List SequencedNote} (h : ∀ n ∈ ns, n.note ≤ maxData) :
    Event.AllCertain key track (noteEvents resolution ns : List (Event Rat)) ↔ tuneNotes? key track ns = some ns := by
  rw [noteEvents_eq resolution ns, Event.allCertain_elements, tuneNotes?_self_iff]
  cases ns with
  | nil => simp [members]
  | cons n rest =>
    obtain ⟨hn, hrest⟩ := List.forall_mem_cons.mp h
    rw [members, List.forall_mem_cons, List.forall_mem_cons, List.forall_mem_map]
    exact and_congr (certain_sounding true hn)
      (forall₂_congr fun m hm => certain_sounding false (hrest m hm))

/-- The events of groups one by one: what takes the time to a group, what is told of it, its notes. -/
theorem groupEvents_cons {g : Group} (hg : g.Playable) (cursor : Nat) (rest : List Group) :
    (groupEvents resolution cursor (g :: rest) : List (Event Rat)) =
      approach resolution cursor g.tick ++ (g.told ++ (noteEvents resolution g.notes ++
        groupEvents resolution g.finish rest)) := by
  have hsorted : (g.notes.mergeSort fun a b => a.length ≤ b.length) = g.notes :=
    Stable.mergeSort_of_sortedBy hg.sorted
  simp only [groupEvents, hsorted, Group.finish, Group.told, List.append_assoc]

theorem afterAll_notes (key : Key) (track resolution : Nat) (ns : List SequencedNote) :
    Event.keyAfterAll key (noteEvents resolution ns : List (Event Rat)) = key ∧
      Event.trackAfterAll track (noteEvents resolution ns : List (Event Rat)) = track := by
  rw [noteEvents_eq]
  exact Event.afterAll_elements key track _

theorem tuneGroups?_self_iff {g : Group} {rest : List Group} :
    tuneGroups? track key (g :: rest) = some (g :: rest) ↔
      tuneNotes? (Event.keyAfterAll key g.told) track g.notes = some g.notes ∧
        tuneGroups? track (Event.keyAfterAll key g.told) rest = some rest := by
  refine ⟨fun h => ?_, fun ⟨hnotes, hrest⟩ => ?_⟩
  · obtain ⟨ns, more, hns, hmore, heq⟩ := tuneGroups?_cons h
    obtain ⟨hg, rfl⟩ := List.cons.inj heq
    have hsame : ns = g.notes := (congrArg Group.notes hg).symm
    exact ⟨hsame ▸ hns, hmore⟩
  · rw [tuneGroups?, hnotes, hrest]
    rfl

/-- Groups have one reading where tuning leaves them as they are. -/
theorem certain_groups {gs : List Group} (hgs : ∀ g ∈ gs, g.Playable) (cursor : Nat) :
    Event.AllCertain key track (groupEvents resolution cursor gs : List (Event Rat)) ↔
      tuneGroups? track key gs = some gs := by
  induction gs generalizing key cursor with
  | nil => exact iff_of_true trivial rfl
  | cons g rest ih =>
    obtain ⟨hg, hrest⟩ := List.forall_mem_cons.mp hgs
    obtain ⟨happroach, hkey, htrack⟩ :=
      certain_approach key track resolution cursor g.tick
    obtain ⟨htold, htrack'⟩ := certain_still key track (still_told g)
    have hnotes : ∀ n ∈ g.notes, n.note ≤ maxData := fun n hn => (hg.notes n hn).1.note
    rw [groupEvents_cons hg, Event.allCertain_append, hkey, htrack, Event.allCertain_append, htrack',
      Event.allCertain_append, (afterAll_notes _ track resolution g.notes).1,
      (afterAll_notes key track resolution g.notes).2, certain_notes hnotes, ih hrest,
      tuneGroups?_self_iff]
    exact ⟨fun h => h.2.2, fun h => ⟨happroach, htold, h⟩⟩

end

end Replay

end ScoreText
