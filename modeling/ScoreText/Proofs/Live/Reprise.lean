import ScoreText.Proofs.Live.Agenda
import ScoreText.Proofs.Live.Foretold
import ScoreText.Proofs.Sequence.Insertion
import ScoreText.Proofs.Timeline.Cursor

/-!
A chronicle replayed. What was heard comes again by its milliseconds, and each event finds the track and the layer
it was heard on.
-/

set_option autoImplicit false

namespace ScoreText

open Stable

namespace Agenda

variable {α : Type}

def ofList (items : List (Nat × α)) : Agenda α := items.foldl (fun a x => a.add x.1 x.2) .empty

theorem ofList_append_singleton (items : List (Nat × α)) (x : Nat × α) :
    ofList (items ++ [x]) = (ofList items).add x.1 x.2 := by
  simp [ofList]

theorem ascending_ofList (items : List (Nat × α)) : (ofList items).Ascending := by
  induction items using List.reverseRecOn with
  | nil => exact ascending_empty
  | append_singleton items x ih =>
    rw [ofList_append_singleton]
    exact ih.add x.1 x.2

theorem sortedBy_toList_add {a : Agenda α} (h : a.Ascending) (hsorted : SortedBy Prod.fst a.toList) (time : Nat)
    (item : α) : SortedBy Prod.fst (a.add time item).toList := by
  have hcross : ∀ x ∈ a.toList.filter (·.1 ≤ time), ∀ y ∈ (time, item) :: a.toList.filter (time < ·.1),
      x.1 ≤ y.1 := by
    simp only [List.mem_filter, List.mem_cons, decide_eq_true_eq]
    rintro x ⟨-, hx⟩ y (rfl | ⟨-, hy⟩) <;> omega
  rw [toList_add h]
  refine List.pairwise_append.mpr ⟨hsorted.filter _, List.pairwise_cons.mpr ⟨?_, hsorted.filter _⟩, hcross⟩
  simp only [List.mem_filter, decide_eq_true_eq]
  exact fun y hy => Nat.le_of_lt hy.2

theorem class_toList_add {a : Agenda α} (h : a.Ascending) (time : Nat) (item : α) (v : Nat) :
    (a.add time item).toList.filter (fun x => x.1 == v) =
      a.toList.filter (fun x => x.1 == v) ++ [(time, item)].filter fun x => x.1 == v := by
  rw [toList_add h, List.filter_append, List.filter_cons, List.filter_filter, List.filter_filter]
  by_cases hv : v ≤ time
  · have hfront : a.toList.filter (fun x => x.1 == v && decide (x.1 ≤ time)) = a.toList.filter (fun x => x.1 == v) :=
      List.filter_congr fun x _ => by simp; omega
    have hback : a.toList.filter (fun x => x.1 == v && decide (time < x.1)) = [] :=
      List.filter_eq_nil_iff.mpr fun x _ => by simp; omega
    simp [hfront, hback, List.filter_cons]
  · have hfront : a.toList.filter (fun x => x.1 == v && decide (x.1 ≤ time)) = [] :=
      List.filter_eq_nil_iff.mpr fun x _ => by simp; omega
    have hback : a.toList.filter (fun x => x.1 == v && decide (time < x.1)) = a.toList.filter (fun x => x.1 == v) :=
      List.filter_congr fun x _ => by simp; omega
    have hlater : time ≠ v := by omega
    simp [hfront, hback, hlater]

/-- Items that are filed one after another come by their times, and those of one time in turn. -/
theorem toList_ofList (items : List (Nat × α)) : (ofList items).toList = items.mergeSort (leBy Prod.fst) := by
  suffices h : SortedBy Prod.fst (ofList items).toList ∧
      ∀ v, (ofList items).toList.filter (fun x => x.1 == v) = items.filter fun x => x.1 == v by
    exact eq_of_classes h.1 (sortedBy_mergeSort _ items) fun v => by rw [h.2, class_mergeSort]
  induction items using List.reverseRecOn with
  | nil => exact ⟨.nil, fun _ => rfl⟩
  | append_singleton items x ih =>
    obtain ⟨hsorted, hclass⟩ := ih
    rw [ofList_append_singleton]
    refine ⟨sortedBy_toList_add (ascending_ofList items) hsorted x.1 x.2, fun v => ?_⟩
    rw [class_toList_add (ascending_ofList items), hclass, List.filter_append]

end Agenda

variable {R : Type}

/-- Whether a chronicle files an event, rather than going by it or passing it over. -/
def Event.isRecorded : Event R → Bool
  | .track _ | .layer _ | .bookmark _ | .bookmarkRequest _ | .timeRequest _ | .parsingStarts | .parsingEnds => false
  | _ => true

/-- A change of track or layer. -/
def Event.isMove : Event R → Bool
  | .track _ | .layer _ => true
  | _ => false

namespace Chronicle

/-- Events other than changes of track and layer, each with the last change of either kind before it. -/
def contexts : Option Nat → Option Nat → List (Event R) → List (Option Nat × Option Nat × Event R)
  | _, _, [] => []
  | _, layer, .track n :: rest => contexts (some n) layer rest
  | track, _, .layer n :: rest => contexts track (some n) rest
  | track, layer, event :: rest => (track, layer, event) :: contexts track layer rest

theorem contexts_cons {event : Event R} (h : event.isRecorded) (track layer : Option Nat) (rest : List (Event R)) :
    contexts track layer (event :: rest) = (track, layer, event) :: contexts track layer rest := by
  cases event with
  | track | layer => simp [Event.isRecorded] at h
  | _ => rfl

/-- The events that stand in some context are all but the changes of it. -/
theorem event_contexts (track layer : Option Nat) (events : List (Event R)) :
    (contexts track layer events).map (fun x => x.2.2) = events.filter fun e => !e.isMove := by
  induction events generalizing track layer with
  | nil => rfl
  | cons event rest ih => cases event <;> simp [contexts, Event.isMove, ih]

/-- The changes before an entry lead to its track and layer. -/
theorem contexts_moves (position : Option (Nat × Nat)) (e : ChronicleEntry R) (rest : List (Event R)) :
    contexts (position.map Prod.fst) (position.map Prod.snd) (moves position e ++ rest) =
      contexts (some e.track) (some e.layer) rest := by
  unfold moves
  split
  · split <;> simp [contexts, *]
  · rfl

/-- A replay has nothing but the events of its entries and the changes between them. -/
theorem mem_replayFrom {position : Option (Nat × Nat)} {entries : List (ChronicleEntry R)} {event : Event R}
    (h : event ∈ replayFrom position entries) : event.isMove ∨ ∃ e ∈ entries, e.event = event := by
  have hmoves : ∀ position (e : ChronicleEntry R), ∀ event ∈ moves position e, event.isMove := by
    intro position e
    unfold moves
    split
    · split <;> simp [Event.isMove]
    · simp [Event.isMove]
  induction entries generalizing position with
  | nil => exact absurd h List.not_mem_nil
  | cons e rest ih =>
    simp only [replayFrom, List.mem_append, List.mem_cons] at h
    rcases h with h | rfl | h
    · exact .inl (hmoves _ _ _ h)
    · exact .inr ⟨e, List.mem_cons_self, rfl⟩
    · exact (ih h).imp_right fun ⟨f, hf, he⟩ => ⟨f, List.mem_cons_of_mem e hf, he⟩

theorem contexts_replayFrom (position : Option (Nat × Nat)) {entries : List (ChronicleEntry R)}
    (h : ∀ e ∈ entries, e.event.isRecorded) :
    contexts (position.map Prod.fst) (position.map Prod.snd) (replayFrom position entries) =
      entries.map fun e => (some e.track, some e.layer, e.event) := by
  induction entries generalizing position with
  | nil => rfl
  | cons e rest ih =>
    obtain ⟨he, hrest⟩ := List.forall_mem_cons.mp h
    rw [replayFrom, contexts_moves, contexts_cons he, List.map_cons]
    exact congrArg _ (ih (some (e.track, e.layer)) hrest)

end Chronicle

variable [Scalar R]

namespace Chronicle

/-- When an event happens: a note or a chord where the first of its notes starts, anything else at the time of the
current track and layer. -/
def moment (c : Chronicle R) (event : Event R) : R :=
  ((c.placed event).head?.map fun x => x.2.start).getD c.timeline.time

/-- An event with its millisecond and with the current track and layer. -/
def filing (c : Chronicle R) (event : Event R) : Nat × ChronicleEntry R :=
  (Tempo.millisecond (c.moment event), ⟨c.timeline.track.val, c.timeline.layer.val, event⟩)

/-- What is to be filed of a run, in the order in which it is heard. -/
def filings : Chronicle R → List (Event R) → List (Nat × ChronicleEntry R)
  | _, [] => []
  | c, event :: rest =>
    if event.isRecorded then c.filing event :: filings (c.hear event) rest else filings (c.hear event) rest

/-- An event that is recorded is filed; any other leaves the entries alone. -/
theorem entries_hear (c : Chronicle R) (event : Event R) :
    (c.hear event).entries =
      if event.isRecorded then c.entries.add (c.filing event).1 (c.filing event).2 else c.entries := by
  cases event with
  | note n => exact entries_hear_placed c rfl
  | chord chord =>
    obtain ⟨bass, above, hv⟩ := chord.exists_voiced
    obtain ⟨first, hfirst⟩ : ∃ first, (c.placed (.chord chord)).head? = some first := by
      simp [placed, Timeline.layEvent, hv.notes, Timeline.lay]
    simp [entries_hear_placed c hfirst, Event.isRecorded, filing, moment, hfirst]
  | _ => rfl

/-- What a chronicle holds after a run is what was to be filed of it. -/
theorem entries_hearAll (c : Chronicle R) (events : List (Event R)) :
    (events.foldl hear c).entries = (c.filings events).foldl (fun a x => a.add x.1 x.2) c.entries := by
  induction events generalizing c with
  | nil => rfl
  | cons event rest ih =>
    rw [List.foldl_cons, ih, entries_hear, filings]
    split <;> rfl

theorem event_filings (c : Chronicle R) (events : List (Event R)) :
    (c.filings events).map (fun x => x.2.event) = events.filter Event.isRecorded := by
  induction events generalizing c with
  | nil => rfl
  | cons event rest ih =>
    rw [filings, List.filter_cons]
    split <;> simp [filing, ih]

/-- Every filing is of an event that is recorded, on a track and a layer. -/
theorem mem_filings {c : Chronicle R} {events : List (Event R)} {x : Nat × ChronicleEntry R}
    (h : x ∈ c.filings events) : x.2.event.isRecorded ∧ x.2.track < 16 ∧ x.2.layer < 16 := by
  induction events generalizing c with
  | nil => exact absurd h List.not_mem_nil
  | cons event rest ih =>
    rw [filings] at h
    split at h
    case isTrue hrecorded =>
      rcases List.mem_cons.mp h with rfl | h
      · exact ⟨hrecorded, c.timeline.track.isLt, c.timeline.layer.isLt⟩
      · exact ih h
    case isFalse => exact ih h

/-- What is recorded leads to no other track or layer. -/
theorem slot_hear (c : Chronicle R) {event : Event R} (h : event.isRecorded) :
    (c.hear event).timeline.track = c.timeline.track ∧ (c.hear event).timeline.layer = c.timeline.layer := by
  cases event with
  | chord chord => exact slot_placeAll c.timeline (c.millisOf chord.root) chord.notes
  | track | layer | bookmark | bookmarkRequest | timeRequest | parsingStarts | parsingEnds =>
    simp [Event.isRecorded] at h
  | _ => exact ⟨rfl, rfl⟩

theorem filings_append (c : Chronicle R) (before after : List (Event R)) :
    c.filings (before ++ after) = c.filings before ++ (before.foldl hear c).filings after := by
  induction before generalizing c with
  | nil => rfl
  | cons event rest ih =>
    simp only [List.cons_append, filings, List.foldl_cons, ih]
    split <;> rfl

/-- The current track and layer. -/
def IsOn (c : Chronicle R) (track layer : Nat) : Prop := c.timeline.track.val = track ∧ c.timeline.layer.val = layer

theorem isOn_layer {c : Chronicle R} {track layer : Nat} (h : c.timeline.track.val = track) (hl : layer < 16) :
    (c.hear (.layer layer)).IsOn track layer := by
  refine ⟨h, ?_⟩
  simp only [hear, Timeline.setLayer, Timeline.layer, Fin.getElem_fin, Vector.getElem_set_self, Slot.ofNat]
  omega

theorem isOn_track_layer (c : Chronicle R) {track layer : Nat} (ht : track < 16) (hl : layer < 16) :
    ((c.hear (.track track)).hear (.layer layer)).IsOn track layer := by
  refine isOn_layer ?_ hl
  simp [hear, Timeline.setTrack_track _ ht]

/-- The changes before an entry bring whoever hears them to its track and layer. -/
theorem isOn_moves {c : Chronicle R} {position : Option (Nat × Nat)} {e : ChronicleEntry R}
    (h : ∀ track layer, position = some (track, layer) → c.IsOn track layer) (ht : e.track < 16)
    (hl : e.layer < 16) : ((moves position e).foldl hear c).IsOn e.track e.layer := by
  rcases position with _ | ⟨track, layer⟩
  · exact c.isOn_track_layer ht hl
  · obtain ⟨htrack, hlayer⟩ := h track layer rfl
    unfold moves
    split
    · rename_i hsame
      have hsame : track = e.track := Option.some.inj hsame
      split
      · rename_i hsame'
        exact ⟨htrack.trans hsame, hlayer.trans (Option.some.inj hsame')⟩
      · exact isOn_layer (htrack.trans hsame) hl
    · exact c.isOn_track_layer ht hl

theorem filings_moves (c : Chronicle R) (position : Option (Nat × Nat)) (e : ChronicleEntry R) :
    c.filings (moves position e) = [] := by
  unfold moves
  split
  · split <;> rfl
  · rfl

/-- Whoever hears a replay files the same events on the same tracks and layers. -/
theorem filings_replayFrom (c : Chronicle R) {position : Option (Nat × Nat)} {entries : List (ChronicleEntry R)}
    (hposition : ∀ track layer, position = some (track, layer) → c.IsOn track layer)
    (h : ∀ e ∈ entries, e.event.isRecorded ∧ e.track < 16 ∧ e.layer < 16) :
    (c.filings (replayFrom position entries)).map Prod.snd = entries := by
  induction entries generalizing c position with
  | nil => rfl
  | cons e rest ih =>
    obtain ⟨⟨hrecorded, ht, hl⟩, hrest⟩ := List.forall_mem_cons.mp h
    have hon := isOn_moves hposition ht hl
    obtain ⟨htrack, hlayer⟩ := slot_hear ((moves position e).foldl hear c) hrecorded
    rw [replayFrom, filings_append, filings_moves, List.nil_append, filings, if_pos hrecorded, List.map_cons]
    have hentry : (((moves position e).foldl hear c).filing e.event).2 = e := by
      rw [filing, hon.1, hon.2]
    rw [hentry, ih _ ?_ hrest]
    rintro track layer ⟨⟩
    exact ⟨(congrArg Fin.val htrack).trans hon.1, (congrArg Fin.val hlayer).trans hon.2⟩

/-- A replay begins and ends once. In between come the changes of track and layer that it makes, and the events of
the run but for those that a chronicle does not record: each once, by milliseconds, those of one millisecond in the
order in which they were heard, each behind a change to the track and a change to the layer that were current then.
So whoever hears it files the same events on the same tracks and layers. -/
theorem replay_in_order (noteLength : R) (events : List (Event R)) :
    let c := events.foldl hear (start noteLength)
    let filed := (start noteLength).filings events
    let inOrder := (filed.mergeSort (leBy Prod.fst)).map Prod.snd
    filed.map (fun x => x.2.event) = events.filter Event.isRecorded ∧
      ∃ inner,
        c.replay = .parsingStarts :: inner ++ [.parsingEnds] ∧
        .parsingStarts ∉ inner ∧ .parsingEnds ∉ inner ∧
        inner.filter (fun e => !e.isMove) = inOrder.map ChronicleEntry.event ∧
        contexts none none inner = inOrder.map (fun e => (some e.track, some e.layer, e.event)) ∧
        ∀ d : Chronicle R, (d.filings c.replay).map Prod.snd = inOrder := by
  intro c filed inOrder
  have hheld : c.entries = Agenda.ofList filed := entries_hearAll (start noteLength) events
  have hreplay : c.replay = .parsingStarts :: replayFrom none inOrder ++ [.parsingEnds] := by
    rw [replay, hheld, Agenda.toList_ofList]
  have hentries : ∀ e ∈ inOrder, e.event.isRecorded ∧ e.track < 16 ∧ e.layer < 16 := by
    intro e he
    obtain ⟨x, hx, rfl⟩ := List.mem_map.mp he
    exact mem_filings (List.mem_mergeSort.mp hx)
  have hcontexts := contexts_replayFrom none fun e he => (hentries e he).1
  have hevents : (replayFrom none inOrder).filter (fun e => !e.isMove) = inOrder.map ChronicleEntry.event := by
    have hall := congrArg (List.map fun x => x.2.2) hcontexts
    rw [event_contexts, List.map_map] at hall
    exact hall
  have hinner : ∀ event ∈ replayFrom none inOrder, event.isMove ∨ event.isRecorded := fun event hevent =>
    (mem_replayFrom hevent).imp_right fun ⟨e, he, heq⟩ => heq ▸ (hentries e he).1
  refine ⟨event_filings _ events, replayFrom none inOrder, hreplay, fun h => ?_, fun h => ?_, hevents, hcontexts,
    fun d => ?_⟩
  · simpa [Event.isMove, Event.isRecorded] using hinner _ h
  · simpa [Event.isMove, Event.isRecorded] using hinner _ h
  · have hlast : ∀ d : Chronicle R, d.filings [.parsingEnds] = [] := fun _ => rfl
    have hfirst : ∀ rest, d.filings (.parsingStarts :: rest) = d.filings rest := fun _ => rfl
    rw [hreplay, List.cons_append, hfirst, filings_append, hlast, List.append_nil]
    exact filings_replayFrom d (by simp) hentries

/-- A marker on the second track comes before a lyric that was heard earlier, behind a rest on the first. -/
example :
    let events : List (Event Rat) := [.note (.rest (1 / 2)), .lyric [], .track 1, .marker []]
    (events.foldl hear (start (1 / 4))).replay.map Event.kind =
      [.parsingStarts, .track, .layer, .note, .track, .layer, .marker, .track, .layer, .lyric, .parsingEnds] := by
  decide +kernel

end Chronicle

end ScoreText
