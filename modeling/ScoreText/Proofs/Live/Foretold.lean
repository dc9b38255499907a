import Mathlib.Algebra.Order.Round
import ScoreText.Chronicle
import ScoreText.Live.Player
import ScoreText.Proofs.Sequence.InStep
import ScoreText.Proofs.Timeline.Remapping

/-!
A chronicle foretells what a player schedules. A text that a player takes in while some millisecond
is the last begun is played as a chronicle files it, counted from the next millisecond on.
-/

set_option autoImplicit false

namespace ScoreText

variable {R : Type} [Scalar R]

namespace Timeline

/-- Notes of one length with where they come to lie, placed one after another. -/
def lay (length : R) : Timeline R → List (Note R) → List (Note R × Placement R)
  | _, [] => []
  | t, n :: rest => (n, (t.place n length).2) :: lay length (t.place n length).1 rest

/-- The notes that an event places with where they come to lie, when a note lasts so long. -/
def layEvent (t : Timeline R) (lengthOf : Note R → R) : Event R → List (Note R × Placement R)
  | .note n => t.lay (lengthOf n) [n]
  | .chord c => t.lay (lengthOf c.root) c.notes
  | _ => []

end Timeline

/-- The note-ons and note-offs of placed notes, with their times. -/
def strikes (placed : List (Note R × Placement R)) : List (R × Message) :=
  placed.flatMap fun (n, p) =>
    (p.on.map fun time => (time, Message.noteOn n.value n.attack)).toList
      ++ (p.off.map fun time => (time, Message.noteOff n.value n.decay)).toList

namespace Chronicle

def placed (c : Chronicle R) (event : Event R) : List (Note R × Placement R) :=
  c.timeline.layEvent c.millisOf event

/-- The messages that an event comes to in the end, at the times at which a chronicle has them. -/
def foretold (c : Chronicle R) (event : Event R) : List (R × Message) :=
  match event with
  | .instrument n => [(c.timeline.time, .program n)]
  | .controller number value => [(c.timeline.time, .controller number value)]
  | .pitchWheel low high => [(c.timeline.time, .pitchWheel (Event.wheelValue low high))]
  | .channelPressure pressure => [(c.timeline.time, .channelPressure pressure)]
  | .polyPressure key pressure => [(c.timeline.time, .polyPressure key pressure)]
  | event => strikes (c.placed event)

/-- Placing notes leads to no other track or layer. -/
theorem slot_placeAll (t : Timeline R) (length : R) (ns : List (Note R)) :
    (placeAll t length ns).1.track = t.track ∧ (placeAll t length ns).1.layer = t.layer := by
  induction ns generalizing t with
  | nil => exact ⟨rfl, rfl⟩
  | cons n rest ih => exact ih (t.place n length).1

/-- A chronicle files a note or a chord where the first of its notes starts. -/
theorem entries_hear_placed (c : Chronicle R) {event : Event R} {n : Note R} {p : Placement R}
    (h : (c.placed event).head? = some (n, p)) :
    (c.hear event).entries = c.entries.add (Tempo.millisecond p.start)
      ⟨c.timeline.track.val, c.timeline.layer.val, event⟩ := by
  cases event with
  | note m =>
    obtain ⟨rfl, rfl⟩ := Prod.mk.inj (Option.some.inj h)
    rfl
  | chord chord =>
    obtain ⟨htrack, hlayer⟩ := slot_placeAll c.timeline (c.millisOf chord.root) chord.notes
    have hfiled : (c.hear (.chord chord)).entries = c.entries.add
        (Tempo.millisecond ((placeAll c.timeline (c.millisOf chord.root) chord.notes).2.getD
          c.timeline.time)) ⟨c.timeline.track.val, c.timeline.layer.val, .chord chord⟩ := by
      rw [← htrack, ← hlayer]
      rfl
    rw [hfiled]
    simp only [placed, Timeline.layEvent] at h
    cases hnotes : chord.notes with
    | nil =>
      rw [hnotes] at h
      cases h
    | cons bass above =>
      rw [hnotes] at h
      obtain ⟨rfl, rfl⟩ := Prod.mk.inj (Option.some.inj h)
      rfl
  | _ => cases h

end Chronicle

namespace Performer

def placed (p : Performer R) (event : Event R) : List (Note R × Placement R) :=
  p.timeline.layEvent p.millisOf event

end Performer

/-- What an order has the scheduler do. -/
def Order.scheduled? : Order → Option (Nat × Nat × Message)
  | .later millisecond channel message => some (millisecond, channel, message)
  | .atOnce _ _ => none

/-- A performer that hears what a chronicle hears, so much later. -/
structure Ahead (delay : Rat) (p : Performer Rat) (c : Chronicle Rat) : Prop where
  timeline : p.timeline = c.timeline.remap (· + delay)
  tempo : p.tempo = c.tempo
  noteLength : p.noteLength = c.noteLength
  origin : p.origin = delay

theorem monotone_delayed (delay : Rat) : Monotone (· + delay) := fun _ _ h =>
  add_le_add_left h delay

theorem matches_delayed (delay length : Rat) : Matches (· + delay) length length := fun time =>
  add_right_comm time delay length

namespace Ahead

variable {delay : Rat} {p : Performer Rat} {c : Chronicle Rat}

/-- Every cursor of a new timeline is brought up to where a text begins. -/
theorem raiseAll_start (h : 0 < delay) :
    (Timeline.start.setTrack 0).1.raiseAll delay =
      (Timeline.start.setTrack 0).1.remap (· + delay) := by
  have hcursor : (Cursor.atTime (0 : Rat)).raise delay = (Cursor.atTime 0).remap (· + delay) := by
    simp [Cursor.raise, Cursor.atTime, Cursor.remap, h, Scalar.max_rat, h.le]
  simp only [Timeline.raiseAll, Timeline.remap, Timeline.cursors_setTrack, Timeline.start,
    Vector.map_replicate]
  congr 3

theorem start (now : Nat) (noteLength : Rat) :
    Ahead ((now : Rat) + 1) ((Performer.start noteLength).hear now .parsingStarts).1
      ((Chronicle.start noteLength).hear .parsingStarts) := by
  have hnext : ((now + 1 : Nat) : Rat) = (now : Rat) + 1 := Nat.cast_succ now
  have hpos : (0 : Rat) < (now : Rat) + 1 := by positivity
  refine ⟨?_, rfl, rfl, hnext⟩
  simp only [Performer.hear]
  exact (congrArg _ hnext).trans (raiseAll_start hpos)

theorem time (h : Ahead delay p c) : p.timeline.time = c.timeline.time + delay := by
  rw [h.timeline, Timeline.time_remap]

theorem channel (h : Ahead delay p c) : p.channel = c.timeline.track.val := by
  rw [Performer.channel, h.timeline]
  rfl

theorem millisOf (h : Ahead delay p c) : p.millisOf = c.millisOf := by
  funext n
  rw [Performer.millisOf, Chronicle.millisOf, h.tempo, h.noteLength]

theorem lay_remap (t : Timeline Rat) (length : Rat) (ns : List (Note Rat)) :
    (t.remap (· + delay)).lay length ns =
      (t.lay length ns).map fun np => (np.1, np.2.remap (· + delay)) := by
  induction ns generalizing t with
  | nil => rfl
  | cons n rest ih =>
    have hplaced := Timeline.remap_place (monotone_delayed delay) (matches_delayed delay length) t n
    simp only [Timeline.lay, hplaced, ih, List.map_cons]

/-- The performer places every note where the chronicle does, so much later. -/
theorem placed (h : Ahead delay p c) (event : Event Rat) :
    p.placed event = (c.placed event).map fun np => (np.1, np.2.remap (· + delay)) := by
  rw [Performer.placed, Chronicle.placed, h.timeline, h.millisOf]
  cases event with
  | note n => exact lay_remap _ _ _
  | chord chord => exact lay_remap _ _ _
  | _ => rfl

/-- What is scheduled of messages that come so much later. -/
def delayed (delay : Rat) (channel : Nat) (messages : List (Rat × Message)) :
    List (Nat × Nat × Message) :=
  messages.map fun (time, message) => (Tempo.millisecond (time + delay), channel, message)

theorem orders_playNotes (h : Ahead delay p c) (millis : Rat) (ns : List (Note Rat)) :
    (p.playNotes millis ns).1 =
        { p with timeline := (Chronicle.placeAll c.timeline millis ns).1.remap (· + delay) } ∧
      (p.playNotes millis ns).2.filterMap Order.scheduled? =
        delayed delay p.channel (strikes (c.timeline.lay millis ns)) := by
  induction ns generalizing p c with
  | nil =>
    refine ⟨?_, rfl⟩
    simp only [Performer.playNotes, Chronicle.placeAll, ← h.timeline]
  | cons n rest ih =>
    have hplaced := Timeline.remap_place (monotone_delayed delay) (matches_delayed delay millis)
      c.timeline n
    rw [← h.timeline] at hplaced
    have hnext : Ahead delay (p.playNote n millis).1
        { c with timeline := (c.timeline.place n millis).1 } :=
      ⟨congrArg Prod.fst hplaced, h.tempo, h.noteLength, h.origin⟩
    obtain ⟨hfst, hsnd⟩ := ih hnext
    have hchannel : (p.playNote n millis).1.channel = p.channel := rfl
    have hfirst : (p.playNote n millis).2.filterMap Order.scheduled? =
        delayed delay p.channel (strikes [(n, (c.timeline.place n millis).2)]) := by
      simp only [Performer.playNote, hplaced, Placement.remap, strikes, delayed,
        List.flatMap_cons, List.flatMap_nil, List.append_nil]
      cases (c.timeline.place n millis).2.on <;> cases (c.timeline.place n millis).2.off <;> rfl
    refine ⟨hfst, ?_⟩
    simp only [Performer.playNotes, List.filterMap_append, hfirst, hsnd, hchannel]
    simp [delayed, strikes, Timeline.lay]

/-- An event keeps the performer so much behind, and it orders what the chronicle foretells. -/
theorem hear (h : Ahead delay p c) (now : Nat) {event : Event Rat} (hevent : event ≠ .parsingStarts) :
    Ahead delay (p.hear now event).1 (c.hear event) ∧
      (p.hear now event).2.filterMap Order.scheduled? =
        delayed delay p.channel (c.foretold event) := by
  have hone : ∀ message : Message, (p.order message).2.filterMap Order.scheduled? =
      delayed delay p.channel [(c.timeline.time, message)] := by
    intro message
    simp [Performer.order, Performer.orderAt, Order.scheduled?, delayed, h.time]
  cases event with
  | parsingStarts => exact absurd rfl hevent
  | track n =>
    refine ⟨⟨?_, h.tempo, h.noteLength, h.origin⟩, rfl⟩
    simp only [Performer.hear, Chronicle.hear, h.timeline, Timeline.remap_setTrack]
  | layer n =>
    refine ⟨⟨?_, h.tempo, h.noteLength, h.origin⟩, rfl⟩
    simp only [Performer.hear, Chronicle.hear, h.timeline, Timeline.remap_setLayer]
  | tempo bpm => exact ⟨⟨h.timeline, rfl, h.noteLength, h.origin⟩, rfl⟩
  | bookmark name =>
    refine ⟨⟨?_, h.tempo, h.noteLength, h.origin⟩, rfl⟩
    simp only [Performer.hear, Chronicle.hear, h.timeline, Timeline.remap_setBookmark]
  | bookmarkRequest name =>
    refine ⟨⟨?_, h.tempo, h.noteLength, h.origin⟩, rfl⟩
    simp only [Performer.hear, Chronicle.hear, h.timeline, Timeline.remap_jump]
  | timeRequest beats =>
    refine ⟨⟨?_, h.tempo, h.noteLength, h.origin⟩, rfl⟩
    simp only [Performer.hear, Chronicle.hear, h.timeline, h.origin, h.tempo]
    rw [← Timeline.remap_setTime, add_comm]
  | note n =>
    obtain ⟨hfst, hsnd⟩ := orders_playNotes h (c.millisOf n) [n]
    have hplay : p.hear now (.note n) = p.playNotes (c.millisOf n) [n] := by
      simp only [Performer.hear, Performer.playNotes, h.millisOf, List.append_nil]
    rw [hplay, hfst]
    exact ⟨⟨rfl, h.tempo, h.noteLength, h.origin⟩, hsnd⟩
  | chord chord =>
    obtain ⟨hfst, hsnd⟩ := orders_playNotes h (c.millisOf chord.root) chord.notes
    have hplay : p.hear now (.chord chord) = p.playNotes (c.millisOf chord.root) chord.notes := by
      simp only [Performer.hear, h.millisOf]
    rw [hplay, hfst]
    exact ⟨⟨rfl, h.tempo, h.noteLength, h.origin⟩, hsnd⟩
  | instrument | controller | pitchWheel | channelPressure | polyPressure =>
    exact ⟨⟨h.timeline, h.tempo, h.noteLength, h.origin⟩, hone _⟩
  | _ => exact ⟨⟨h.timeline, h.tempo, h.noteLength, h.origin⟩, rfl⟩

end Ahead

/-- A time that comes after the next millisecond, and at it if it would come before. -/
theorem Tempo.landing_delayed (now : Nat) (time : Rat) :
    max (Tempo.millisecond (time + ((now : Rat) + 1))) (now + 1) =
      now + 1 + (round (max time 0)).toNat := by
  have hcast : (now : Rat) + 1 = ((now + 1 : Nat) : Rat) := (Nat.cast_succ now).symm
  rw [Tempo.millisecond_rat, hcast]
  rcases le_total 0 time with htime | htime
  · have hsum : (0 : Rat) ≤ time + ((now + 1 : Nat) : Rat) := by positivity
    have hround : 0 ≤ round time := by
      rw [round_eq, Int.floor_nonneg]
      positivity
    rw [max_eq_left hsum, max_eq_left htime, round_add_natCast]
    omega
  · have hle : round (max (time + ((now + 1 : Nat) : Rat)) 0) ≤ ((now + 1 : Nat) : Int) := by
      have hmax : max (time + ((now + 1 : Nat) : Rat)) 0 ≤ ((now + 1 : Nat) : Rat) :=
        max_le (by linarith) (by positivity)
      rw [round_eq, ← Int.lt_add_one_iff, Int.floor_lt]
      push_cast at hmax ⊢
      linarith
    rw [max_eq_right htime, round_zero]
    omega

/-- Work that is filed piece by piece. -/
def Queue.addAll {W : Type} (q : Queue W) (pieces : List (Nat × W)) : Queue W :=
  pieces.foldl (fun q piece => q.add piece.1 piece.2) q

/-- A machine that has accepted commands for milliseconds. -/
def Machine.accept {C E I : Type} (m : Machine C E I) (pieces : List (Nat × C)) : Machine C E I :=
  { m with scheduler := { m.scheduler with commands := m.scheduler.commands.addAll pieces } }

namespace Player

/-- What the scheduler accepts of orders. -/
def accepted (p : Player R) (orders : List Order) : List (Nat × Nat × Message) :=
  (orders.filterMap Order.scheduled?).map fun o => (max o.1 (p.now + 1), o.2)

omit [Scalar R] in
theorem carryOutAll_eq (p : Player R) (orders : List Order) :
    (p.carryOutAll orders).1.machine = p.machine.accept (p.accepted orders) ∧
      (p.carryOutAll orders).1.performer = p.performer := by
  induction orders generalizing p with
  | nil => exact ⟨rfl, rfl⟩
  | cons order rest ih =>
    obtain ⟨hmachine, hperformer⟩ := ih (p.carryOut order).1
    cases order <;> exact ⟨hmachine, hperformer⟩

theorem fire_append (p : Player R) (before after : List (Event R)) :
    (p.fire (before ++ after)).1 = ((p.fire before).1.fire after).1 := by
  induction before generalizing p with
  | nil => rfl
  | cons event rest ih => exact ih _

/-- Firing an event has the performer hear it, and its orders are accepted. -/
theorem fire_event (p : Player R) (event : Event R) :
    (p.fire [event]).1.performer = (p.performer.hear p.now event).1 ∧
      (p.fire [event]).1.machine =
        p.machine.accept (p.accepted (p.performer.hear p.now event).2) := by
  obtain ⟨hmachine, hperformer⟩ :=
    carryOutAll_eq { p with performer := (p.performer.hear p.now event).1 }
      (p.performer.hear p.now event).2
  exact ⟨hperformer, hmachine⟩

theorem now_fire (p : Player R) (events : List (Event R)) : (p.fire events).1.now = p.now := by
  induction events generalizing p with
  | nil => rfl
  | cons event rest ih =>
    have hone : (p.fire [event]).1.now = p.now := by
      rw [now, (fire_event p event).2]
      rfl
    rw [← List.singleton_append, fire_append, ih, hone]

/-- Along the events of a text a player is behind the chronicle by what had passed before. -/
theorem ahead_fire {p : Player Rat} {noteLength : Rat} (hfresh : p.performer = .start noteLength)
    {later : List (Event Rat)} (honce : .parsingStarts ∉ later) :
    Ahead ((p.now : Rat) + 1) (p.fire (.parsingStarts :: later)).1.performer
      (Chronicle.heard noteLength (.parsingStarts :: later)) := by
  induction later using List.reverseRecOn with
  | nil =>
    rw [(fire_event p .parsingStarts).1, hfresh]
    exact Ahead.start p.now noteLength
  | append_singleton later event ih =>
    rw [List.mem_append, not_or, List.mem_singleton] at honce
    have hheard : Chronicle.heard noteLength (.parsingStarts :: later ++ [event]) =
        (Chronicle.heard noteLength (.parsingStarts :: later)).hear event := by
      simp [Chronicle.heard]
    rw [← List.cons_append, fire_append, (fire_event _ event).1, hheard]
    exact ((ih honce.1).hear _ (Ne.symm honce.2)).1

/-- When a text is taken in with `n` as the last millisecond begun, the cursors and bookmarks of the
player are those of a chronicle shifted by `n + 1`, and so is every note that it places. What is
scheduled of an event is what the chronicle foretells, each message so many milliseconds after
`n + 1` as the chronicle has it after the start; a note or a chord is filed there by the chronicle
itself. -/
theorem plays_as_foretold (p : Player Rat) {noteLength : Rat}
    (hfresh : p.performer = .start noteLength) {before : List (Event Rat)} {event : Event Rat}
    (honce : .parsingStarts ∉ before ++ [event]) :
    let q := (p.fire (.parsingStarts :: before)).1
    let c := Chronicle.heard noteLength (.parsingStarts :: before)
    q.performer.timeline = c.timeline.remap (· + ((p.now : Rat) + 1)) ∧
      q.performer.placed event =
        (c.placed event).map (fun np => (np.1, np.2.remap (· + ((p.now : Rat) + 1)))) ∧
      (q.fire [event]).1.machine = q.machine.accept ((c.foretold event).map fun tm =>
        (p.now + 1 + (round (max tm.1 0)).toNat, c.timeline.track.val, tm.2)) ∧
      ∀ n placement, (c.placed event).head? = some (n, placement) →
        (c.hear event).entries = c.entries.add (round (max placement.start 0)).toNat
          ⟨c.timeline.track.val, c.timeline.layer.val, event⟩ := by
  intro q c
  rw [List.mem_append, not_or, List.mem_singleton] at honce
  have hahead : Ahead ((p.now : Rat) + 1) q.performer c := ahead_fire hfresh honce.1
  have hnow : q.now = p.now := now_fire p _
  obtain ⟨-, horders⟩ := hahead.hear q.now (Ne.symm honce.2)
  refine ⟨hahead.timeline, hahead.placed event, ?_, fun n placement hfirst => ?_⟩
  · rw [(fire_event q event).2, accepted, horders, hnow, hahead.channel, Ahead.delayed,
      List.map_map]
    refine congrArg _ (List.map_congr_left fun tm _ => ?_)
    simp only [Function.comp_apply, Tempo.landing_delayed]
  · rw [Chronicle.entries_hear_placed c hfirst, Tempo.millisecond_rat]

/-- At tempo 90, a chord on the third track that is requested for half a whole note after the start. -/
def triadAtHalf : List (Event Rat) :=
  [.tempo 90, .track 2, .timeRequest (1 / 2)]

/-- It is played from 1333 to 2000 milliseconds after the next one. -/
theorem triadAtHalf_foretold :
    let p : Player Rat := .start .standard 1000
    p.performer = .start (1 / 4) ∧ .parsingStarts ∉ triadAtHalf ++ [.chord Sequencer.joinedTriad] ∧
      ((p.fire (.parsingStarts :: triadAtHalf)).1.fire [.chord Sequencer.joinedTriad]).1.machine =
        (p.fire (.parsingStarts :: triadAtHalf)).1.machine.accept
          [(2334, 2, .noteOn 48 64), (3001, 2, .noteOff 48 64), (2334, 2, .noteOn 52 64),
            (3001, 2, .noteOff 52 64), (2334, 2, .noteOn 55 64), (3001, 2, .noteOff 55 64)] := by
  intro p
  have hfresh : p.performer = .start (1 / 4) := rfl
  have honce : .parsingStarts ∉ triadAtHalf ++ [.chord Sequencer.joinedTriad] := by
    simp [triadAtHalf]
  obtain ⟨-, -, hmachine, -⟩ := plays_as_foretold p hfresh honce
  refine ⟨hfresh, honce, hmachine.trans (congrArg _ ?_)⟩
  decide +kernel

end Player

end ScoreText
