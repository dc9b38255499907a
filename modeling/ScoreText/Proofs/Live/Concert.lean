import ScoreText.Proofs.Live.Passing
import ScoreText.Proofs.Live.Sounding

/-!
No note is left sounding, and none is let go before it sounds. Texts without ties are played as time
goes on, one over another where they overlap: at every point as many keys of every channel have been
struck as let go, or more; each key on the channel of the voice that it was written for; and once
nothing is left to do, all that were struck have been let go.
-/

set_option autoImplicit false

namespace ScoreText

namespace Machine

variable {C E I : Type} {m : Machine C E I}

theorem Plain.accept (h : m.Plain) (pieces : List (Nat × C)) : (m.accept pieces).Plain :=
  ⟨h.tick, h.events, h.glides⟩

theorem Books.acceptAll {l : Ledger C} (h : m.Books l) {pieces : List (Nat × C)}
    (hlater : ∀ piece ∈ pieces, m.scheduler.now < piece.1) :
    ∃ l', (m.accept pieces).Books l' ∧ l'.orders = l.orders ++ pieces ∧ l'.ran = l.ran := by
  induction pieces generalizing m l with
  | nil => exact ⟨l, h, (List.append_nil _).symm, rfl⟩
  | cons piece rest ih =>
    obtain ⟨hpiece, hrest⟩ := List.forall_mem_cons.mp hlater
    obtain ⟨l', hbooks, horders, hran⟩ := ih (h.accept piece.2 hpiece) hrest
    refine ⟨l', hbooks, ?_, hran⟩
    rw [horders]
    exact List.append_assoc _ _ _

end Machine

namespace Player

variable {R : Type} [Scalar R]

/-- What is done with a player. -/
inductive Deed where
  | play (text : Text)
  | advance (time : Nat)

/-- The player after a deed, and what its sink gets meanwhile. -/
def perform (p : Player R) : Deed → Player R × List Sent
  | .play text => ((p.play text).1, (p.play text).2.1)
  | .advance time => ((p.advanceTo time).1, (p.advanceTo time).2.messages.map Prod.snd)

def performAll (p : Player R) : List Deed → Player R × List Sent
  | [] => (p, [])
  | deed :: rest =>
    let (q, sent) := p.perform deed
    let (q, more) := q.performAll rest
    (q, sent ++ more)

/-- The events that the parser announces, of all texts in order. -/
def announced (p : Player R) : List Deed → List (Event R)
  | [] => []
  | .play text :: rest => (p.parser.parse text).events ++ (p.perform (.play text)).1.announced rest
  | .advance time :: rest => (p.perform (.advance time)).1.announced rest

omit [Scalar R] in
/-- Nothing is sent of what is for later. -/
theorem sent_carryOutAll {orders : List Order} (h : ∀ order ∈ orders, order.scheduled?.isSome = true)
    (p : Player R) : (p.carryOutAll orders).2 = [] := by
  induction orders generalizing p with
  | nil => rfl
  | cons order rest ih =>
    obtain ⟨horder, hrest⟩ := List.forall_mem_cons.mp h
    cases order with
    | later => exact ih hrest _
    | atOnce => cases horder

theorem sent_fire_cons (p : Player R) (event : Event R) (rest : List (Event R)) :
    (p.fire (event :: rest)).2 = (p.fire [event]).2 ++ ((p.fire [event]).1.fire rest).2 := by
  simp [fire]

omit [Scalar R] in
/-- What a player schedules is for milliseconds that have not begun. -/
theorem later_accepted (p : Player R) (orders : List Order) :
    ∀ piece ∈ p.accepted orders, p.now < piece.1 := by
  intro piece hpiece
  obtain ⟨order, -, rfl⟩ := List.mem_map.mp hpiece
  exact Nat.lt_of_succ_le (le_max_right _ _)

/-- Happenings that are commands only. -/
theorem messages_realizeAll (sink : Sink) (runs : List (Nat × Nat × Nat × Message)) :
    (realizeAll R sink (Machine.historyOf runs).reverse).2.messages =
      runs.map fun e => (e.1, Sent.ofWork e.2.2) := by
  rw [Machine.historyOf, List.reverse_reverse]
  induction runs generalizing sink with
  | nil => rfl
  | cons run rest ih => exact congrArg _ (ih _)

/-- How a player stands when texts without ties have been played: the books say which strokes are
written, and which of them have been recorded. -/
structure Concert (p : Player Rat) (recorded : List Sent) (told : List (Event Rat))
    (l : Ledger (Nat × Message)) : Prop where
  plain : p.machine.Plain
  history : p.machine.history = []
  books : p.machine.Books l
  recorded : recorded = l.ran.map fun e => Sent.ofWork e.2.2
  paired : Paired l.orders
  written : (l.orders.map fun o => Sent.ofWork o.2).filter Sent.isStroke = Event.written 0 told
  voice : p.performer.channel = told.foldl Event.voiceAfter 0
  noteLength : 0 ≤ p.performer.noteLength

namespace Concert

variable {p : Player Rat} {recorded : List Sent} {told : List (Event Rat)}
  {l : Ledger (Nat × Message)}

theorem start {dialect : Dialect Rat} (h : 0 ≤ dialect.settings.notes.length) (time : Nat) :
    Concert (.start dialect time) [] [] ⟨time, [], [], [], [], {}⟩ where
  plain := ⟨rfl, rfl, rfl⟩
  history := rfl
  books := ⟨rfl, rfl, rfl, rfl, Ledger.balanced_start time⟩
  recorded := rfl
  paired := .nil
  written := rfl
  voice := rfl
  noteLength := h

/-- An event that is heard sends nothing yet; its strokes are in the books. -/
theorem event (h : Concert p recorded told l) {e : Event Rat} (htells : e.Tells) (huntied : e.Untied) :
    (p.fire [e]).2 = [] ∧ ∃ l', Concert (p.fire [e]).1 recorded (told ++ [e]) l' := by
  obtain ⟨hstrike, hvoice, hlength⟩ :=
    Performer.strike_hear p.now h.noteLength htells huntied
  obtain ⟨hperformer, hmachine⟩ := fire_event p e
  obtain ⟨l', hbooks, horders, hran⟩ :=
    h.books.acceptAll (later_accepted p (p.performer.hear p.now e).2)
  have hsent : (p.fire [e]).2 = [] := by
    simpa [Player.fire] using sent_carryOutAll hstrike.later _
  refine ⟨hsent, l', hmachine ▸ h.plain.accept _, ?_, hmachine ▸ hbooks, ?_, ?_, ?_, ?_, ?_⟩
  · rw [hmachine]
    exact h.history
  · rw [hran]
    exact h.recorded
  · rw [horders]
    exact h.paired.append hstrike.paired
  · rw [horders, List.map_append, List.filter_append, h.written, Event.written_append, ← h.voice]
    exact congrArg _ (hstrike.strokes.trans (List.append_nil _).symm)
  · rw [hperformer, hvoice, h.voice, List.foldl_append]
    rfl
  · rw [hperformer, hlength]
    exact h.noteLength

theorem fire (h : Concert p recorded told l) {es : List (Event Rat)} (htells : ∀ e ∈ es, e.Tells)
    (huntied : ∀ e ∈ es, e.Untied) :
    (p.fire es).2 = [] ∧ ∃ l', Concert (p.fire es).1 recorded (told ++ es) l' := by
  induction es generalizing p told l with
  | nil =>
    rw [List.append_nil]
    exact ⟨rfl, l, h⟩
  | cons e rest ih =>
    obtain ⟨htell, htells⟩ := List.forall_mem_cons.mp htells
    obtain ⟨hone, huntied⟩ := List.forall_mem_cons.mp huntied
    obtain ⟨hsent, l₁, h₁⟩ := h.event htell hone
    obtain ⟨hmore, l₂, h₂⟩ := ih h₁ htells huntied
    rw [List.append_assoc] at h₂
    refine ⟨?_, l₂, ?_⟩
    · rw [sent_fire_cons, hsent, hmore, List.append_nil]
    · rw [← List.singleton_append, fire_append]
      exact h₂

/-- A text sends nothing by itself, whether all of it could be read or not. -/
theorem play (h : Concert p recorded told l) {text : Text}
    (huntied : ∀ e ∈ (p.parser.parse text).events, e.Untied) :
    (p.play text).2.1 = [] ∧
      ∃ l', Concert (p.play text).1 recorded (told ++ (p.parser.parse text).events) l' := by
  have hread : Concert { p with parser :=
      { p.parser with memory := (p.parser.parse text).memory } } recorded told l :=
    ⟨h.plain, h.history, h.books, h.recorded, h.paired, h.written, h.voice, h.noteLength⟩
  exact hread.fire (Event.tells_parse p.parser text) huntied

/-- As time advances, what is due is recorded. -/
theorem advance (h : Concert p recorded told l) (time : Nat) :
    ∃ l', Concert (p.advanceTo time).1
      (recorded ++ (p.advanceTo time).2.messages.map Prod.snd) told l' := by
  have hquiet : ∀ work, (script Rat).command work = [] := fun _ => rfl
  obtain ⟨l', new, hplain, hbooks, horders, hran, hhistory⟩ :=
    h.books.pass hquiet h.plain (time - p.machine.scheduler.now)
  rw [h.history, List.append_nil] at hhistory
  have hmessages : (p.advanceTo time).2.messages = new.map fun e => (e.1, Sent.ofWork e.2.2) := by
    rw [← messages_realizeAll (R := Rat) p.sink new, ← hhistory]
    rfl
  refine ⟨l', ⟨hplain.tick, hplain.events, hplain.glides⟩, rfl,
    ⟨hbooks.now, hbooks.queue, hbooks.left, hbooks.gone, hbooks.balanced⟩, ?_, horders ▸ h.paired,
    horders ▸ h.written, h.voice, h.noteLength⟩
  rw [hmessages, h.recorded, hran, List.map_append, List.map_map]
  rfl

theorem performAll (h : Concert p recorded told l) {deeds : List Deed}
    (huntied : ∀ e ∈ p.announced deeds, e.Untied) :
    ∃ l', Concert (p.performAll deeds).1 (recorded ++ (p.performAll deeds).2)
      (told ++ p.announced deeds) l' := by
  induction deeds generalizing p recorded told l with
  | nil =>
    refine ⟨l, ?_⟩
    simpa [Player.performAll, announced] using h
  | cons deed rest ih =>
    cases deed with
    | play text =>
      obtain ⟨hone, hrest⟩ := List.forall_mem_append.mp huntied
      obtain ⟨hsent, l₁, h₁⟩ := h.play hone
      obtain ⟨l₂, h₂⟩ := ih h₁ hrest
      refine ⟨l₂, ?_⟩
      rw [List.append_assoc] at h₂
      simpa [Player.performAll, perform, announced, hsent] using h₂
    | advance time =>
      obtain ⟨l₁, h₁⟩ := h.advance time
      obtain ⟨l₂, h₂⟩ := ih h₁ huntied
      refine ⟨l₂, ?_⟩
      rw [List.append_assoc] at h₂
      exact h₂

/-- What has been recorded is what has run, which is part of what is in the books. -/
theorem subperm (h : Concert p recorded told l) :
    (recorded.filter Sent.isStroke).Subperm (Event.written 0 told) := by
  have hran : recorded.Sublist (l.schedule.map fun e => Sent.ofWork e.2.2) := by
    rw [h.recorded, Ledger.schedule, List.append_assoc, List.map_append]
    exact List.sublist_append_left _ _
  have hworks := ((h.books.balanced.perm_works h.books.gone).map Sent.ofWork).filter Sent.isStroke
  rw [List.map_map, List.map_map] at hworks
  rw [← h.written]
  exact (hran.filter _).subperm.trans hworks.subperm

/-- Once nothing is left to do, all that is in the books has been recorded. -/
theorem perm_of_isFinished (h : Concert p recorded told l) (hfinished : p.isFinished = true) :
    recorded.Perm (l.orders.map fun o => Sent.ofWork o.2) := by
  have hworks := (h.books.balanced.perm_works h.books.gone).map Sent.ofWork
  rw [h.books.schedule_of_isIdle hfinished, List.map_map, List.map_map] at hworks
  rw [h.recorded]
  exact hworks

end Concert

/-- Texts without ties, such as those that come to a text without a dash, are played and time advances,
in any order, over and over; texts that cannot be read to the end are played as far as they go.
However much has been recorded, no key of any channel has been let go more often than struck. Every
stroke recorded is one that was written, on the channel of the voice it was written for. Whenever the
player is finished, all the strokes written have been recorded, and every key of every channel has
been let go as often as it was struck. -/
theorem no_stuck_notes {dialect : Dialect Rat} (hlength : 0 ≤ dialect.settings.notes.length)
    (time : Nat) {deeds : List Deed}
    (huntied : ∀ e ∈ (Player.start dialect time).announced deeds, e.Untied) :
    let told := (Player.start dialect time).announced deeds
    let (p, recorded) := (Player.start dialect time).performAll deeds
    (∀ before, before <+: recorded → ∀ channel note,
        before.countP (Sent.ends channel note) ≤ before.countP (Sent.starts channel note)) ∧
      (recorded.filter Sent.isStroke).Subperm (Event.written 0 told) ∧
      (p.isFinished = true →
        (recorded.filter Sent.isStroke).Perm (Event.written 0 told) ∧
        ∀ channel note,
          recorded.countP (Sent.ends channel note) = recorded.countP (Sent.starts channel note)) := by
  obtain ⟨l, h⟩ := (Concert.start hlength time).performAll huntied
  rw [List.nil_append, List.nil_append] at h
  refine ⟨fun before hbefore channel note => ?_, h.subperm, fun hfinished => ⟨?_, fun channel note => ?_⟩⟩
  · rw [h.recorded] at hbefore
    obtain ⟨ran, hran, rfl⟩ := List.prefix_map_iff.mp hbefore
    exact h.books.balanced.ends_le_starts h.books.gone h.paired hran channel note
  · rw [← h.written]
    exact (h.perm_of_isFinished hfinished).filter _
  · rw [(h.perm_of_isFinished hfinished).countP_eq, (h.perm_of_isFinished hfinished).countP_eq]
    exact h.paired.ends_eq_starts channel note

/-- A dialect that knows no names. -/
def nameless : Dialect Rat := { Dialect.standard with symbols := .empty }

/-- A text is played while another sounds, and breaks off at a name. -/
def overlap : List Deed :=
  [.play "T6000 C5Q".toList, .advance 6, .play "V1 E5Q C5Q I[NONE] G5Q".toList, .advance 40]

/-- The three notes before the name are played and let go. -/
theorem overlap_no_stuck_notes :
    0 ≤ nameless.settings.notes.length ∧
      (∀ e ∈ (Player.start nameless 0).announced overlap, e.Untied) ∧
      ((Player.start nameless 0).performAll overlap).1.isFinished = true ∧
      ((Player.start nameless 0).performAll overlap).2.length = 6 ∧
      ∀ channel note,
        ((Player.start nameless 0).performAll overlap).2.countP (Sent.ends channel note) =
          ((Player.start nameless 0).performAll overlap).2.countP (Sent.starts channel note) := by
  have hlength : 0 ≤ nameless.settings.notes.length := by decide +kernel
  have huntied : ∀ e ∈ (Player.start nameless 0).announced overlap, e.Untied := by decide +kernel
  have hfinished : ((Player.start nameless 0).performAll overlap).1.isFinished = true := by
    decide +kernel
  obtain ⟨-, -, hend⟩ := no_stuck_notes hlength 0 huntied
  exact ⟨hlength, huntied, hfinished, by decide +kernel, (hend hfinished).2⟩

end Player

end ScoreText
