import ScoreText.Proofs.Live.Foretold
import ScoreText.Proofs.Live.Strokes
import ScoreText.Proofs.Notation.Ties

/-!
What a performer orders of events that are tied to nothing: each key is struck, and let go no earlier,
on the channel of the voice in force.
-/

set_option autoImplicit false

namespace ScoreText

/-- What a sink gets of a note in a voice, unless the note is a rest. -/
def Note.strokes {R : Type} (n : Note R) (voice : Nat) : List Sent :=
  if n.isRest then []
  else [⟨voice, .noteOn n.value n.attack⟩, ⟨voice, .noteOff n.value n.decay⟩]

namespace Event

variable {R : Type}

/-- The voice in force after an event. -/
def voiceAfter (voice : Nat) : Event R → Nat
  | .track n => n
  | _ => voice

/-- The keys that an event strikes and lets go in a voice. -/
def strokes [Scalar R] (voice : Nat) : Event R → List Sent
  | .note n => n.strokes voice
  | .chord c => c.notes.flatMap fun n => n.strokes voice
  | _ => []

/-- The keys that events strike and let go, from a voice on, each on the channel of the voice that it is
written for. -/
def written [Scalar R] (voice : Nat) : List (Event R) → List Sent
  | [] => []
  | e :: rest => e.strokes voice ++ written (e.voiceAfter voice) rest

theorem written_append [Scalar R] (voice : Nat) (es fs : List (Event R)) :
    written voice (es ++ fs) = written voice es ++ written (es.foldl voiceAfter voice) fs := by
  induction es generalizing voice with
  | nil => rfl
  | cons e rest ih => simp only [List.cons_append, written, ih, List.foldl_cons, List.append_assoc]

/-- An event that a text can announce. -/
structure Tells (e : Event R) : Prop where
  pressed : e.kind ≠ .notePressed
  released : e.kind ≠ .noteReleased
  voice : ∀ n, e = .track n → n ≤ 15

theorem tells_parse [Scalar R] (p : Parser R) (text : Text) : ∀ e ∈ (p.parse text).events, e.Tells := by
  have hread : ∀ e ∈ (p.readText text).events, e.Tells := by
    refine Parser.forall_readText fun _ _ memory fragment family _ e he => ?_
    have hkind := family.kind_read ⟨p.dialect, memory⟩ fragment e he
    have hout : ∀ family : Family, EventKind.notePressed ∉ family.kinds ∧
        EventKind.noteReleased ∉ family.kinds := by
      intro family
      cases family <;> decide
    refine ⟨fun h => (hout family).1 (h ▸ hkind), fun h => (hout family).2 (h ▸ hkind), ?_⟩
    rintro n rfl
    exact Nat.le_of_lt_succ (Family.track_read he)
  have hends : ∀ e : Event R, e = .parsingStarts ∨ e = .parsingEnds → e.Tells := by
    rintro e (rfl | rfl) <;> exact ⟨nofun, nofun, nofun⟩
  refine List.forall_mem_append.mpr ⟨List.forall_mem_cons.mpr ⟨hends _ (.inl rfl), hread⟩, ?_⟩
  exact List.forall_mem_singleton.mpr (hends _ (.inr rfl))

end Event

/-- A chord's notes have the ties of its root. -/
theorem Chord.untied_notes {R : Type} [Scalar R] {c : Chord R}
    (h : c.root.Untied) : ∀ n ∈ c.notes, n.Untied :=
  forall_mem_notes h (fun _ => h) (fun _ hn => hn) fun _ _ _ _ hn => hn

theorem Tempo.millisecond_mono {a b : Rat} (h : a ≤ b) : millisecond a ≤ millisecond b := by
  rw [millisecond_rat, millisecond_rat, round_eq, round_eq]
  exact Int.toNat_le_toNat (Int.floor_le_floor (add_le_add_left (max_le_max_right 0 h) _))

namespace Order

/-- What a scheduler accepts of orders, with `now` as the last millisecond begun. -/
def accepted (now : Nat) (orders : List Order) : List (Nat × Nat × Message) :=
  (orders.filterMap scheduled?).map fun o => (max o.1 (now + 1), o.2)

/-- Orders for later on that strike keys and let them go, each key in its turn. -/
structure Strike (now : Nat) (orders : List Order) (strokes : List Sent) : Prop where
  later : ∀ order ∈ orders, order.scheduled?.isSome = true
  paired : Paired (accepted now orders)
  strokes : ((accepted now orders).map fun o => Sent.ofWork o.2).filter Sent.isStroke = strokes

namespace Strike

variable {now : Nat}

theorem nil : Strike now [] [] := ⟨by simp, .nil, rfl⟩

theorem append {orders more : List Order} {strokes moreStrokes : List Sent}
    (h : Strike now orders strokes) (hmore : Strike now more moreStrokes) :
    Strike now (orders ++ more) (strokes ++ moreStrokes) := by
  have haccepted : accepted now (orders ++ more) = accepted now orders ++ accepted now more := by
    simp [accepted]
  refine ⟨List.forall_mem_append.mpr ⟨h.later, hmore.later⟩, ?_, ?_⟩
  · rw [haccepted]
    exact h.paired.append hmore.paired
  · rw [haccepted, List.map_append, List.filter_append, h.strokes, hmore.strokes]

/-- Any other message is for later on too. -/
theorem quiet (millisecond channel : Nat) {message : Message}
    (h : (Sent.ofWork (channel, message)).isStroke = false) :
    Strike now [.later millisecond channel message] [] := by
  refine ⟨by simp [scheduled?], .other h .nil, ?_⟩
  simp [accepted, scheduled?, h]

end Strike

end Order

namespace Performer

variable {p : Performer Rat} {now : Nat}

theorem strike_playNote {n : Note Rat} (hn : n.Untied) {millis : Rat}
    (hmillis : 0 ≤ millis) :
    Order.Strike now (p.playNote n millis).2 (n.strokes p.channel) := by
  have hchannel : p.channel % 16 = p.channel := Nat.mod_eq_of_lt p.timeline.track.isLt
  have hle : (p.timeline.cursor.approach n).time ≤ ((p.timeline.cursor.approach n).advance millis).time :=
    le_add_of_nonneg_right hmillis
  cases hrest : n.isRest with
  | true =>
    have horders : (p.playNote n millis).2 = [] := by simp [playNote, Timeline.place, hrest]
    rw [horders, Note.strokes, if_pos hrest]
    exact .nil
  | false =>
    have horders : (p.playNote n millis).2 =
        [p.orderAt (p.timeline.cursor.approach n).time (.noteOn n.value n.attack),
          p.orderAt ((p.timeline.cursor.approach n).advance millis).time
            (.noteOff n.value n.decay)] := by
      simp [playNote, Timeline.place, hrest, hn.1, hn.2]
    rw [horders, Note.strokes, if_neg (by rw [hrest]; exact Bool.false_ne_true)]
    refine ⟨by simp [orderAt, Order.scheduled?], .stroke ?_ .nil, ?_⟩
    · exact max_le_max_right _ (Tempo.millisecond_mono hle)
    · simp [Order.accepted, orderAt, Order.scheduled?, Sent.ofWork, Sent.isStroke, Message.struck?,
        Message.released?, hchannel]

theorem strike_playNotes {ns : List (Note Rat)}
    (hns : ∀ n ∈ ns, n.Untied) {millis : Rat} (hmillis : 0 ≤ millis) :
    Order.Strike now (p.playNotes millis ns).2 (ns.flatMap fun n => n.strokes p.channel) ∧
      (p.playNotes millis ns).1.channel = p.channel ∧
      (p.playNotes millis ns).1.noteLength = p.noteLength := by
  induction ns generalizing p with
  | nil => exact ⟨.nil, rfl, rfl⟩
  | cons n rest ih =>
    obtain ⟨hn, hrest⟩ := List.forall_mem_cons.mp hns
    obtain ⟨hstrike, hchannel, hlength⟩ := ih (p := (p.playNote n millis).1) hrest
    exact ⟨(strike_playNote hn hmillis).append hstrike, hchannel, hlength⟩

theorem millisOf_nonneg (h : 0 ≤ p.noteLength) (n : Note Rat) : 0 ≤ p.millisOf n := by
  have hlength : 0 ≤ Timeline.lengthOf n p.noteLength := Timeline.lengthOf_nonneg n h
  have htempo : (0 : Rat) < ((max p.tempo 1 : Nat) : Rat) := by
    exact_mod_cast Nat.lt_of_lt_of_le Nat.zero_lt_one (le_max_right _ _)
  change 0 ≤ Timeline.lengthOf n p.noteLength * ((4 : Nat) : Rat) * ((60000 : Nat) : Rat) / _
  exact div_nonneg (mul_nonneg (mul_nonneg hlength (by norm_num)) (by norm_num)) htempo.le

theorem channel_jump (t : Timeline Rat) (name : Text) : (t.jump name).track = t.track := by
  unfold Timeline.jump Timeline.jump?
  cases t.bookmark? name <;> rfl

variable (now) in
/-- An event strikes its keys on the channel of the voice in force, and sees to it that those to come are
struck on the channel of theirs. -/
theorem strike_hear (h : 0 ≤ p.noteLength) {e : Event Rat} (htells : e.Tells) (huntied : e.Untied) :
    Order.Strike now (p.hear now e).2 (e.strokes p.channel) ∧
      (p.hear now e).1.channel = e.voiceAfter p.channel ∧
      (p.hear now e).1.noteLength = p.noteLength := by
  cases e with
  | note n => exact ⟨strike_playNote huntied (millisOf_nonneg h n), rfl, rfl⟩
  | chord c => exact strike_playNotes (Chord.untied_notes huntied) (millisOf_nonneg h c.root)
  | notePressed n => exact absurd rfl htells.pressed
  | noteReleased n => exact absurd rfl htells.released
  | track n => exact ⟨.nil, Nat.min_eq_left (htells.voice n rfl), rfl⟩
  | bookmarkRequest name =>
    exact ⟨.nil, congrArg Fin.val (channel_jump p.timeline name), rfl⟩
  | instrument | controller | pitchWheel | channelPressure | polyPressure =>
    exact ⟨.quiet _ _ rfl, rfl, rfl⟩
  | _ => exact ⟨.nil, rfl, rfl⟩

end Performer

end ScoreText
