import Mathlib.Data.List.Perm.Subperm
import ScoreText.Live.Sink
import ScoreText.Proofs.Live.Ledger

/-!
Strokes: a note-on and the note-off that ends it, accepted one right after the other for the same
millisecond or a later one. However much of such a schedule has run, no key of a channel is let go more
often than it was struck.
-/

set_option autoImplicit false

namespace ScoreText

namespace Message

/-- The key that a message strikes. -/
def struck? : Message → Option Nat
  | .noteOn note _ => some note
  | _ => none

/-- The key that a message lets go. -/
def released? : Message → Option Nat
  | .noteOff note _ => some note
  | _ => none

end Message

namespace Sent

/-- What a sink sends of a message for a channel. -/
def ofWork (work : Nat × Message) : Sent := ⟨work.1 % 16, work.2⟩

def starts (channel note : Nat) (s : Sent) : Bool :=
  s.channel == channel && s.message.struck? == some note

def ends (channel note : Nat) (s : Sent) : Bool :=
  s.channel == channel && s.message.released? == some note

/-- Whether the message strikes a key or lets one go. -/
def isStroke (s : Sent) : Bool := s.message.struck?.isSome || s.message.released?.isSome

theorem ends_iff {channel note : Nat} {s : Sent} :
    s.ends channel note = true ↔ s.channel = channel ∧ ∃ decay, s.message = .noteOff note decay := by
  obtain ⟨c, message⟩ := s
  cases message <;> simp [ends, Message.released?]

theorem starts_iff {channel note : Nat} {s : Sent} :
    s.starts channel note = true ↔ s.channel = channel ∧ ∃ attack, s.message = .noteOn note attack := by
  obtain ⟨c, message⟩ := s
  cases message <;> simp [starts, Message.struck?]

end Sent

/-- Messages for channels with the milliseconds they are for, in the order of acceptance: every
note-off comes right after a note-on of its key and channel, for no earlier millisecond, and every
note-on right before one. -/
inductive Paired : List (Nat × Nat × Message) → Prop where
  | nil : Paired []
  | other {time channel : Nat} {message : Message} {rest : List (Nat × Nat × Message)}
    (quiet : (Sent.ofWork (channel, message)).isStroke = false) (paired : Paired rest) :
    Paired ((time, channel, message) :: rest)
  | stroke {start finish channel note attack decay : Nat} {rest : List (Nat × Nat × Message)}
    (le : start ≤ finish) (paired : Paired rest) :
    Paired ((start, channel, .noteOn note attack) :: (finish, channel, .noteOff note decay) :: rest)

namespace Paired

variable {ps qs : List (Nat × Nat × Message)}

theorem append (hp : Paired ps) (hq : Paired qs) : Paired (ps ++ qs) := by
  induction hp with
  | nil => exact hq
  | other quiet _ ih => exact .other quiet ih
  | stroke le _ ih => exact .stroke le ih

/-- Right before a note-off stands its note-on. -/
theorem on_of_off (h : Paired ps) {k finish channel note decay : Nat}
    (hk : ps[k]? = some (finish, channel, .noteOff note decay)) :
    ∃ j start attack, k = j + 1 ∧ ps[j]? = some (start, channel, .noteOn note attack) ∧
      start ≤ finish := by
  induction h generalizing k with
  | nil => cases hk
  | other quiet _ ih =>
    cases k with
    | zero =>
      cases hk
      cases quiet
    | succ k =>
      obtain ⟨j, start, attack, rfl, hj, hle⟩ := ih hk
      exact ⟨j + 1, start, attack, rfl, hj, hle⟩
  | stroke le _ ih =>
    match k, hk with
    | 0, hk => cases hk
    | 1, hk =>
      cases hk
      exact ⟨0, _, _, rfl, rfl, le⟩
    | k + 2, hk =>
      obtain ⟨j, start, attack, rfl, hj, hle⟩ := ih hk
      exact ⟨j + 2, start, attack, rfl, hj, hle⟩

/-- As many keys are let go as are struck. -/
theorem ends_eq_starts (h : Paired ps) (channel note : Nat) :
    (ps.map fun p => Sent.ofWork p.2).countP (Sent.ends channel note) =
      (ps.map fun p => Sent.ofWork p.2).countP (Sent.starts channel note) := by
  induction h with
  | nil => rfl
  | @other time c message rest quiet _ ih =>
    have hnone : message.struck? = none ∧ message.released? = none := by
      simpa [Sent.isStroke, Sent.ofWork] using quiet
    have hends : (Sent.ofWork (c, message)).ends channel note = false := by
      simp [Sent.ends, Sent.ofWork, hnone.2]
    have hstarts : (Sent.ofWork (c, message)).starts channel note = false := by
      simp [Sent.starts, Sent.ofWork, hnone.1]
    rw [List.map_cons, List.countP_cons, List.countP_cons, ih, hends, hstarts]
  | @stroke start finish c n attack decay rest _ _ ih =>
    have hon : (Sent.ofWork (c, .noteOn n attack)).ends channel note = false := by
      simp [Sent.ends, Sent.ofWork, Message.released?]
    have hoff : (Sent.ofWork (c, .noteOff n decay)).starts channel note = false := by
      simp [Sent.starts, Sent.ofWork, Message.struck?]
    have hsame : (Sent.ofWork (c, .noteOff n decay)).ends channel note =
        (Sent.ofWork (c, .noteOn n attack)).starts channel note := by
      simp [Sent.starts, Sent.ends, Sent.ofWork, Message.struck?, Message.released?]
    simp only [List.map_cons, List.countP_cons, ih, hon, hoff, hsame, Bool.false_eq_true, if_false,
      Nat.add_zero]

end Paired

namespace Ledger

theorem filterMap_range_getElem? {α : Type} (l : List α) :
    (List.range l.length).filterMap (fun k => l[k]?) = l := by
  induction l with
  | nil => rfl
  | cons a rest ih =>
    rw [List.length_cons, List.range_succ_eq_map, List.filterMap_cons_some List.getElem?_cons_zero,
      List.filterMap_map]
    exact congrArg _ ih

variable {W : Type} {l : Ledger W}

theorem Before.asymm {a b : Nat × Nat × W} (h : Before a b) : ¬ Before b a := by
  rintro (hlt | ⟨heq, hlt⟩) <;> rcases h with h | ⟨h, h'⟩ <;> omega

/-- Every piece of work that was never taken back stands in the schedule. -/
theorem Balanced.mem_schedule (h : l.Balanced) (hgone : l.gone = []) {number time : Nat} {work : W}
    (horder : l.orders[number]? = some (time, work)) : (time, number, work) ∈ l.schedule := by
  have hlt := (List.getElem?_eq_some_iff.mp horder).1
  have hmem : number ∈ numbers l.schedule := by
    have := h.complete.mem_iff.mpr (List.mem_range.mpr hlt)
    rwa [hgone, List.append_nil] at this
  obtain ⟨⟨t, k, w⟩, he, rfl⟩ := List.mem_map.mp hmem
  have hagrees := h.agrees _ he
  rw [horder] at hagrees
  obtain ⟨rfl, rfl⟩ := Prod.mk.inj (Option.some.inj hagrees)
  exact he

/-- What comes before something that has run has run before it. -/
theorem Balanced.mem_of_before (h : l.Balanced) (hgone : l.gone = [])
    {pre : List (Nat × Nat × W)} (hpre : pre <+: l.ran) {number time : Nat} {work : W}
    (horder : l.orders[number]? = some (time, work)) {e : Nat × Nat × W} (he : e ∈ pre)
    (hbefore : Before (time, number, work) e) : (time, number, work) ∈ pre := by
  obtain ⟨after, hafter⟩ := hpre
  have hmem := h.mem_schedule hgone horder
  have hsorted := h.sorted
  simp only [schedule, ← hafter, List.append_assoc] at hmem hsorted
  refine (List.mem_append.mp hmem).resolve_right fun hlate => ?_
  exact hbefore.asymm ((List.pairwise_append.mp hsorted).2.2 e he _ hlate)

/-- The schedule holds the work of all orders. -/
theorem Balanced.perm_works (h : l.Balanced) (hgone : l.gone = []) :
    (l.schedule.map fun e => e.2.2).Perm (l.orders.map Prod.snd) := by
  have hcomplete := h.complete
  rw [hgone, List.append_nil] at hcomplete
  have hschedule : (numbers l.schedule).filterMap (fun k => l.orders[k]?.map Prod.snd) =
      l.schedule.map fun e => e.2.2 := by
    rw [numbers, List.filterMap_map, ← List.filterMap_eq_map]
    exact List.filterMap_congr fun e he => by simp [h.agrees e he]
  have horders : (List.range l.orders.length).filterMap (fun k => l.orders[k]?.map Prod.snd) =
      l.orders.map Prod.snd := by
    have := filterMap_range_getElem? (l.orders.map Prod.snd)
    simpa only [List.length_map, List.getElem?_map] using this
  rw [← hschedule, ← horders]
  exact hcomplete.filterMap _

/-- The note-on of a note-off that has run has run before it, as the piece accepted right before. -/
theorem Balanced.start_of_end {l : Ledger (Nat × Message)} (h : l.Balanced) (hgone : l.gone = [])
    (hpaired : Paired l.orders) {pre : List (Nat × Nat × Nat × Message)} (hpre : pre <+: l.ran)
    {channel note : Nat} {e : Nat × Nat × Nat × Message} (he : e ∈ pre)
    (hends : (Sent.ofWork e.2.2).ends channel note = true) :
    ∃ on ∈ pre, (Sent.ofWork on.2.2).starts channel note = true ∧ e.2.1 = on.2.1 + 1 := by
  obtain ⟨finish, k, c, message⟩ := e
  obtain ⟨hchannel, decay, hmessage⟩ := Sent.ends_iff.mp hends
  have horder := h.agrees _ (show (finish, k, c, message) ∈ l.schedule by
    simp [schedule, hpre.subset he])
  cases hmessage
  obtain ⟨j, start, attack, rfl, hj, hle⟩ := hpaired.on_of_off horder
  have hbefore : Before (start, j, c, Message.noteOn note attack)
      (finish, j + 1, c, .noteOff note decay) := by
    rcases Nat.lt_or_eq_of_le hle with hlt | heq
    · exact .inl hlt
    · exact .inr ⟨heq, Nat.lt_succ_self j⟩
  exact ⟨(start, j, c, .noteOn note attack), h.mem_of_before hgone hpre hj he hbefore,
    Sent.starts_iff.mpr ⟨hchannel, attack, rfl⟩, rfl⟩

/-- Entries that each come with another, the number of which is one less, are no more than those. -/
theorem length_le_of_numbers {offs ons : List (Nat × Nat × W)} (hoffs : (numbers offs).Nodup)
    (h : ∀ e ∈ offs, ∃ on ∈ ons, e.2.1 = on.2.1 + 1) : offs.length ≤ ons.length := by
  have hsub : (numbers offs).map (· - 1) ⊆ numbers ons := by
    intro k hk
    obtain ⟨number, hnumber, rfl⟩ := List.mem_map.mp hk
    obtain ⟨e, he, rfl⟩ := List.mem_map.mp hnumber
    obtain ⟨on, hmem, heq⟩ := h e he
    exact List.mem_map.mpr ⟨on, hmem, by omega⟩
  have hinjective : ((numbers offs).map (· - 1)).Nodup := by
    refine hoffs.map_on fun x hx y hy heq => ?_
    obtain ⟨e, he, rfl⟩ := List.mem_map.mp hx
    obtain ⟨e', he', rfl⟩ := List.mem_map.mp hy
    obtain ⟨on, -, hnumber⟩ := h e he
    obtain ⟨on', -, hnumber'⟩ := h e' he'
    omega
  simpa [numbers] using (List.subperm_of_subset hinjective hsub).length_le

/-- However much has run of a schedule of strokes, no key of a channel is let go more often than it was
struck. -/
theorem Balanced.ends_le_starts {l : Ledger (Nat × Message)} (h : l.Balanced) (hgone : l.gone = [])
    (hpaired : Paired l.orders) {pre : List (Nat × Nat × Nat × Message)} (hpre : pre <+: l.ran)
    (channel note : Nat) :
    (pre.map fun e => Sent.ofWork e.2.2).countP (Sent.ends channel note) ≤
      (pre.map fun e => Sent.ofWork e.2.2).countP (Sent.starts channel note) := by
  rw [List.countP_map, List.countP_map, List.countP_eq_length_filter, List.countP_eq_length_filter]
  refine length_le_of_numbers ?_ fun e he => ?_
  · exact h.nodup_ran.sublist ((List.filter_sublist.trans hpre.sublist).map _)
  · obtain ⟨he, hends⟩ := List.mem_filter.mp he
    obtain ⟨on, hmem, hstarts, hnumber⟩ := h.start_of_end hgone hpaired hpre he hends
    exact ⟨on, List.mem_filter.mpr ⟨hmem, hstarts⟩, hnumber⟩

end Ledger

end ScoreText
