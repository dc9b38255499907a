import ScoreText.Proofs.Live.Glides

/-!
What stopping a glide comes to. A glide that is stopped, by its number or with everything else, is out
of the scheduler, and so is not called in any later millisecond. But the millisecond in progress took
its glides when it began, and a glide that has not had its turn by then still has it.
-/

set_option autoImplicit false

namespace ScoreText

variable {C E I : Type}

namespace Record

/-- An operation that stops a glide: one for its number that was answered in the affirmative, or
clearing while it stands. -/
inductive Removes (k : Nat) (before : List (Nat × Happening C E I)) :
    Operation C E I → Reply → Prop where
  | stop : Removes k before (.stop k) (.truth true)
  | clear (reply : Reply) (h : k ∈ (roll before).standing) : Removes k before .clear reply

end Record

/-- The only glide that an operation can bring in is a new one. -/
theorem Scheduler.glides_obey (s : Scheduler C E I) (operation : Operation C E I) :
    s.glideCount ≤ (s.obey operation).1.glideCount ∧
      (∀ k ∈ (s.obey operation).1.live, k ∈ s.live ∨ k = s.glideCount) ∧
      ∀ g ∈ (s.obey operation).1.glides, g ∈ s.glides ∨ g.number = s.glideCount := by
  have hsame : s.glideCount ≤ s.glideCount ∧ (∀ k ∈ s.live, k ∈ s.live ∨ k = s.glideCount) ∧
      ∀ g ∈ s.glides, g ∈ s.glides ∨ g.number = s.glideCount :=
    ⟨Nat.le_refl _, fun _ => .inl, fun _ => .inl⟩
  cases operation with
  | glide work duration =>
    refine ⟨Nat.le_succ _, fun k hk => ?_, fun g hg => ?_⟩
    · exact (List.mem_append.mp hk).imp_right List.mem_singleton.mp
    · exact (List.mem_append.mp hg).imp_right fun h => by rw [List.mem_singleton.mp h]
  | stop n =>
    simp only [obey, removeGlide]
    split
    · split
      · exact ⟨Nat.le_refl _, fun _ hk => .inl (List.mem_of_mem_filter hk),
          fun _ hg => .inl (List.mem_of_mem_filter hg)⟩
      · exact hsame
    · exact hsame
  | clear => exact ⟨Nat.le_refl _, List.forall_mem_nil _, List.forall_mem_nil _⟩
  | withdraw n =>
    simp only [obey]
    split <;> exact hsame
  | _ => exact hsame

namespace Machine

open Record

/-- What holds of a machine, with the glides whose turn is to come and those that have had it, after
whatever happens in a run if it held before. -/
structure Steady (P : Machine C E I → List (Glide I) → List (Glide I) → Prop) : Prop where
  lasting : ∀ {m waiting moved}, P m waiting moved → ∀ g ∈ waiting, g.hasEnded = false
  setTick : ∀ {m waiting moved}, P m waiting moved → ∀ tick, P { m with tick := tick } waiting moved
  call : ∀ {m waiting moved}, P m waiting moved → ∀ operation, P (m.call operation) waiting moved
  command : ∀ {m waiting moved}, P m waiting moved →
    ∀ number work, P (m.note (.command number work)) waiting moved
  event : ∀ {m waiting moved}, P m waiting moved →
    ∀ number work, P (m.note (.event number work)) waiting moved
  more : ∀ {m : Machine C E I} {waiting moved} {g f : Glide I} {c}, P m (g :: waiting) moved →
    ∀ work, c.endsTurn = false → f.number = g.number → f.hasEnded = false →
      P (m.note (.glide g.number work c)) (f :: waiting) moved
  last : ∀ {m : Machine C E I} {waiting moved} {g f : Glide I} {c}, P m (g :: waiting) moved →
    ∀ work, c.endsTurn = true → f.number = g.number → (f.hasEnded = true → c = .finish) →
      P (m.note (.glide g.number work c)) waiting (moved ++ [f])
  begin : ∀ {m : Machine C E I}, P m [] [] → P m.begin m.scheduler.glides []
  putBack : ∀ {m : Machine C E I} {moved}, P m [] moved → P (m.putBack moved) [] []

def glidesWaiting (m : Machine C E I) : List (Glide I) := (m.tick.map Tick.waiting).getD []

def glidesMoved (m : Machine C E I) : List (Glide I) := (m.tick.map Tick.moved).getD []

namespace Steady

variable {P : Machine C E I → List (Glide I) → List (Glide I) → Prop} (hP : Steady P)

include hP

theorem perform {m : Machine C E I} {waiting moved : List (Glide I)} (h : P m waiting moved)
    (operations : List (Operation C E I)) : P (m.perform operations) waiting moved :=
  keeps_perform (P := fun n => P n waiting moved) (fun _ h operation _ => hP.call h operation) h

/-- Each glide of the millisecond has its turn: a call that ends it, or one at its full duration and
then its end. -/
theorem moveGlide (script : Script C E I) {m : Machine C E I} {waiting moved : List (Glide I)}
    {g : Glide I} (h : P m (g :: waiting) moved) :
    P (m.moveGlide script g).1 waiting (moved ++ [(m.moveGlide script g).2]) := by
  have hended : g.hasEnded = false := hP.lasting h g List.mem_cons_self
  have honce : ∀ (f : Glide I) (c : Call), f.number = g.number → f.hasEnded = false →
      c.endsTurn = true →
      P (m.callGlide script f c).1 waiting (moved ++ [(m.callGlide script f c).2]) := by
    intro f c hnumber hf hc
    have hlast := hP.last (f := (m.callGlide script f c).2) h f.work hc hnumber
      fun hends => absurd hends (by simp [callGlide, hf])
    rw [← hnumber] at hlast
    exact hP.perform hlast _
  rcases moveGlide_cases script m g with ⟨-, heq⟩ | ⟨start, elapsed, -, -, hshort, heq⟩ |
    ⟨start, elapsed, u, -, -, hfull, hu, heq⟩
  · rw [heq]
    exact honce _ _ rfl hended rfl
  · rw [heq]
    exact honce g _ rfl hended (by simpa [Call.endsTurn] using hshort)
  · have hfirst : P u.1 (u.2 :: waiting) moved := by
      rw [hu]
      exact hP.perform (hP.more (f := (m.callGlide script g (.update elapsed g.duration)).2) h g.work
        (by simpa [Call.endsTurn] using hfull) rfl hended) _
    rw [heq]
    exact hP.perform (hP.last (f := { (u.1.callGlide script u.2 .finish).2 with hasEnded := true })
      hfirst u.2.work rfl rfl fun _ => rfl) _

theorem step (script : Script C E I) {m : Machine C E I} (h : P m m.glidesWaiting m.glidesMoved) :
    P (m.step script) (m.step script).glidesWaiting (m.step script).glidesMoved := by
  rcases step_cases script m with ⟨hrest, heq⟩ | ⟨t, n, work, rest, htick, hc, heq⟩ |
    ⟨t, n, work, rest, htick, hc, he, heq⟩ | ⟨t, g, rest, htick, hc, he, hw, heq⟩ |
    ⟨t, htick, hc, he, hw, heq⟩
  · simp only [glidesWaiting, glidesMoved, hrest] at h
    rw [heq]
    exact hP.begin h
  · simp only [glidesWaiting, glidesMoved, htick] at h
    rw [heq]
    simp only [glidesWaiting, glidesMoved, tick_perform, tick_note]
    exact hP.perform (hP.command (hP.setTick h _) n work) _
  · simp only [glidesWaiting, glidesMoved, htick] at h
    rw [heq]
    simp only [glidesWaiting, glidesMoved, tick_perform, tick_note]
    exact hP.perform (hP.event (hP.setTick h _) n work) _
  · simp only [glidesWaiting, glidesMoved, htick, Option.map_some, Option.getD_some, hw] at h
    rw [heq]
    exact hP.setTick (hP.moveGlide script h) _
  · simp only [glidesWaiting, glidesMoved, htick, Option.map_some, Option.getD_some, hw] at h
    rw [heq]
    exact hP.putBack h

theorem run (script : Script C E I) {m : Machine C E I} (h : P m m.glidesWaiting m.glidesMoved)
    (moves : List (Move C E I)) :
    P (m.run script moves) (m.run script moves).glidesWaiting (m.run script moves).glidesMoved :=
  keeps_run (P := fun n => P n n.glidesWaiting n.glidesMoved) (fun _ h operation _ => hP.call h operation)
    (fun _ h => hP.step script h) h

omit hP in
theorem prefix_note {m : Machine C E I} {base : List (Nat × Happening C E I)} (h : base <+: m.record)
    (e : Happening C E I) : base <+: (m.note e).record := by
  rw [record_note]
  exact h.trans (List.prefix_append _ _)

/-- What is on record stays there. -/
theorem and_prefix (base : List (Nat × Happening C E I)) :
    Steady fun (m : Machine C E I) waiting moved => P m waiting moved ∧ base <+: m.record where
  lasting h := hP.lasting h.1
  setTick h tick := ⟨hP.setTick h.1 tick, h.2⟩
  call {m _ _} h operation :=
    ⟨hP.call h.1 operation, prefix_note (m := (m.obey operation).1) h.2 _⟩
  command h number work := ⟨hP.command h.1 number work, prefix_note h.2 _⟩
  event h number work := ⟨hP.event h.1 number work, prefix_note h.2 _⟩
  more h work hc hnumber hended := ⟨hP.more h.1 work hc hnumber hended, prefix_note h.2 _⟩
  last h work hc hnumber hended := ⟨hP.last h.1 work hc hnumber hended, prefix_note h.2 _⟩
  begin h := ⟨hP.begin h.1, h.2⟩
  putBack h := ⟨hP.putBack h.1, h.2⟩

end Steady

/-- What holds of a glide that was stopped in a millisecond, with what is on record before and after. -/
structure Stopped (k time : Nat) (before after : List (Nat × Happening C E I)) (s : Scheduler C E I)
    (waiting : List (Glide I)) : Prop where
  known : k < s.glideCount
  off : k ∉ s.live
  dropped : ∀ g ∈ s.glides, g.number ≠ k
  past : ∀ c ∈ callsOf k after, c.1 = time
  once : ∀ c ∈ (callsOf k after).dropLast, c.2.endsTurn = false
  awaited : ∀ g ∈ waiting, g.number = k →
    s.now = time ∧ (∀ c ∈ callsOf k after, c.2.endsTurn = false) ∧ ¬ TurnBehind k time before
  behind : TurnBehind k time before → callsOf k after = []
  turn : TurnBehind k time before ∨ (∃ g ∈ waiting, g.number = k) ∨ callsOf k after ≠ []

/-- Whatever was stopped on record stays so. -/
def Settled (m : Machine C E I) (waiting : List (Glide I)) : Prop :=
  ∀ k before time operation reply after, m.record = before ++ (time, .did operation reply) :: after →
    Removes k before operation reply → Stopped k time before after m.scheduler waiting

namespace Stopped

variable {k time : Nat} {before after : List (Nat × Happening C E I)} {s u : Scheduler C E I}
  {waiting : List (Glide I)}

/-- What is no call on the glide, with what it does to the scheduler, if that does not take the glide in
again. -/
theorem enter (h : Stopped k time before after s waiting) {e : Nat × Happening C E I}
    (hcalls : callsOf k [e] = []) (hnow : u.now = s.now) (hknown : s.glideCount ≤ u.glideCount)
    (hoff : k ∉ u.live) (hdropped : ∀ g ∈ u.glides, g.number ≠ k) :
    Stopped k time before (after ++ [e]) u waiting := by
  have hsame : callsOf k (after ++ [e]) = callsOf k after := by
    rw [callsOf_append, hcalls, List.append_nil]
  refine ⟨Nat.lt_of_lt_of_le h.known hknown, hoff, hdropped, ?_, ?_, ?_, ?_, ?_⟩
  all_goals rw [hsame]
  · exact h.past
  · exact h.once
  · rw [hnow]
    exact h.awaited
  · exact h.behind
  · exact h.turn

theorem obey (h : Stopped k time before after s waiting) (operation : Operation C E I)
    {e : Nat × Happening C E I} (hcalls : callsOf k [e] = []) :
    Stopped k time before (after ++ [e]) (s.obey operation).1 waiting := by
  obtain ⟨hcount, hlive, hglides⟩ := s.glides_obey operation
  refine h.enter hcalls (s.now_obey operation) hcount (fun hk => ?_) fun g hg hgk => ?_
  · exact (hlive k hk).elim h.off fun hnew => Nat.ne_of_lt h.known hnew
  · exact (hglides g hg).elim (fun hg => h.dropped g hg hgk) fun hnew =>
      Nat.ne_of_lt h.known (hgk.symm.trans hnew)

/-- A call on a glide, in a turn that is to come. -/
theorem call {g : Glide I} (h : Stopped k time before after s (g :: waiting))
    {left : List (Glide I)} (work : I) (c : Call)
    (hleft : ∀ f ∈ left, f.number = g.number ∧ c.endsTurn = false ∨ f ∈ waiting)
    (hkeeps : ∀ f ∈ waiting, f ∈ left) (hdistinct : ∀ f ∈ waiting, f.number ≠ g.number) :
    Stopped k time before (after ++ [(s.now, .glide g.number work c)]) s left := by
  by_cases hg : g.number = k
  · obtain ⟨hnow, hturns, hbehind⟩ := h.awaited g List.mem_cons_self hg
    have hcalls : callsOf k (after ++ [(s.now, (.glide g.number work c : Happening C E I))]) =
        callsOf k after ++ [(s.now, c)] := by
      rw [callsOf_append, callsOf_glide, if_pos hg]
    refine ⟨h.known, h.off, h.dropped, ?_, ?_, ?_, fun hb => absurd hb hbehind, ?_⟩
    all_goals rw [hcalls]
    · exact List.forall_mem_append.mpr ⟨h.past, List.forall_mem_singleton.mpr hnow⟩
    · rw [List.dropLast_concat]
      exact hturns
    · intro f hf hfk
      rcases hleft f hf with ⟨-, hc⟩ | hf
      · exact ⟨hnow, List.forall_mem_append.mpr ⟨hturns, List.forall_mem_singleton.mpr hc⟩, hbehind⟩
      · exact absurd (hfk.trans hg.symm) (hdistinct f hf)
    · exact .inr (.inr (by simp))
  · have hcalls : callsOf k (after ++ [(s.now, (.glide g.number work c : Happening C E I))]) =
        callsOf k after := by
      rw [callsOf_append, callsOf_glide, if_neg hg, List.append_nil]
    refine ⟨h.known, h.off, h.dropped, ?_, ?_, ?_, ?_, ?_⟩
    all_goals rw [hcalls]
    · exact h.past
    · exact h.once
    · intro f hf hfk
      rcases hleft f hf with ⟨hfg, -⟩ | hf
      · exact absurd (hfg.symm.trans hfk) hg
      · exact h.awaited f (List.mem_cons_of_mem g hf) hfk
    · exact h.behind
    · refine h.turn.imp_right fun hturn => hturn.imp_left ?_
      rintro ⟨f, hf, hfk⟩
      rcases List.mem_cons.mp hf with rfl | hf
      · exact absurd hfk hg
      · exact ⟨f, hkeeps f hf, hfk⟩

/-- When no glide waits any more, the scheduler can go on with fewer glides, or with the same ones in
another millisecond. -/
theorem rest (h : Stopped k time before after s []) (hknown : s.glideCount ≤ u.glideCount)
    (hoff : k ∉ u.live) (hdropped : ∀ g ∈ u.glides, g.number ≠ k)
    (hwaiting : ∀ g ∈ waiting, g.number ≠ k) : Stopped k time before after u waiting where
  known := Nat.lt_of_lt_of_le h.known hknown
  off := hoff
  dropped := hdropped
  past := h.past
  once := h.once
  awaited g hg hgk := absurd hgk (hwaiting g hg)
  behind := h.behind
  turn := h.turn.imp_right fun hturn => .inr (hturn.resolve_left fun ⟨_, hg, _⟩ => nomatch hg)

end Stopped

/-- A glide that an operation stops is in the scheduler no more; in the millisecond in progress it waits
unless its turn is behind it. -/
theorem Kept.stopped {m : Machine C E I} {waiting moved : List (Glide I)} (h : Kept m waiting moved)
    {k : Nat} {operation : Operation C E I}
    (hremoves : Removes k m.record operation (m.scheduler.obey operation).2) :
    Stopped k m.scheduler.now m.record [] (m.scheduler.obey operation).1 waiting := by
  obtain ⟨hlive, hoff, hdropped⟩ : k ∈ m.scheduler.live ∧
      k ∉ (m.scheduler.obey operation).1.live ∧
      ∀ g ∈ (m.scheduler.obey operation).1.glides, g.number ≠ k := by
    obtain ⟨reply, hreply⟩ : ∃ reply, (m.scheduler.obey operation).2 = reply := ⟨_, rfl⟩
    rw [hreply] at hremoves
    cases hremoves with
    | stop =>
      have hlive : k < m.scheduler.glideCount ∧ k ∈ m.scheduler.live := by
        simp only [Scheduler.obey] at hreply
        split at hreply
        · exact ⟨‹_›, by simpa using hreply⟩
        · cases hreply
      simp [Scheduler.obey, Scheduler.removeGlide, hlive]
    | clear _ hk => exact ⟨h.logged.standing k hk, List.not_mem_nil, List.forall_mem_nil _⟩
  obtain ⟨g, hg, hgk⟩ := h.exists_of_live hlive
  have hknown : k < m.scheduler.glideCount := hgk ▸ h.number_lt hg
  refine ⟨Nat.lt_of_lt_of_le hknown (m.scheduler.glides_obey operation).1, hoff, hdropped,
    List.forall_mem_nil _, List.forall_mem_nil _, fun f hf hfk => ?_, fun _ => rfl, ?_⟩
  · exact ⟨m.scheduler.now_obey operation, List.forall_mem_nil _, hfk ▸ h.owed f hf⟩
  · rcases List.mem_append.mp hg with hg | hg
    · exact .inr (.inl ⟨g, hg, hgk⟩)
    · exact .inl (hgk ▸ h.behind g hg)

namespace Settled

variable {m n : Machine C E I} {waiting left : List (Glide I)}

/-- One more entry: what was stopped before stays stopped, and what the entry stops is. -/
theorem enter (h : Settled m waiting) {e : Nat × Happening C E I} (hrecord : n.record = m.record ++ [e])
    (hold : ∀ {k before time after}, Stopped k time before after m.scheduler waiting →
      Stopped k time before (after ++ [e]) n.scheduler left)
    (hnew : ∀ k time operation reply, e = (time, .did operation reply) →
      Removes k m.record operation reply → Stopped k time m.record [] n.scheduler left) :
    Settled n left := by
  intro k before time operation reply after hsplit hremoves
  rw [hrecord] at hsplit
  rcases List.eq_nil_or_concat' after with rfl | ⟨rest, last, rfl⟩
  · obtain ⟨rfl, he⟩ := List.append_inj' hsplit rfl
    exact hnew k time operation reply (List.cons.inj he).1 hremoves
  · rw [← List.cons_append, ← List.append_assoc] at hsplit
    obtain ⟨hbefore, he⟩ := List.append_inj' hsplit rfl
    rw [(List.cons.inj he).1] at hold
    exact hold (h k before time operation reply rest hbefore hremoves)

theorem startAt (start : Nat) : Settled (Machine.startAt C E I start) [] := by
  intro k before time operation reply after hsplit
  simp [Machine.startAt, record] at hsplit

end Settled

/-- An entry that is no operation, and leaves the scheduler as it is. -/
theorem Settled.note {m : Machine C E I} {waiting left : List (Glide I)} (h : Settled m waiting)
    {e : Happening C E I} (he : ∀ operation reply, e ≠ .did operation reply)
    (hold : ∀ {k before time after}, Stopped k time before after m.scheduler waiting →
      Stopped k time before (after ++ [(m.scheduler.now, e)]) m.scheduler left) :
    Settled (m.note e) left :=
  h.enter (record_note m e) hold fun _ _ operation reply hsame _ =>
    absurd (Prod.mk.inj hsame).2 (he operation reply)

/-- Stopped glides stay stopped, whatever happens. -/
theorem steady_settled : Steady fun (m : Machine C E I) waiting moved =>
    Kept m waiting moved ∧ Settled m waiting where
  lasting h g hg := h.1.lasting g (List.mem_append_left _ hg)
  setTick h tick := ⟨h.1.setTick tick, h.2⟩
  call h operation := by
    refine ⟨h.1.call operation, h.2.enter (record_call _ _) (fun hs => hs.obey operation rfl) ?_⟩
    rintro k time op reply he hremoves
    obtain ⟨hnow, hdid⟩ := Prod.mk.inj he
    obtain ⟨rfl, rfl⟩ := Happening.did.inj hdid
    rw [Scheduler.now_obey] at hnow
    rw [← hnow]
    exact h.1.stopped hremoves
  command h number work :=
    ⟨h.1.quiet (record_note _ _) rfl rfl rfl rfl rfl fun _ => rfl,
      h.2.note nofun fun hs => hs.enter rfl rfl (Nat.le_refl _) hs.off hs.dropped⟩
  event h number work :=
    ⟨h.1.quiet (record_note _ _) rfl rfl rfl rfl rfl fun _ => rfl,
      h.2.note nofun fun hs => hs.enter rfl rfl (Nat.le_refl _) hs.off hs.dropped⟩
  more h work hc hnumber hended := by
    refine ⟨h.1.callMore work hc hnumber hended, h.2.note nofun fun hs => hs.call work _ ?_ ?_ ?_⟩
    · exact List.forall_mem_cons.mpr ⟨.inl ⟨hnumber, hc⟩, fun f hf => .inr hf⟩
    · exact fun f hf => List.mem_cons_of_mem _ hf
    · exact h.1.number_ne
  last h work hc hnumber hended :=
    ⟨h.1.callLast work hc hnumber hended,
      h.2.note nofun fun hs => hs.call work _ (fun f hf => .inr hf) (fun f hf => hf) h.1.number_ne⟩
  begin h := by
    refine ⟨h.1.begin, fun k before time operation reply after hsplit hremoves => ?_⟩
    have hs := h.2 k before time operation reply after hsplit hremoves
    exact hs.rest (Nat.le_refl _) hs.off (List.forall_mem_nil _) hs.dropped
  putBack {m moved} h := by
    refine ⟨h.1.putBack, fun k before time operation reply after hsplit hremoves => ?_⟩
    have hs := h.2 k before time operation reply after hsplit hremoves
    have hoff : k ∉ (m.putBack moved).scheduler.live := fun hk => hs.off (List.mem_of_mem_filter hk)
    refine hs.rest (Nat.le_refl _) hoff (fun g hg hgk => ?_) (List.forall_mem_nil _)
    rcases List.mem_append.mp hg with hg | hg
    · have hlive := (List.mem_filter.mp hg).2
      rw [hgk] at hlive
      exact hoff (List.contains_iff_mem.mp hlive)
    · exact hs.dropped g hg hgk

/-- A glide that is stopped between two milliseconds is not called again. -/
theorem stopped_at_rest (script : Script C E I) (start : Nat) (moves later : List (Move C E I)) {k : Nat}
    {operation : Operation C E I} (hrest : ((Machine.startAt C E I start).run script moves).tick = none)
    (hremoves : Removes k ((Machine.startAt C E I start).run script moves).record operation
      (((Machine.startAt C E I start).run script moves).scheduler.obey operation).2) :
    ∃ after,
      ((Machine.startAt C E I start).run script (moves ++ .call operation :: later)).record =
        ((Machine.startAt C E I start).run script (moves ++ [.call operation])).record ++ after ∧
      callsOf k after = [] := by
  obtain ⟨m, hm⟩ : ∃ m, m = (Machine.startAt C E I start).run script moves := ⟨_, rfl⟩
  have hbefore := steady_settled.run script ⟨Kept.startAt start, Settled.startAt start⟩ moves
  rw [← hm] at hbefore hrest hremoves
  have hstopped : (Machine.startAt C E I start).run script (moves ++ [.call operation]) =
      m.call operation := by
    rw [hm, Machine.run, List.foldl_append]
    rfl
  have hlater : (Machine.startAt C E I start).run script (moves ++ .call operation :: later) =
      (m.call operation).run script later := by
    rw [hm, Machine.run, List.foldl_append]
    rfl
  have hbehind : TurnBehind k m.scheduler.now m.record := by
    refine ((hbefore.1.stopped hremoves).turn.resolve_right ?_)
    rintro (⟨g, hg, -⟩ | hcalls)
    · rw [glidesWaiting, hrest] at hg
      cases hg
    · exact hcalls rfl
  obtain ⟨⟨-, hsettled⟩, after, hafter⟩ :=
    (steady_settled.and_prefix (m.call operation).record).run script
      ⟨steady_settled.call hbefore operation, List.prefix_rfl⟩ later
  refine ⟨after, by rw [hlater, hstopped, hafter], ?_⟩
  have hsplit : ((m.call operation).run script later).record =
      m.record ++ (m.scheduler.now, .did operation (m.scheduler.obey operation).2) :: after := by
    rw [← hafter, record_call, Scheduler.now_obey, List.append_assoc]
    rfl
  exact (hsettled k _ _ _ _ _ hsplit hremoves).behind hbehind

/-- A glide that is stopped is not called again, in any run, unless it is in the millisecond in which it
is stopped and its turn of that millisecond has not come. Then it still has the rest of this one turn,
and it does have it by the time the millisecond is completed. -/
theorem stopped_after_its_turn (script : Script C E I) (start : Nat) (moves : List (Move C E I)) :
    let m := (Machine.startAt C E I start).run script moves
    ∀ k before time operation reply after,
      m.record = before ++ (time, .did operation reply) :: after →
      Removes k before operation reply →
      (TurnBehind k time before → callsOf k after = []) ∧
        (¬ TurnBehind k time before → m.HasCompleted time → callsOf k after ≠ []) ∧
        (∀ c ∈ callsOf k after, c.1 = time) ∧
        ∀ c ∈ (callsOf k after).dropLast, c.2.endsTurn = false := by
  intro m k before time operation reply after hsplit hremoves
  have hsettled : Settled m m.glidesWaiting :=
    (steady_settled.run script ⟨Kept.startAt start, Settled.startAt start⟩ moves).2
  have hs := hsettled k before time operation reply after hsplit hremoves
  refine ⟨hs.behind, fun howed hdone => ?_, hs.past, hs.once⟩
  refine (hs.turn.resolve_left howed).resolve_left ?_
  rintro ⟨g, hg, hgk⟩
  rcases hdone with hpast | ⟨-, hrest⟩
  · exact Nat.ne_of_gt hpast (hs.awaited g hg hgk).1
  · rw [glidesWaiting, Option.isNone_iff_eq_none.mp hrest] at hg
    cases hg

/-- A command that stops the first glide. -/
def stopper : Script Unit Unit Unit where
  command _ := [.stop 0]
  event _ := []
  glide work _ := (work, [])

def stopperMoves : List (Move Unit Unit Unit) :=
  [.call (.glide () 10), .call (.schedule 2 ()), .step, .step, .step, .step, .step, .step, .step]

/-- The command runs in the second millisecond of the glide, which goes on once more after it. -/
theorem stopper_comes_too_late :
    let m := (Machine.startAt Unit Unit Unit 0).run stopper stopperMoves
    m.record = m.record.take 4 ++ (2, .did (.stop 0) (.truth true)) :: m.record.drop 5 ∧
      callsOf 0 (m.record.drop 5) = [(2, .update 1 10)] ∧ callsOf 0 (m.record.drop 5) ≠ [] := by
  intro m
  have hsplit : m.record =
      m.record.take 4 ++ (2, .did (.stop 0) (.truth true)) :: m.record.drop 5 := rfl
  have howed : ¬ TurnBehind 0 2 (m.record.take 4) := by
    have hroll : (roll (m.record.take 4)).accepted = [0] := rfl
    have hcalls : callsOf 0 (m.record.take 4) = [(1, .start)] := rfl
    simp [TurnBehind, hroll, hcalls]
  obtain ⟨-, hcalled, -⟩ := stopped_after_its_turn stopper 0 stopperMoves 0 _ 2 _ _ _ hsplit .stop
  exact ⟨hsplit, rfl, hcalled howed (.inr ⟨rfl, rfl⟩)⟩

end Machine

end ScoreText
