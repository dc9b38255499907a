import ScoreText.Proofs.Live.Idleness

/-!
The course of a glide. It is started in the millisecond after the one that accepted it, told of every
millisecond of its duration, and of its end with the last of them; a glide over no time is told of its
whole way and its end in the millisecond after its start. Until something stops it, nothing that is done to
the scheduler meanwhile changes the course.
-/

set_option autoImplicit false

namespace ScoreText

variable {C E I : Type}

/-- The calls with which a glide has its turn of a millisecond. -/
def Glide.turn (g : Glide I) (now : Nat) : List Call :=
  match g.startedAt with
  | none => [.start]
  | some start =>
    .update (min (now - start) g.duration) g.duration ::
      if g.duration ≤ min (now - start) g.duration then [.finish] else []

/-- Whether a caller or running work asks for glides to stop. -/
def Happening.asksToStop : Happening C E I → Bool
  | .did (.stop _) _ | .did .clear _ => true
  | _ => false

namespace Course

/-- The last millisecond of a glide that was accepted in millisecond `n` for `d` milliseconds. -/
def last (n d : Nat) : Nat := n + 1 + max d 1

/-- What the glide is called for in a millisecond. -/
def callsAt (n d time : Nat) : List Call :=
  if time ≤ n ∨ last n d < time then []
  else if time = n + 1 then [.start]
  else .update (min (time - (n + 1)) d) d :: if time = last n d then [.finish] else []

/-- The calls up to a millisecond and including it. -/
def upTo (n d : Nat) : Nat → List (Nat × Call)
  | 0 => []
  | time + 1 => upTo n d time ++ (callsAt n d (time + 1)).map fun c => (time + 1, c)

/-- All calls on the glide. -/
def whole (n d : Nat) : List (Nat × Call) :=
  (n + 1, .start) ::
    ((if d = 0 then [(n + 2, .update 0 0)]
      else (List.range' 1 d).map fun k => (n + 1 + k, .update k d)) ++
      [(n + 1 + max d 1, .finish)])

variable {n d : Nat}

theorem mem_upTo_iff {time : Nat} {c : Nat × Call} :
    c ∈ upTo n d time ↔ 0 < c.1 ∧ c.1 ≤ time ∧ c.2 ∈ callsAt n d c.1 := by
  induction time with
  | zero =>
    simp only [upTo, List.not_mem_nil, false_iff, not_and]
    omega
  | succ time ih =>
    simp only [upTo, List.mem_append, ih, List.mem_map]
    constructor
    · rintro (⟨hpos, hle, hc⟩ | ⟨call, hc, rfl⟩)
      · exact ⟨hpos, Nat.le_succ_of_le hle, hc⟩
      · exact ⟨Nat.succ_pos time, Nat.le_refl _, hc⟩
    · rintro ⟨hpos, hle, hc⟩
      rcases Nat.lt_or_eq_of_le hle with hlt | heq
      · exact .inl ⟨hpos, Nat.le_of_lt_succ hlt, hc⟩
      · exact .inr ⟨c.2, heq ▸ hc, by rw [← heq]⟩

theorem upTo_of_le {time : Nat} (h : time ≤ n) : upTo n d time = [] := by
  refine List.eq_nil_iff_forall_not_mem.mpr fun c hc => ?_
  obtain ⟨-, hle, hc⟩ := mem_upTo_iff.mp hc
  rw [callsAt, if_pos (.inl (Nat.le_trans hle h))] at hc
  cases hc

theorem upTo_prefix {time later : Nat} (h : time ≤ later) : upTo n d time <+: upTo n d later := by
  induction h with
  | refl => exact List.prefix_rfl
  | step _ ih => exact ih.trans (List.prefix_append _ _)

theorem upTo_of_last_le {time : Nat} (h : last n d ≤ time) : upTo n d time = upTo n d (last n d) := by
  induction h with
  | refl => rfl
  | step hle ih =>
    rw [upTo, callsAt, if_pos (.inr (Nat.lt_succ_of_le hle)), List.map_nil, List.append_nil, ih]

theorem finish_mem_callsAt_iff {time : Nat} : .finish ∈ callsAt n d time ↔ time = last n d := by
  have hlast : n + 1 < last n d := by
    simp only [last]
    omega
  rw [callsAt]
  split
  · rename_i hout
    simp only [List.not_mem_nil, false_iff]
    omega
  · split
    · simp only [List.mem_singleton, reduceCtorEq, false_iff]
      omega
    · split <;> simp [*]

theorem last_le_of_finish_mem {time : Nat} {c : Nat × Call} (hc : c ∈ upTo n d time)
    (hfinish : c.2 = .finish) : last n d ≤ time := by
  obtain ⟨-, hle, hc⟩ := mem_upTo_iff.mp hc
  rw [hfinish, finish_mem_callsAt_iff] at hc
  exact hc ▸ hle

/-- Before its last millisecond, a glide has been started and told of every millisecond since. -/
theorem upTo_before_last {elapsed : Nat} (h : elapsed < max d 1) :
    upTo n d (n + 1 + elapsed) =
      (n + 1, .start) :: (List.range' 1 elapsed).map fun k => (n + 1 + k, .update k d) := by
  induction elapsed with
  | zero =>
    have hstart : callsAt n d (n + 1) = [.start] := by
      rw [callsAt, if_neg (by simp only [last]; omega), if_pos rfl]
    rw [Nat.add_zero, upTo, upTo_of_le (Nat.le_refl n), hstart]
    rfl
  | succ elapsed ih =>
    have hcalls : callsAt n d (n + 1 + elapsed + 1) = [.update (elapsed + 1) d] := by
      rw [callsAt, if_neg (by simp only [last]; omega), if_neg (by omega), if_neg (by simp only [last]; omega)]
      have hshort : min (n + 1 + elapsed + 1 - (n + 1)) d = elapsed + 1 := by omega
      rw [hshort]
    rw [← Nat.add_assoc, upTo, ih (by omega), hcalls, List.range'_concat, List.map_append, List.cons_append]
    simp only [List.map_cons, List.map_nil, Nat.one_mul]
    have htime : n + 1 + elapsed + 1 = n + 1 + (1 + elapsed) := by omega
    rw [htime, Nat.add_comm elapsed 1]

theorem upTo_last : upTo n d (last n d) = whole n d := by
  obtain ⟨e, he⟩ : ∃ e, max d 1 = e + 1 := ⟨max d 1 - 1, by omega⟩
  have hlast : last n d = n + 1 + e + 1 := by rw [last, he, Nat.add_assoc, Nat.add_assoc, Nat.add_assoc]
  have hcalls : callsAt n d (n + 1 + e + 1) = [.update d d, .finish] := by
    rw [callsAt, if_neg (by rw [hlast]; omega), if_neg (by omega), if_pos hlast.symm]
    have hfull : min (n + 1 + e + 1 - (n + 1)) d = d := by omega
    rw [hfull]
  rw [hlast, upTo, upTo_before_last (by omega), hcalls, whole, he]
  by_cases hd : d = 0
  · obtain rfl : e = 0 := by omega
    rw [hd, if_pos rfl]
    rfl
  · obtain rfl : d = e + 1 := by omega
    rw [if_neg hd, List.range'_concat, List.map_append, List.cons_append, List.append_assoc]
    simp only [List.map_cons, List.map_nil, Nat.one_mul]
    have htime : n + 1 + (1 + e) = n + 1 + e + 1 := by omega
    rw [htime, Nat.add_comm 1 e]
    rfl

theorem upTo_eq_whole {time : Nat} (h : last n d ≤ time) : upTo n d time = whole n d :=
  (upTo_of_last_le h).trans upTo_last

/-- Every update tells of the whole duration. -/
theorem duration_of_mem_whole {time elapsed duration : Nat}
    (h : (time, .update elapsed duration) ∈ whole n d) : duration = d := by
  rw [← upTo_last, mem_upTo_iff] at h
  obtain ⟨-, -, h⟩ := h
  rw [callsAt] at h
  split at h
  · cases h
  · split at h
    · simp at h
    · rcases List.mem_cons.mp h with heq | h
      · exact (Call.update.inj heq).2
      · split at h <;> simp at h

theorem portion_of_mem_whole {time elapsed duration : Nat}
    (h : (time, .update elapsed duration) ∈ whole n d) :
    (Call.portion elapsed duration : Rat) = if d = 0 then 1 else (elapsed : Rat) / d := by
  rw [Call.portion, duration_of_mem_whole h]
  split <;> rfl

/-- A turn of a glide that is on its course. -/
theorem turn_eq {now : Nat} {g : Glide I} (hduration : g.duration = d)
    (hstarted : g.startedAt = if n + 1 < now then some (n + 1) else none) (hnow : n < now)
    (hlast : now ≤ last n d) : g.turn now = callsAt n d now := by
  have hwithin : ¬ (now ≤ n ∨ last n d < now) := by omega
  rw [Glide.turn, hstarted, hduration, callsAt, if_neg hwithin]
  by_cases hfirst : now = n + 1
  · have hnot : ¬ n + 1 < now := by omega
    rw [if_neg hnot, if_pos hfirst]
  · have hlater : n + 1 < now := by omega
    have hfull : d ≤ min (now - (n + 1)) d ↔ now = last n d := by
      simp only [last] at hlast ⊢
      omega
    rw [if_pos hlater, if_neg hfirst]
    simp only [hfull]

end Course

namespace Record

/-- The millisecond in which a glide was accepted, and its duration; in the order of acceptance. -/
def glideOrders (record : List (Nat × Happening C E I)) : List (Nat × Nat) :=
  record.filterMap fun
    | (now, .did (.glide _ duration) _) => some (now, duration)
    | _ => none

/-- An operation has stopped a glide. -/
def Halted (k : Nat) (record : List (Nat × Happening C E I)) : Prop :=
  ∃ before time operation reply after,
    record = before ++ (time, .did operation reply) :: after ∧ Removes k before operation reply

theorem glideOrders_append (before after : List (Nat × Happening C E I)) :
    glideOrders (before ++ after) = glideOrders before ++ glideOrders after := List.filterMap_append

theorem Halted.mono {k : Nat} {before record : List (Nat × Happening C E I)} (h : Halted k before)
    (hbefore : before <+: record) : Halted k record := by
  obtain ⟨front, time, operation, reply, back, rfl, hremoves⟩ := h
  obtain ⟨more, rfl⟩ := hbefore
  exact ⟨front, time, operation, reply, back ++ more, by simp, hremoves⟩

theorem Removes.halted {k now : Nat} {record : List (Nat × Happening C E I)}
    {operation : Operation C E I} {reply : Reply} (h : Removes k record operation reply) :
    Halted k (record ++ [(now, .did operation reply)]) := ⟨record, now, operation, reply, [], rfl, h⟩

theorem not_halted {k : Nat} {record : List (Nat × Happening C E I)}
    (h : record.all fun e => !e.2.asksToStop) : ¬ Halted k record := by
  rintro ⟨before, time, operation, reply, after, rfl, hremoves⟩
  have hasks := List.all_eq_true.mp h (time, .did operation reply) (by simp)
  cases hremoves <;> cases hasks

theorem map_glideOrders (record : List (Nat × Happening C E I)) :
    (glideOrders record).map Prod.fst = (roll record).accepted := by
  induction record using List.reverseRecOn with
  | nil => rfl
  | append_singleton record e ih =>
    rw [glideOrders_append, List.map_append, ih, roll_append]
    obtain ⟨now, happening⟩ := e
    cases happening with
    | did operation reply =>
      cases operation with
      | stop k =>
        cases reply with
        | truth value => cases value <;> exact List.append_nil _
        | nothing | millisecond => exact List.append_nil _
      | glide => rfl
      | schedule | scheduleEvent | withdraw | clear | isIdle | time => exact List.append_nil _
    | glide k work c =>
      rw [accepted_enter_glide]
      exact List.append_nil _
    | command | event => exact List.append_nil _

/-- A glide that nothing has stopped stands until it is told of its end. -/
theorem standing_or_finished {k : Nat} {record : List (Nat × Happening C E I)}
    (hk : k < (roll record).accepted.length) (hspared : ¬ Halted k record) :
    k ∈ (roll record).standing ∨ ∃ c ∈ callsOf k record, c.2 = .finish := by
  induction record using List.reverseRecOn with
  | nil => exact absurd hk (Nat.not_lt_zero k)
  | append_singleton record e ih =>
    have hbefore : ¬ Halted k record := fun h => hspared (h.mono (List.prefix_append _ _))
    have hold : k < (roll record).accepted.length →
        k ∈ (roll record).standing ∨ ∃ c ∈ callsOf k (record ++ [e]), c.2 = .finish := by
      intro hk
      refine (ih hk hbefore).imp_right fun ⟨c, hc, hfinish⟩ => ⟨c, ?_, hfinish⟩
      rw [callsOf_append]
      exact List.mem_append_left _ hc
    rw [roll_append] at hk ⊢
    obtain ⟨now, happening⟩ := e
    cases happening with
    | did operation reply =>
      cases operation with
      | glide work duration =>
        simp only [Roll.enter, List.length_append, List.length_singleton] at hk ⊢
        rcases Nat.lt_succ_iff_lt_or_eq.mp hk with hk | rfl
        · exact (hold hk).imp_left (List.mem_append_left _)
        · exact .inl (List.mem_append_right _ List.mem_cons_self)
      | stop j =>
        cases reply with
        | truth value =>
          cases value with
          | true =>
            have hne : k ≠ j := fun h => hspared (h ▸ Removes.stop.halted)
            exact (hold hk).imp_left fun h => List.mem_filter.mpr ⟨h, by simpa using hne⟩
          | false => exact hold hk
        | nothing | millisecond => exact hold hk
      | clear =>
        exact (hold hk).imp_left fun h => absurd (Removes.clear reply h).halted hspared
      | schedule | scheduleEvent | withdraw | isIdle | time => exact hold hk
    | glide j work c =>
      rw [accepted_enter_glide] at hk
      cases c with
      | finish =>
        by_cases hj : j = k
        · refine .inr ⟨(now, .finish), ?_, rfl⟩
          rw [callsOf_append, callsOf_glide, if_pos hj]
          exact List.mem_append_right _ List.mem_cons_self
        · refine (hold hk).imp_left fun h => List.mem_filter.mpr ⟨h, ?_⟩
          simpa using fun h => hj h.symm
      | start | update => exact hold hk
    | command | event => exact hold hk

end Record

open Record in
/-- What stands and is not stopped stays in the scheduler. -/
theorem Scheduler.mem_glides_obey {s : Scheduler C E I} {record : List (Nat × Happening C E I)}
    {operation : Operation C E I} {g : Glide I} (hg : g ∈ s.glides)
    (hstands : g.number ∈ (roll record).standing)
    (hspared : ¬ Removes g.number record operation (s.obey operation).2) :
    g ∈ (s.obey operation).1.glides := by
  cases operation with
  | glide work duration => exact List.mem_append_left _ hg
  | clear => exact absurd (Removes.clear _ hstands) hspared
  | withdraw k =>
    simp only [obey]
    split <;> exact hg
  | stop k =>
    simp only [obey, removeGlide]
    split
    · split
      · rename_i hk hlive
        refine List.mem_filter.mpr ⟨hg, ?_⟩
        have hne : g.number ≠ k := by
          rintro rfl
          refine hspared ?_
          simp only [obey, if_pos hk, hlive]
          exact .stop
        simpa using hne
      · exact hg
    · exact hg
  | schedule | scheduleEvent | isIdle | time => exact hg

/-- An operation that is not one for a glide to come brings none in. -/
theorem Scheduler.glides_obey_of_not_glide (s : Scheduler C E I) {operation : Operation C E I}
    (h : ∀ work duration, operation ≠ .glide work duration) :
    (s.obey operation).1.glideCount = s.glideCount ∧ (s.obey operation).1.glides ⊆ s.glides := by
  cases operation with
  | glide work duration => exact absurd rfl (h work duration)
  | clear => exact ⟨rfl, List.nil_subset _⟩
  | withdraw k =>
    simp only [obey]
    split <;> exact ⟨rfl, fun _ hg => hg⟩
  | stop k =>
    simp only [obey, removeGlide]
    split
    · split
      · exact ⟨rfl, List.filter_subset_self _⟩
      · exact ⟨rfl, fun _ hg => hg⟩
    · exact ⟨rfl, fun _ hg => hg⟩
  | schedule | scheduleEvent | isIdle | time => exact ⟨rfl, fun _ hg => hg⟩

namespace Machine

open Record Course

/-- Where a glide is that was accepted in millisecond `n` for `d` milliseconds, and what it has been called
for. -/
structure Follows (k n d : Nat) (s : Scheduler C E I) (calls : List (Nat × Call))
    (waiting moved : List (Glide I)) : Prop where
  waits : ∀ g ∈ waiting, g.number = k → g.duration = d ∧
    g.startedAt = (if n + 1 < s.now then some (n + 1) else none) ∧ n < s.now ∧ s.now ≤ last n d ∧
      calls = upTo n d (s.now - 1)
  moves : ∀ g ∈ moved, g.number = k → g.duration = d ∧ g.startedAt = some (n + 1) ∧ n < s.now ∧
    (g.hasEnded = true ↔ last n d ≤ s.now) ∧ calls = upTo n d s.now
  rests : ∀ g ∈ s.glides, g.number = k → g.duration = d ∧
    g.startedAt = (if n < s.now then some (n + 1) else none) ∧ n ≤ s.now ∧ s.now < last n d ∧
      calls = upTo n d s.now
  ended : (∀ g ∈ waiting ++ (moved ++ s.glides), g.number ≠ k) → last n d ≤ s.now ∧ calls = upTo n d s.now

/-- Every glide is on its course, but for one if there is one that has its turn. -/
structure OnCourse (turn : Option Nat) (m : Machine C E I) (waiting moved : List (Glide I)) : Prop where
  count : (glideOrders m.record).length = m.scheduler.glideCount
  known : ∀ g ∈ waiting ++ (moved ++ m.scheduler.glides), g.number < m.scheduler.glideCount
  fresh : ∀ k, m.scheduler.glideCount ≤ k → callsOf k m.record = []
  follows : ∀ k n d, turn ≠ some k → (glideOrders m.record)[k]? = some (n, d) → ¬ Halted k m.record →
    Follows k n d m.scheduler (callsOf k m.record) waiting moved

namespace Follows

variable {k n d : Nat} {s u : Scheduler C E I} {calls : List (Nat × Call)} {waiting moved : List (Glide I)}

/-- As long as the glide stays where it is, other glides may come and go. -/
theorem glides (h : Follows k n d s calls waiting moved) (hnow : u.now = s.now)
    (hsame : ∀ g : Glide I, g.number = k → (g ∈ u.glides ↔ g ∈ s.glides)) :
    Follows k n d u calls waiting moved := by
  constructor
  case waits =>
    rw [hnow]
    exact h.waits
  case moves =>
    rw [hnow]
    exact h.moves
  case rests =>
    rw [hnow]
    exact fun g hg hgk => h.rests g ((hsame g hgk).mp hg) hgk
  case ended =>
    rw [hnow]
    refine fun habsent => h.ended fun g hg hgk => habsent g ?_ hgk
    simp only [List.mem_append] at hg ⊢
    exact hg.imp_right fun hg => hg.imp_right (hsame g hgk).mpr

/-- A glide that has just been accepted is at the start of its course. -/
theorem accepted (work : I) (d : Nat)
    (habsent : ∀ g ∈ waiting ++ (moved ++ s.glides), g.number ≠ s.glideCount) :
    Follows s.glideCount s.now d (s.addGlide work d) [] waiting moved := by
  constructor
  case waits => exact fun g hg hgk => absurd hgk (habsent g (by simp [hg]))
  case moves => exact fun g hg hgk => absurd hgk (habsent g (by simp [hg]))
  case rests =>
    intro g hg hgk
    rcases List.mem_append.mp hg with hg | hg
    · exact absurd hgk (habsent g (by simp [hg]))
    · have hnow : (s.addGlide work d).now = s.now := rfl
      rw [List.mem_singleton.mp hg, hnow, upTo_of_le (Nat.le_refl _), if_neg (Nat.lt_irrefl _)]
      exact ⟨rfl, rfl, Nat.le_refl _, by simp only [last]; omega, rfl⟩
  case ended =>
    intro hnone
    exact absurd rfl (hnone ⟨s.glideCount, work, d, none, false⟩ (by simp [Scheduler.addGlide]))

/-- A glide of another number leaves off waiting, or has moved. -/
theorem others {waiting' moved' : List (Glide I)} (h : Follows k n d s calls waiting moved)
    (hwaiting : ∀ g : Glide I, g.number = k → (g ∈ waiting' ↔ g ∈ waiting))
    (hmoved : ∀ g : Glide I, g.number = k → (g ∈ moved' ↔ g ∈ moved)) :
    Follows k n d s calls waiting' moved' where
  waits g hg hgk := h.waits g ((hwaiting g hgk).mp hg) hgk
  moves g hg hgk := h.moves g ((hmoved g hgk).mp hg) hgk
  rests := h.rests
  ended habsent := h.ended fun g hg hgk => habsent g (by
    simp only [List.mem_append] at hg ⊢
    exact hg.imp (hwaiting g hgk).mpr fun hg => hg.imp_left (hmoved g hgk).mpr) hgk

/-- The next millisecond takes the glides of the scheduler. -/
theorem begin (h : Follows k n d s calls [] []) (hnow : u.now = s.now + 1) (hnone : u.glides = []) :
    Follows k n d u calls s.glides [] := by
  constructor
  case waits =>
    rw [hnow]
    intro g hg hgk
    obtain ⟨hduration, hstarted, hn, hlast, hcalls⟩ := h.rests g hg hgk
    simp only [Nat.add_lt_add_iff_right, Nat.add_sub_cancel]
    exact ⟨hduration, hstarted, Nat.lt_succ_of_le hn, hlast, hcalls⟩
  case moves => exact List.forall_mem_nil _
  case rests =>
    rw [hnone]
    exact List.forall_mem_nil _
  case ended =>
    rw [hnow, hnone]
    intro habsent
    obtain ⟨hlast, hcalls⟩ := h.ended (by simpa using habsent)
    rw [upTo_of_last_le (Nat.le_succ_of_le hlast), ← upTo_of_last_le hlast]
    exact ⟨Nat.le_succ_of_le hlast, hcalls⟩

/-- Of the glides that have moved, those come back that have not ended; the others are past their last
millisecond. -/
theorem putBack (h : Follows k n d s calls [] moved) (hnow : u.now = s.now) {lasts : Glide I → Bool}
    (hglides : u.glides = moved.filter lasts ++ s.glides)
    (hended : ∀ g ∈ moved, g.number = k → lasts g = true → g.hasEnded = false)
    (hgone : ∀ g ∈ moved, g.number = k → lasts g ≠ true → last n d ≤ s.now) :
    Follows k n d u calls [] [] := by
  constructor
  case waits => exact List.forall_mem_nil _
  case moves => exact List.forall_mem_nil _
  case rests =>
    rw [hglides, hnow]
    refine List.forall_mem_append.mpr ⟨fun g hg hgk => ?_, h.rests⟩
    obtain ⟨hg, hlasts⟩ := List.mem_filter.mp hg
    obtain ⟨hduration, hstarted, hn, hlast, hcalls⟩ := h.moves g hg hgk
    have hwithin : ¬ last n d ≤ s.now := fun hle => by
      simp [hended g hg hgk hlasts, hle] at hlast
    rw [if_pos hn]
    exact ⟨hduration, hstarted, Nat.le_of_lt hn, Nat.lt_of_not_le hwithin, hcalls⟩
  case ended =>
    rw [hglides, hnow]
    intro habsent
    by_cases hmoved : ∃ g ∈ moved, g.number = k
    · obtain ⟨g, hg, hgk⟩ := hmoved
      obtain ⟨-, -, -, -, hcalls⟩ := h.moves g hg hgk
      refine ⟨hgone g hg hgk fun hlasts => habsent g ?_ hgk, hcalls⟩
      simp [hg, hlasts]
    · refine h.ended fun g hg hgk => ?_
      rcases List.mem_append.mp hg with hg | hg
      · cases hg
      rcases List.mem_append.mp hg with hg | hg
      · exact hmoved ⟨g, hg, hgk⟩
      · exact habsent g (by simp [hg]) hgk

end Follows

namespace OnCourse

variable {turn : Option Nat} {m : Machine C E I} {waiting moved : List (Glide I)}

theorem startAt (start : Nat) : OnCourse none (Machine.startAt C E I start) [] [] where
  count := rfl
  known := List.forall_mem_nil _
  fresh _ _ := rfl
  follows _ _ _ _ horder := nomatch horder

/-- What neither is an operation nor a call on a glide. -/
theorem note (h : OnCourse turn m waiting moved) {e : Happening C E I}
    (horders : glideOrders [(m.scheduler.now, e)] = []) (hcalls : ∀ k, callsOf k [(m.scheduler.now, e)] = []) :
    OnCourse turn (m.note e) waiting moved := by
  have hsame : glideOrders (m.note e).record = glideOrders m.record := by
    rw [record_note, glideOrders_append, horders, List.append_nil]
  have hcalled : ∀ k, callsOf k (m.note e).record = callsOf k m.record := by
    intro k
    rw [record_note, callsOf_append, hcalls, List.append_nil]
  refine ⟨by rw [hsame, h.count]; rfl, h.known, fun k hk => by rw [hcalled, h.fresh k hk],
    fun k n d hturn horder hspared => ?_⟩
  rw [hsame] at horder
  rw [hcalled]
  exact h.follows k n d hturn horder fun hhalted =>
    hspared (hhalted.mono (by rw [record_note]; exact List.prefix_append _ _))

theorem setTick (h : OnCourse turn m waiting moved) (tick : Option (Tick C E I)) :
    OnCourse turn ({ m with tick := tick } : Machine C E I) waiting moved :=
  ⟨h.count, h.known, h.fresh, h.follows⟩

theorem record_call_eq (m : Machine C E I) (operation : Operation C E I) :
    (m.call operation).record =
      m.record ++ [(m.scheduler.now, .did operation (m.scheduler.obey operation).2)] := by
  rw [record_call, Scheduler.now_obey]

theorem callsOf_call (k : Nat) (m : Machine C E I) (operation : Operation C E I) :
    callsOf k (m.call operation).record = callsOf k m.record := by
  rw [record_call_eq, callsOf_append]
  exact List.append_nil _

/-- A glide accepted before an operation goes on with its course, if that does not stop it. -/
theorem follows_call (h : OnCourse turn m waiting moved) (operation : Operation C E I) {k n d : Nat}
    (hturn : turn ≠ some k) (horder : (glideOrders m.record)[k]? = some (n, d))
    (hspared : ¬ Halted k (m.call operation).record) :
    Follows k n d (m.call operation).scheduler (callsOf k (m.call operation).record) waiting moved := by
  have hknown : k < m.scheduler.glideCount := h.count ▸ (List.getElem?_eq_some_iff.mp horder).1
  have hbefore : ¬ Halted k m.record := fun hhalted =>
    hspared (hhalted.mono (by rw [record_call_eq]; exact List.prefix_append _ _))
  have hfollows := h.follows k n d hturn horder hbefore
  rw [callsOf_call]
  refine hfollows.glides (m.scheduler.now_obey operation) fun g hgk => ⟨fun hg => ?_, fun hg => ?_⟩
  · refine ((m.scheduler.glides_obey operation).2.2 g hg).resolve_right fun hnew => ?_
    exact Nat.ne_of_lt hknown (hgk.symm.trans hnew)
  · have hlength : k < (roll m.record).accepted.length := by
      rw [← map_glideOrders, List.length_map, h.count]
      exact hknown
    have hstands : k ∈ (roll m.record).standing := by
      refine (standing_or_finished hlength hbefore).resolve_right ?_
      rintro ⟨c, hc, hfinish⟩
      obtain ⟨-, -, -, hlast, hcourse⟩ := hfollows.rests g hg hgk
      rw [hcourse] at hc
      exact absurd (last_le_of_finish_mem hc hfinish) (Nat.not_le_of_lt hlast)
    refine Scheduler.mem_glides_obey hg (hgk ▸ hstands) fun hremoves => hspared ?_
    rw [record_call_eq]
    exact hgk ▸ hremoves.halted

/-- A glide that is accepted is at the start of its course. -/
theorem accept (h : OnCourse turn m waiting moved) (work : I) (duration : Nat) :
    OnCourse turn (m.call (.glide work duration)) waiting moved := by
  have horders : glideOrders (m.call (.glide work duration)).record =
      glideOrders m.record ++ [(m.scheduler.now, duration)] := by
    rw [record_call_eq, glideOrders_append]
    rfl
  have hglides : (m.call (.glide work duration)).scheduler.glides = m.scheduler.glides ++
      [{ number := m.scheduler.glideCount, work := work, duration := duration }] := rfl
  constructor
  case count =>
    rw [horders, List.length_append, h.count]
    rfl
  case known =>
    rw [hglides, ← List.append_assoc, ← List.append_assoc]
    refine List.forall_mem_append.mpr ⟨fun g hg => ?_, List.forall_mem_singleton.mpr (Nat.lt_succ_self _)⟩
    exact Nat.lt_succ_of_lt (h.known g (List.append_assoc _ _ _ ▸ hg))
  case fresh =>
    intro k hk
    rw [callsOf_call]
    exact h.fresh k (Nat.le_of_succ_le hk)
  case follows =>
    intro k n d hturn horder hspared
    rw [horders] at horder
    by_cases hk : k < (glideOrders m.record).length
    · rw [List.getElem?_append_left hk] at horder
      exact h.follows_call _ hturn horder hspared
    · have hnew : k = m.scheduler.glideCount := by
        have hlength := (List.getElem?_eq_some_iff.mp horder).1
        rw [List.length_append, List.length_singleton] at hlength
        rw [← h.count]
        omega
      obtain ⟨rfl, rfl⟩ : n = m.scheduler.now ∧ d = duration := by
        rw [hnew, ← h.count, List.getElem?_concat_length] at horder
        exact Prod.mk.inj (Option.some.inj horder).symm
      rw [callsOf_call, h.fresh k (Nat.le_of_eq hnew.symm), hnew]
      exact .accepted work d fun g hg => Nat.ne_of_lt (h.known g hg)

/-- Whatever a caller or running work asks of the scheduler. -/
theorem call (h : OnCourse turn m waiting moved) (operation : Operation C E I) :
    OnCourse turn (m.call operation) waiting moved := by
  by_cases hglide : ∃ work duration, operation = .glide work duration
  · obtain ⟨work, duration, rfl⟩ := hglide
    exact h.accept work duration
  · have hnone : ∀ work duration, operation ≠ .glide work duration := fun work duration heq =>
      hglide ⟨work, duration, heq⟩
    have horders : glideOrders (m.call operation).record = glideOrders m.record := by
      rw [record_call_eq, glideOrders_append]
      cases operation with
      | glide work duration => exact absurd rfl (hnone work duration)
      | _ => exact List.append_nil _
    obtain ⟨hcount, hglides⟩ := m.scheduler.glides_obey_of_not_glide hnone
    refine ⟨by rw [horders, h.count]; exact hcount.symm, fun g hg => ?_, fun k hk => ?_,
      fun k n d hturn horder hspared => ?_⟩
    · have hmember : g ∈ waiting ++ (moved ++ m.scheduler.glides) := by
        simp only [List.mem_append] at hg ⊢
        exact hg.imp_right fun hg => hg.imp_right fun hg => hglides hg
      rw [scheduler_call, hcount]
      exact h.known g hmember
    · rw [callsOf_call]
      rw [scheduler_call, hcount] at hk
      exact h.fresh k hk
    · rw [horders] at horder
      exact h.follows_call operation hturn horder hspared

theorem perform (h : OnCourse turn m waiting moved) (operations : List (Operation C E I)) :
    OnCourse turn (m.perform operations) waiting moved :=
  keeps_perform (P := fun n => OnCourse turn n waiting moved)
    (fun _ h operation _ => h.call operation) h

/-- A call on the glide that has its turn. -/
theorem noteGlide {k : Nat} (h : OnCourse (some k) m waiting moved) (hk : k < m.scheduler.glideCount)
    (work : I) (c : Call) : OnCourse (some k) (m.note (.glide k work c)) waiting moved := by
  have horders : glideOrders (m.note (.glide k work c)).record = glideOrders m.record := by
    rw [record_note, glideOrders_append]
    exact List.append_nil _
  have hcalls : ∀ j, j ≠ k → callsOf j (m.note (.glide k work c)).record = callsOf j m.record := by
    intro j hj
    rw [record_note, callsOf_append, callsOf_glide, if_neg (Ne.symm hj), List.append_nil]
  refine ⟨by rw [horders, h.count]; rfl, h.known, fun j hj => ?_, fun j n d hturn horder hspared => ?_⟩
  · rw [hcalls j (Nat.ne_of_gt (Nat.lt_of_lt_of_le hk hj))]
    exact h.fresh j hj
  · rw [horders] at horder
    rw [hcalls j fun heq => hturn (by rw [heq])]
    exact h.follows j n d hturn horder fun hhalted =>
      hspared (hhalted.mono (by rw [record_note]; exact List.prefix_append _ _))

theorem begin (h : OnCourse none m [] []) : OnCourse none m.begin m.scheduler.glides [] where
  count := h.count
  known g hg := h.known g (by simpa [Machine.begin] using hg)
  fresh := h.fresh
  follows k n d hturn horder hspared := (h.follows k n d hturn horder hspared).begin rfl rfl

theorem putBack (h : OnCourse none m [] moved) (hkept : Kept m [] moved) :
    OnCourse none (m.putBack moved) [] [] := by
  have hglides : (m.putBack moved).scheduler.glides =
      (moved.filter fun g => (m.putBack moved).scheduler.live.contains g.number) ++
        m.scheduler.glides := rfl
  refine ⟨h.count, fun g hg => ?_, h.fresh, fun k n d hturn horder hspared => ?_⟩
  · rw [List.nil_append, List.nil_append, hglides] at hg
    refine h.known g ((List.mem_append.mp hg).elim (fun hg => ?_) fun hg => by simp [hg])
    simp [List.mem_of_mem_filter hg]
  · have hfollows := h.follows k n d hturn horder hspared
    refine hfollows.putBack rfl hglides (fun g hg _ hlasts => ?_) fun g hg hgk hgone => ?_
    · refine hkept.putBack.lasting g ?_
      rw [List.nil_append, hglides]
      exact List.mem_append_left _ (List.mem_filter.mpr ⟨hg, hlasts⟩)
    · -- what is not live does not stand, and nothing has stopped it
      have hlength : k < (roll m.record).accepted.length := by
        rw [← map_glideOrders, List.length_map]
        exact (List.getElem?_eq_some_iff.mp horder).1
      have hfallen : k ∉ (roll m.record).standing := fun hstands =>
        hgone (by simpa [hgk] using hkept.putBack.logged.standing k hstands)
      obtain ⟨c, hc, hfinish⟩ := (standing_or_finished hlength hspared).resolve_left hfallen
      obtain ⟨-, -, -, -, hcalls⟩ := hfollows.moves g hg hgk
      rw [hcalls] at hc
      exact last_le_of_finish_mem hc hfinish

/-- A glide takes its turn: the others are where they are. -/
theorem takeTurn {g : Glide I} (h : OnCourse none m (g :: waiting) moved) :
    OnCourse (some g.number) m waiting moved where
  count := h.count
  known f hf := h.known f (List.mem_cons_of_mem g hf)
  fresh := h.fresh
  follows k n d hturn horder hspared := by
    have hother : g.number ≠ k := fun hgk => hturn (by rw [hgk])
    refine (h.follows k n d (Option.some_ne_none k).symm horder hspared).others (fun f hfk => ?_) fun _ _ => Iff.rfl
    rw [List.mem_cons, or_iff_right]
    rintro rfl
    exact hother hfk

theorem callGlide (script : Script C E I) {g : Glide I} (h : OnCourse (some g.number) m waiting moved)
    (hg : g.number < m.scheduler.glideCount) (c : Call) :
    OnCourse (some g.number) (m.callGlide script g c).1 waiting moved :=
  (h.noteGlide hg g.work c).perform _

end OnCourse

theorem callsOf_perform (k : Nat) (m : Machine C E I) (operations : List (Operation C E I)) :
    callsOf k (m.perform operations).record = callsOf k m.record :=
  keeps_perform (P := fun n => callsOf k n.record = callsOf k m.record)
    (fun n h operation _ => (OnCourse.callsOf_call k n operation).trans h) rfl

theorem glideCount_le_perform (m : Machine C E I) (operations : List (Operation C E I)) :
    m.scheduler.glideCount ≤ (m.perform operations).scheduler.glideCount :=
  keeps_perform (P := fun n => m.scheduler.glideCount ≤ n.scheduler.glideCount)
    (fun n h operation _ => Nat.le_trans h (n.scheduler.glides_obey operation).1) (Nat.le_refl _)

theorem callsOf_callGlide (script : Script C E I) (m : Machine C E I) (g : Glide I) (c : Call) :
    callsOf g.number (m.callGlide script g c).1.record =
      callsOf g.number m.record ++ [(m.scheduler.now, c)] := by
  have hcalled := callsOf_perform g.number (m.note (.glide g.number g.work c)) (script.glide g.work c).2
  rw [record_note, callsOf_append, callsOf_glide, if_pos rfl] at hcalled
  exact hcalled

/-- What calls on a glide in its turn come to. -/
structure Called (number : Nat) (m : Machine C E I) (waiting moved : List (Glide I)) (calls : List Call)
    (after : Machine C E I) : Prop where
  onCourse : OnCourse (some number) after waiting moved
  count : m.scheduler.glideCount ≤ after.scheduler.glideCount
  earlier : m.record <+: after.record
  calls : callsOf number after.record =
    callsOf number m.record ++ calls.map fun c => (m.scheduler.now, c)
  now : after.scheduler.now = m.scheduler.now

theorem called_callGlide (script : Script C E I) {m : Machine C E I} {g : Glide I}
    {waiting moved : List (Glide I)} (h : OnCourse (some g.number) m waiting moved)
    (hg : g.number < m.scheduler.glideCount) (c : Call) :
    Called g.number m waiting moved [c] (m.callGlide script g c).1 where
  onCourse := h.callGlide script hg c
  count := glideCount_le_perform (m.note (.glide g.number g.work c)) _
  earlier := (List.prefix_append _ _).trans (prefix_note_perform m _ _)
  calls := callsOf_callGlide script m g c
  now := now_callGlide script m g c

theorem Called.trans {number : Nat} {m n after : Machine C E I} {waiting moved : List (Glide I)}
    {before calls : List Call} (h : Called number m waiting moved before n)
    (hnext : Called number n waiting moved calls after) :
    Called number m waiting moved (before ++ calls) after where
  onCourse := hnext.onCourse
  count := Nat.le_trans h.count hnext.count
  earlier := h.earlier.trans hnext.earlier
  calls := by rw [hnext.calls, h.calls, h.now, List.append_assoc, List.map_append]
  now := hnext.now.trans h.now

/-- What a turn comes to: the machine after it, and the glide. -/
structure Turned (m : Machine C E I) (g : Glide I) (waiting moved : List (Glide I))
    (after : Machine C E I × Glide I) : Prop where
  onCourse : OnCourse (some g.number) after.1 waiting moved
  earlier : m.record <+: after.1.record
  calls : callsOf g.number after.1.record =
    callsOf g.number m.record ++ (g.turn m.scheduler.now).map fun c => (m.scheduler.now, c)
  now : after.1.scheduler.now = m.scheduler.now
  number : after.2.number = g.number
  duration : after.2.duration = g.duration
  startedAt : after.2.startedAt = some (g.startedAt.getD m.scheduler.now)
  hasEnded : after.2.hasEnded = true ↔ .finish ∈ g.turn m.scheduler.now

theorem moveGlide_turned (script : Script C E I) {m : Machine C E I} {g : Glide I}
    {waiting moved : List (Glide I)} (h : OnCourse (some g.number) m waiting moved)
    (hg : g.number < m.scheduler.glideCount) (hlasting : g.hasEnded = false) :
    Turned m g waiting moved (m.moveGlide script g) := by
  rcases moveGlide_cases script m g with ⟨hstart, heq⟩ | ⟨start, elapsed, hstart, helapsed, hshort, heq⟩ |
    ⟨start, elapsed, u, hstart, helapsed, hfull, hu, heq⟩
  · have hturn : g.turn m.scheduler.now = [.start] := by rw [Glide.turn, hstart]
    have hcalled := called_callGlide script (g := { g with startedAt := some m.scheduler.now }) h hg .start
    rw [heq]
    exact ⟨hcalled.onCourse, hcalled.earlier, hturn ▸ hcalled.calls, hcalled.now, rfl, rfl, by
      rw [hstart]; rfl, by simp [callGlide, hturn, hlasting]⟩
  · have hturn : g.turn m.scheduler.now = [.update elapsed g.duration] := by
      rw [Glide.turn, hstart, helapsed]
      exact congrArg _ (if_neg (helapsed ▸ hshort))
    have hcalled := called_callGlide script h hg (.update elapsed g.duration)
    rw [heq]
    exact ⟨hcalled.onCourse, hcalled.earlier, hturn ▸ hcalled.calls, hcalled.now, rfl, rfl, by
      simp [callGlide, hstart], by simp [callGlide, hturn, hlasting]⟩
  · have hturn : g.turn m.scheduler.now = [.update elapsed g.duration] ++ [.finish] := by
      rw [Glide.turn, hstart, helapsed]
      exact congrArg _ (if_pos (helapsed ▸ hfull))
    have hfirst := called_callGlide script h hg (.update elapsed g.duration)
    rw [← hu] at hfirst
    have hsame : u.2.number = g.number ∧ u.2.duration = g.duration ∧ u.2.startedAt = g.startedAt := by
      rw [hu]
      exact ⟨rfl, rfl, rfl⟩
    obtain ⟨hnumber, hduration, hstarted⟩ := hsame
    have hsecond := called_callGlide script (g := u.2) (hnumber.symm ▸ hfirst.onCourse)
      (hnumber.symm ▸ Nat.lt_of_lt_of_le hg hfirst.count) .finish
    have hcalled := hfirst.trans (hnumber ▸ hsecond)
    rw [heq]
    exact ⟨hcalled.onCourse, hcalled.earlier, hturn ▸ hcalled.calls, hcalled.now, hnumber, hduration,
      by rw [hstart] at hstarted ⊢; exact hstarted, by simp [hturn]⟩

/-- A glide that is on its course when it takes its turn is so when it has had it. -/
theorem Turned.follows {k n d : Nat} {m : Machine C E I} {g : Glide I} {waiting moved : List (Glide I)}
    {after : Machine C E I × Glide I} (hturned : Turned m g waiting moved after)
    (h : Follows k n d m.scheduler (callsOf k m.record) (g :: waiting) moved) (hgk : g.number = k)
    (hothers : ∀ f ∈ waiting ++ (moved ++ after.1.scheduler.glides), f.number ≠ k) :
    Follows k n d after.1.scheduler (callsOf k after.1.record) waiting (moved ++ [after.2]) := by
  obtain ⟨hduration, hstarted, hn, hlast, hcalls⟩ := h.waits g List.mem_cons_self hgk
  have hturn : g.turn m.scheduler.now = callsAt n d m.scheduler.now := turn_eq hduration hstarted hn hlast
  have hends : after.2.hasEnded = true ↔ last n d ≤ m.scheduler.now := by
    rw [hturned.hasEnded, hturn, finish_mem_callsAt_iff]
    omega
  have hdone : callsOf k after.1.record = upTo n d m.scheduler.now := by
    obtain ⟨before, hbefore⟩ : ∃ before, m.scheduler.now = before + 1 := ⟨m.scheduler.now - 1, by omega⟩
    rw [← hgk, hturned.calls, hgk, hcalls, hturn, hbefore, upTo, Nat.add_sub_cancel]
  constructor
  case waits => exact fun f hf hfk => absurd hfk (hothers f (by simp [hf]))
  case moves =>
    refine List.forall_mem_append.mpr ⟨fun f hf hfk => absurd hfk (hothers f (by simp [hf])),
      List.forall_mem_singleton.mpr fun _ => ?_⟩
    rw [hturned.now]
    refine ⟨hturned.duration.trans hduration, ?_, hn, hends, hdone⟩
    rw [hturned.startedAt, hstarted]
    split
    · rfl
    · have hfirst : m.scheduler.now = n + 1 := by omega
      rw [hfirst]
      rfl
  case rests => exact fun f hf hfk => absurd hfk (hothers f (by simp [hf]))
  case ended => exact fun habsent => absurd (hturned.number.trans hgk) (habsent after.2 (by simp))

namespace OnCourse

variable {m : Machine C E I} {waiting moved : List (Glide I)}

theorem moveGlide (script : Script C E I) {g : Glide I} (h : OnCourse none m (g :: waiting) moved)
    (hkept : Kept m (g :: waiting) moved)
    (hafter : Kept (m.moveGlide script g).1 waiting (moved ++ [(m.moveGlide script g).2])) :
    OnCourse none (m.moveGlide script g).1 waiting (moved ++ [(m.moveGlide script g).2]) := by
  have hg : g.number < m.scheduler.glideCount := h.known g List.mem_cons_self
  have hturned := moveGlide_turned script h.takeTurn hg (hkept.lasting g List.mem_cons_self)
  obtain ⟨after, hmove⟩ : ∃ after, after = m.moveGlide script g := ⟨_, rfl⟩
  rw [← hmove] at hturned hafter ⊢
  have hlater : g.number < after.1.scheduler.glideCount := hturned.number ▸ hafter.number_lt (by simp)
  refine ⟨hturned.onCourse.count, fun f hf => hafter.number_lt hf, hturned.onCourse.fresh,
    fun k n d _ horder hspared => ?_⟩
  by_cases hgk : g.number = k
  · have hbefore : Follows k n d m.scheduler (callsOf k m.record) (g :: waiting) moved := by
      refine h.follows k n d (Option.some_ne_none k).symm ?_ fun hhalted => hspared (hhalted.mono hturned.earlier)
      obtain ⟨more, hmore⟩ := hturned.earlier
      rwa [← hmore, glideOrders_append, List.getElem?_append_left (h.count ▸ hgk ▸ hg)] at horder
    refine hturned.follows hbefore hgk fun f hf hfk => ?_
    have hdistinct := hafter.housed.distinct
    have hperm : (waiting ++ (moved ++ [after.2] ++ after.1.scheduler.glides)).Perm
        (after.2 :: (waiting ++ (moved ++ after.1.scheduler.glides))) := by
      simp only [List.append_assoc, List.singleton_append]
      rw [← List.append_assoc, ← List.append_assoc]
      exact List.perm_middle
    rw [(hperm.map Glide.number).nodup_iff, List.map_cons, List.nodup_cons] at hdistinct
    refine hdistinct.1 ?_
    rw [hturned.number, hgk, ← hfk]
    exact List.mem_map_of_mem hf
  · refine (hturned.onCourse.follows k n d (fun heq => hgk (Option.some.inj heq)) horder hspared).others
      (fun _ _ => Iff.rfl) fun f hfk => ?_
    rw [List.mem_append, List.mem_singleton, or_iff_left]
    rintro rfl
    exact hgk (hturned.number.symm.trans hfk)

/-- One step, whatever it is. -/
theorem step (script : Script C E I) (h : OnCourse none m m.glidesWaiting m.glidesMoved)
    (hkept : Kept m m.glidesWaiting m.glidesMoved) (hafter : Kept (m.step script) (m.step script).glidesWaiting
      (m.step script).glidesMoved) :
    OnCourse none (m.step script) (m.step script).glidesWaiting (m.step script).glidesMoved := by
  rcases step_cases script m with ⟨hrest, heq⟩ | ⟨t, n, work, rest, htick, hc, heq⟩ |
    ⟨t, n, work, rest, htick, hc, he, heq⟩ | ⟨t, g, rest, htick, hc, he, hw, heq⟩ |
    ⟨t, htick, hc, he, hw, heq⟩
  · simp only [glidesWaiting, glidesMoved, hrest] at h
    rw [heq]
    exact h.begin
  · simp only [glidesWaiting, glidesMoved, htick] at h
    rw [heq]
    simp only [glidesWaiting, glidesMoved, tick_perform, tick_note]
    exact ((h.setTick _).note rfl fun _ => rfl).perform _
  · simp only [glidesWaiting, glidesMoved, htick] at h
    rw [heq]
    simp only [glidesWaiting, glidesMoved, tick_perform, tick_note]
    exact ((h.setTick _).note rfl fun _ => rfl).perform _
  · simp only [glidesWaiting, glidesMoved, htick, Option.map_some, Option.getD_some, hw] at h hkept
    rw [heq] at hafter ⊢
    have hmoved := hafter.setTick (m.moveGlide script g).1.tick
    exact (h.moveGlide script hkept hmoved).setTick _
  · simp only [glidesWaiting, glidesMoved, htick, Option.map_some, Option.getD_some, hw] at h hkept
    rw [heq]
    exact h.putBack hkept

end OnCourse

/-- Every glide is on its course throughout a run. -/
theorem onCourse_run (script : Script C E I) (start : Nat) (moves : List (Move C E I)) :
    let m := (Machine.startAt C E I start).run script moves
    OnCourse none m m.glidesWaiting m.glidesMoved := by
  have hkept : ∀ before : List (Move C E I),
      Kept ((Machine.startAt C E I start).run script before)
        ((Machine.startAt C E I start).run script before).glidesWaiting
        ((Machine.startAt C E I start).run script before).glidesMoved := fun before =>
    (steady_tidy.run script ⟨Kept.startAt start, Tidy.startAt start⟩ before).1
  have hconcat : ∀ before (mv : Move C E I), (Machine.startAt C E I start).run script (before ++ [mv]) =
      ((Machine.startAt C E I start).run script before).move script mv := fun before mv =>
    List.foldl_concat _ _ _ _
  induction moves using List.reverseRecOn with
  | nil => exact OnCourse.startAt start
  | append_singleton before mv ih =>
    have hafter := hkept (before ++ [mv])
    rw [hconcat] at hafter ⊢
    cases mv with
    | call operation => exact OnCourse.call ih operation
    | step => exact OnCourse.step script ih (hkept before) hafter

theorem steps_eq_run (script : Script C E I) (n : Nat) (m : Machine C E I) :
    steps script n m = m.run script (List.replicate n .step) := by
  induction n generalizing m with
  | zero => rfl
  | succ n ih => exact ih (m.step script)

/-- Letting milliseconds go by is a run, at the end of which the last of them is done. -/
theorem pass_spec (script : Script C E I) (n : Nat) {m : Machine C E I} (hrest : m.tick = none) :
    (∃ moves, pass script n m = m.run script moves) ∧ (pass script n m).tick = none ∧
      (pass script n m).scheduler.now = m.scheduler.now + n := by
  induction n generalizing m with
  | zero => exact ⟨⟨[], rfl⟩, hrest, rfl⟩
  | succ n ih =>
    obtain ⟨htick, hnow⟩ := complete_spec script m.begin
    obtain ⟨⟨moves, hmoves⟩, hdone, hlater⟩ := ih htick
    have hbegin : m.begin = m.step script := by rw [step, hrest]
    refine ⟨⟨.step :: (List.replicate m.begin.pending .step ++ moves), ?_⟩, hdone, ?_⟩
    · rw [pass, hmoves, complete, steps_eq_run, run, run, run, List.foldl_cons, List.foldl_append]
      rw [hbegin]
      rfl
    · rw [pass, hlater, hnow]
      simp only [begin]
      omega

/-- So do one advance after another. -/
theorem advances_spec (script : Script C E I) (times : List Nat) {m : Machine C E I} (hrest : m.tick = none) :
    (∃ moves, times.foldl (advanceTo script) m = m.run script moves) ∧
      (times.foldl (advanceTo script) m).tick = none ∧
      m.scheduler.now ≤ (times.foldl (advanceTo script) m).scheduler.now ∧
      ∀ time ∈ times, time ≤ (times.foldl (advanceTo script) m).scheduler.now := by
  induction times generalizing m with
  | nil => exact ⟨⟨[], rfl⟩, hrest, Nat.le_refl _, List.forall_mem_nil _⟩
  | cons time rest ih =>
    obtain ⟨⟨first, hfirst⟩, htick, hnow⟩ := pass_spec script (time - m.scheduler.now) hrest
    obtain ⟨⟨more, hmore⟩, hdone, hlater, hreached⟩ := ih htick
    rw [List.foldl_cons, advanceTo]
    refine ⟨⟨first ++ more, ?_⟩, hdone, by omega, List.forall_mem_cons.mpr ⟨by omega, hreached⟩⟩
    rw [hmore, hfirst, run, run, run, List.foldl_append]

/-- A glide has been called for what its course has for the milliseconds that are completed. -/
theorem Follows.exists_upTo {k n d : Nat} {m : Machine C E I} {calls : List (Nat × Call)}
    (h : Follows k n d m.scheduler calls m.glidesWaiting m.glidesMoved) :
    ∃ time, calls = upTo n d time ∧ ∀ past, m.HasCompleted past → past ≤ time := by
  have hpast : ∀ past, m.HasCompleted past → past ≤ m.scheduler.now := by
    rintro past (hlt | ⟨heq, -⟩)
    · exact Nat.le_of_lt hlt
    · exact Nat.le_of_eq heq
  by_cases hwaits : ∃ g ∈ m.glidesWaiting, g.number = k
  · obtain ⟨g, hg, hgk⟩ := hwaits
    obtain ⟨-, -, -, -, hcalls⟩ := h.waits g hg hgk
    refine ⟨_, hcalls, ?_⟩
    rintro past (hlt | ⟨-, hrest⟩)
    · exact Nat.le_sub_one_of_lt hlt
    · rw [glidesWaiting, Option.isNone_iff_eq_none.mp hrest] at hg
      cases hg
  by_cases hmoves : ∃ g ∈ m.glidesMoved, g.number = k
  · obtain ⟨g, hg, hgk⟩ := hmoves
    exact ⟨_, (h.moves g hg hgk).2.2.2.2, hpast⟩
  by_cases hrests : ∃ g ∈ m.scheduler.glides, g.number = k
  · obtain ⟨g, hg, hgk⟩ := hrests
    exact ⟨_, (h.rests g hg hgk).2.2.2.2, hpast⟩
  refine ⟨_, (h.ended fun g hg hgk => ?_).2, hpast⟩
  simp only [List.mem_append] at hg
  rcases hg with hg | hg | hg
  · exact hwaits ⟨g, hg, hgk⟩
  · exact hmoves ⟨g, hg, hgk⟩
  · exact hrests ⟨g, hg, hgk⟩

/-- What a run leaves on record stays there when more is done. -/
theorem record_run_prefix (script : Script C E I) (start : Nat) (moves later : List (Move C E I)) :
    ((Machine.startAt C E I start).run script moves).record <+:
      (((Machine.startAt C E I start).run script moves).run script later).record :=
  ((steady_tidy.and_prefix _).run script
    ⟨steady_tidy.run script ⟨Kept.startAt start, Tidy.startAt start⟩ moves, List.prefix_rfl⟩ later).2

/-- In every run, a glide accepted in millisecond `n` for `d` milliseconds and never stopped is called just
as its course has it: what it has been called for is the beginning of its course, and all of the course
that lies in completed milliseconds, so with the last of them it is the whole. That is so too after any
advances of which one comes as far. The portion that an update tells of is what has elapsed of the
duration, and all of it if there is none. -/
theorem glide_runs_its_course (script : Script C E I) (start : Nat) (moves : List (Move C E I)) :
    let m := (Machine.startAt C E I start).run script moves
    ∀ k n d, (glideOrders m.record)[k]? = some (n, d) →
      (¬ Halted k m.record →
        callsOf k m.record <+: whole n d ∧
        (∀ c ∈ whole n d, m.HasCompleted c.1 → c ∈ callsOf k m.record) ∧
        (m.HasCompleted (last n d) → callsOf k m.record = whole n d)) ∧
      (m.tick = none → ∀ times : List Nat, (∃ time ∈ times, last n d ≤ time) →
        ¬ Halted k (times.foldl (advanceTo script) m).record →
        callsOf k (times.foldl (advanceTo script) m).record = whole n d) ∧
      ∀ time elapsed duration, (time, .update elapsed duration) ∈ whole n d →
        (Call.portion elapsed duration : Rat) = if d = 0 then 1 else (elapsed : Rat) / d := by
  intro m k n d horder
  have hcourse : ∀ later : List (Move C E I), ¬ Halted k (m.run script later).record →
      ∃ time, callsOf k (m.run script later).record = upTo n d time ∧
        ∀ past, (m.run script later).HasCompleted past → past ≤ time := by
    intro later hspared
    have hrun : m.run script later = (Machine.startAt C E I start).run script (moves ++ later) := by
      rw [run, run, List.foldl_append]
      rfl
    have hcontinued : (glideOrders (m.run script later).record)[k]? = some (n, d) := by
      obtain ⟨more, hmore⟩ := record_run_prefix script start moves later
      rw [← hmore, glideOrders_append, List.getElem?_append_left (List.getElem?_eq_some_iff.mp horder).1]
      exact horder
    rw [hrun] at hspared hcontinued ⊢
    exact ((onCourse_run script start (moves ++ later)).follows k n d (Option.some_ne_none k).symm hcontinued
      hspared).exists_upTo
  refine ⟨fun hspared => ?_, fun hrest times hfar hspared => ?_, fun _ _ _ => portion_of_mem_whole⟩
  · obtain ⟨time, hcalls, hpast⟩ := hcourse [] hspared
    have hcalls : callsOf k m.record = upTo n d time := hcalls
    rw [hcalls]
    refine ⟨?_, fun c hc hdone => ?_, fun hdone => upTo_eq_whole (hpast _ hdone)⟩
    · rw [← upTo_eq_whole (Nat.le_max_right time (last n d))]
      exact upTo_prefix (Nat.le_max_left time (last n d))
    · rw [← upTo_last, mem_upTo_iff] at hc
      exact mem_upTo_iff.mpr ⟨hc.1, hpast _ hdone, hc.2.2⟩
  · obtain ⟨⟨later, hlater⟩, hdone, -, hreached⟩ := advances_spec script times hrest
    obtain ⟨far, hmem, hlast⟩ := hfar
    have hnow := Nat.le_trans hlast (hreached far hmem)
    rw [hlater] at hspared hdone hnow ⊢
    obtain ⟨time, hcalls, hpast⟩ := hcourse later hspared
    refine hcalls.trans (upTo_eq_whole (hpast _ ?_))
    rcases Nat.lt_or_eq_of_le hnow with hlt | heq
    · exact .inl hlt
    · exact .inr ⟨heq, by rw [hdone]; rfl⟩

/-- A command that has a glide follow. -/
def swelling : Script Unit Unit Unit where
  command _ := [.glide () 2]
  event _ := []
  glide work _ := (work, [])

/-- A glide over no time, and the command for the next millisecond, which is done. -/
def swellingMoves : List (Move Unit Unit Unit) :=
  [.call (.glide () 0), .call (.schedule 1 ()), .step, .step, .step, .step]

/-- Both glides run their courses in two advances. -/
theorem swelling_runs_its_course :
    let m := (Machine.startAt Unit Unit Unit 0).run swelling swellingMoves
    let a := [3, 5].foldl (advanceTo swelling) m
    (glideOrders m.record)[0]? = some (0, 0) ∧ (glideOrders m.record)[1]? = some (1, 2) ∧
      (∀ k, ¬ Halted k a.record) ∧ callsOf 0 m.record <+: whole 0 0 ∧
      callsOf 0 a.record = [(1, .start), (2, .update 0 0), (2, .finish)] ∧
      callsOf 1 a.record = [(2, .start), (3, .update 1 2), (4, .update 2 2), (4, .finish)] := by
  intro m a
  have hspared : ∀ k, ¬ Halted k a.record := fun k => not_halted (by decide)
  obtain ⟨hsofar, hfirst, -⟩ := glide_runs_its_course swelling 0 swellingMoves 0 0 0 rfl
  obtain ⟨-, hsecond, -⟩ := glide_runs_its_course swelling 0 swellingMoves 1 1 2 rfl
  exact ⟨rfl, rfl, hspared, (hsofar (not_halted (by decide))).1, hfirst rfl [3, 5] ⟨3, by decide⟩ (hspared 0),
    hsecond rfl [3, 5] ⟨5, by decide⟩ (hspared 1)⟩

end Machine

end ScoreText
