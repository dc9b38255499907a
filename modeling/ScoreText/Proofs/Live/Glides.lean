import ScoreText.Proofs.Live.OnTime

/-!
Where the glides are in the course of a millisecond. A millisecond takes them from the scheduler when
it begins and puts back those that last when it ends; in between, each has its turn, whatever is done
to the scheduler meanwhile.
-/

set_option autoImplicit false

namespace ScoreText

variable {C E I : Type}

/-- Whether a glide has had its turn of a millisecond with a call. When it is told of its full duration,
it is still to be told of its end. -/
def Call.endsTurn : Call → Bool
  | .start | .finish => true
  | .update elapsed duration => elapsed < duration

/-- What a record says of glides. -/
structure Roll where
  /-- The milliseconds in which glides were accepted, by number. -/
  accepted : List Nat := []
  /-- The numbers of the glides that were neither removed nor told of their end. -/
  standing : List Nat := []

def Roll.enter (r : Roll) : Nat × Happening C E I → Roll
  | (now, .did (.glide _ _) _) => ⟨r.accepted ++ [now], r.standing ++ [r.accepted.length]⟩
  | (_, .did (.stop k) (.truth true)) => { r with standing := r.standing.filter (· != k) }
  | (_, .did .clear _) => { r with standing := [] }
  | (_, .glide k _ .finish) => { r with standing := r.standing.filter (· != k) }
  | _ => r

namespace Record

def roll (record : List (Nat × Happening C E I)) : Roll := record.foldl Roll.enter {}

/-- The calls on a glide, each with its millisecond. -/
def callsOf (k : Nat) (record : List (Nat × Happening C E I)) : List (Nat × Call) :=
  record.filterMap fun
    | (now, .glide number _ call) => if number = k then some (now, call) else none
    | _ => none

/-- A glide has no turn to come in a millisecond: it has had it, or was accepted only then. -/
def TurnBehind (k time : Nat) (record : List (Nat × Happening C E I)) : Prop :=
  (roll record).accepted[k]? = some time ∨ ∃ c ∈ callsOf k record, c.1 = time ∧ c.2.endsTurn = true

@[simp] theorem roll_append (record : List (Nat × Happening C E I)) (e : Nat × Happening C E I) :
    roll (record ++ [e]) = (roll record).enter e := by
  simp [roll]

@[simp] theorem callsOf_append (k : Nat) (before after : List (Nat × Happening C E I)) :
    callsOf k (before ++ after) = callsOf k before ++ callsOf k after := by
  simp [callsOf]

/-- An entry that is no call on a glide does not bring its turn behind it, nor does the acceptance of
another. -/
theorem turnBehind_append_iff {k time : Nat} {record : List (Nat × Happening C E I)}
    {e : Nat × Happening C E I} (hcalls : callsOf k [e] = [])
    (haccepted : ((roll record).enter e).accepted[k]? = (roll record).accepted[k]?) :
    TurnBehind k time (record ++ [e]) ↔ TurnBehind k time record := by
  simp only [TurnBehind, roll_append, callsOf_append, hcalls, haccepted, List.append_nil]

theorem accepted_enter_glide (r : Roll) (now number : Nat) (work : I) (c : Call) :
    (r.enter (now, (.glide number work c : Happening C E I))).accepted = r.accepted := by
  cases c <;> rfl

theorem callsOf_glide (k now number : Nat) (work : I) (c : Call) :
    callsOf k [(now, (.glide number work c : Happening C E I))] =
      if number = k then [(now, c)] else [] := by
  by_cases h : number = k <;> simp [callsOf, h]

theorem turnBehind_call_iff {k time now number : Nat} {work : I} {c : Call}
    {record : List (Nat × Happening C E I)} :
    TurnBehind k time (record ++ [(now, .glide number work c)]) ↔
      TurnBehind k time record ∨ number = k ∧ now = time ∧ c.endsTurn = true := by
  simp only [TurnBehind, roll_append, callsOf_append, accepted_enter_glide, callsOf_glide,
    List.mem_append, or_and_right, exists_or, or_assoc]
  by_cases h : number = k <;> simp [h]

theorem le_of_turnBehind {k time now : Nat} {record : List (Nat × Happening C E I)}
    (haccepted : ∀ t ∈ (roll record).accepted, t ≤ now) (hstamped : ∀ e ∈ record, e.1 ≤ now)
    (h : TurnBehind k time record) : time ≤ now := by
  rcases h with h | ⟨c, hc, rfl, -⟩
  · exact haccepted time (List.mem_of_getElem? h)
  · obtain ⟨⟨t, happening⟩, he, hsome⟩ := List.mem_filterMap.mp hc
    cases happening with
    | glide number work call =>
      simp only [Option.ite_none_right_eq_some, Option.some.injEq] at hsome
      rw [← hsome.2]
      exact hstamped _ he
    | _ => cases hsome

end Record

namespace Machine

open Record

/-- What is on record of glides agrees with the scheduler. -/
structure Logged (m : Machine C E I) : Prop where
  count : (roll m.record).accepted.length = m.scheduler.glideCount
  accepted : ∀ time ∈ (roll m.record).accepted, time ≤ m.scheduler.now
  stamped : ∀ e ∈ m.record, e.1 ≤ m.scheduler.now
  standing : ∀ k ∈ (roll m.record).standing, k ∈ m.scheduler.live

/-- The numbers of the glides that there are, the live ones among them. -/
structure Housed (numbers : List Nat) (s : Scheduler C E I) : Prop where
  distinct : numbers.Nodup
  known : ∀ k ∈ numbers, k < s.glideCount
  live : ∀ k ∈ s.live, k ∈ numbers

/-- What holds of glides at every point of a run, of those whose turn is still to come in the
millisecond in progress, and those that have had it. -/
structure Kept (m : Machine C E I) (waiting moved : List (Glide I)) : Prop where
  logged : Logged m
  housed : Housed ((waiting ++ (moved ++ m.scheduler.glides)).map Glide.number) m.scheduler
  owed : ∀ g ∈ waiting, ¬ TurnBehind g.number m.scheduler.now m.record
  behind : ∀ g ∈ moved ++ m.scheduler.glides, TurnBehind g.number m.scheduler.now m.record
  lasting : ∀ g ∈ waiting ++ m.scheduler.glides, g.hasEnded = false
  ended : ∀ g ∈ moved, g.hasEnded = true → g.number ∉ (roll m.record).standing

theorem Logged.enter {m n : Machine C E I} (h : Logged m) {e : Happening C E I}
    (hrecord : n.record = m.record ++ [(m.scheduler.now, e)])
    (hnow : n.scheduler.now = m.scheduler.now)
    (hcount : n.scheduler.glideCount = m.scheduler.glideCount)
    (haccepted : ((roll m.record).enter (m.scheduler.now, e)).accepted = (roll m.record).accepted)
    (hstanding : ∀ k ∈ ((roll m.record).enter (m.scheduler.now, e)).standing, k ∈ n.scheduler.live) :
    Logged n where
  count := by
    rw [hrecord, roll_append, haccepted, hcount]
    exact h.count
  accepted := by
    rw [hrecord, roll_append, haccepted, hnow]
    exact h.accepted
  stamped := by
    rw [hrecord, hnow]
    exact List.forall_mem_append.mpr ⟨h.stamped, List.forall_mem_singleton.mpr (Nat.le_refl _)⟩
  standing := by
    rw [hrecord, roll_append]
    exact hstanding

/-- A glide that is accepted gets the next number, and stands. -/
theorem Logged.roll_accept {m : Machine C E I} (h : Logged m) (work : I) (duration : Nat) :
    roll (m.call (.glide work duration)).record =
      ⟨(roll m.record).accepted ++ [m.scheduler.now],
        (roll m.record).standing ++ [m.scheduler.glideCount]⟩ := by
  rw [record_call, roll_append, ← h.count]
  rfl

theorem Logged.accept {m : Machine C E I} (h : Logged m) (work : I) (duration : Nat) :
    Logged (m.call (.glide work duration)) where
  count := by
    rw [h.roll_accept, List.length_append, h.count]
    rfl
  accepted := by
    rw [h.roll_accept]
    exact List.forall_mem_append.mpr ⟨h.accepted, List.forall_mem_singleton.mpr (Nat.le_refl _)⟩
  stamped := by
    rw [record_call]
    exact List.forall_mem_append.mpr ⟨h.stamped, List.forall_mem_singleton.mpr (Nat.le_refl _)⟩
  standing := by
    rw [h.roll_accept]
    exact fun k hk => List.mem_append.mpr ((List.mem_append.mp hk).imp_left (h.standing k))

theorem Housed.accept {numbers : List Nat} {s : Scheduler C E I} (h : Housed numbers s) (work : I)
    (duration : Nat) : Housed (numbers ++ [s.glideCount]) (s.addGlide work duration) where
  distinct := by
    refine List.nodup_append.mpr ⟨h.distinct, List.nodup_singleton _, fun a ha b hb => ?_⟩
    rw [List.mem_singleton.mp hb]
    exact Nat.ne_of_lt (h.known a ha)
  known := List.forall_mem_append.mpr ⟨fun k hk => Nat.lt_succ_of_lt (h.known k hk),
    List.forall_mem_singleton.mpr (Nat.lt_succ_self _)⟩
  live k hk := List.mem_append.mpr ((List.mem_append.mp hk).imp_left (h.live k))

theorem Housed.perm {numbers others : List Nat} {s : Scheduler C E I} (h : Housed numbers s)
    (hperm : others.Perm numbers) : Housed others s where
  distinct := hperm.nodup_iff.mpr h.distinct
  known k hk := h.known k (hperm.mem_iff.mp hk)
  live k hk := hperm.mem_iff.mpr (h.live k hk)

namespace Kept

variable {m : Machine C E I} {waiting moved : List (Glide I)}

theorem startAt (start : Nat) : Kept (Machine.startAt C E I start) [] [] where
  logged := ⟨rfl, List.forall_mem_nil _, List.forall_mem_nil _, List.forall_mem_nil _⟩
  housed := ⟨.nil, List.forall_mem_nil _, List.forall_mem_nil _⟩
  owed := List.forall_mem_nil _
  behind := List.forall_mem_nil _
  lasting := List.forall_mem_nil _
  ended := List.forall_mem_nil _

theorem number_lt (h : Kept m waiting moved) {g : Glide I}
    (hg : g ∈ waiting ++ (moved ++ m.scheduler.glides)) : g.number < m.scheduler.glideCount :=
  h.housed.known _ (List.mem_map_of_mem hg)

theorem exists_of_live (h : Kept m waiting moved) {k : Nat} (hk : k ∈ m.scheduler.live) :
    ∃ g ∈ waiting ++ (moved ++ m.scheduler.glides), g.number = k :=
  List.mem_map.mp (h.housed.live k hk)

/-- An entry after which there may be fewer glides in the scheduler, and fewer that stand. -/
theorem fewer (h : Kept m waiting moved) {n : Machine C E I} {e : Happening C E I}
    (hrecord : n.record = m.record ++ [(m.scheduler.now, e)])
    (hnow : n.scheduler.now = m.scheduler.now)
    (hcount : n.scheduler.glideCount = m.scheduler.glideCount)
    (hglides : n.scheduler.glides.Sublist m.scheduler.glides)
    (hlive : ∀ k ∈ n.scheduler.live, k ∈ m.scheduler.live)
    (hkeeps : ∀ g ∈ m.scheduler.glides, g.number ∈ n.scheduler.live → g ∈ n.scheduler.glides)
    (haccepted : ((roll m.record).enter (m.scheduler.now, e)).accepted = (roll m.record).accepted)
    (hstanding : ∀ k ∈ ((roll m.record).enter (m.scheduler.now, e)).standing,
      k ∈ (roll m.record).standing ∧ k ∈ n.scheduler.live)
    (hcalls : ∀ k, callsOf k [(m.scheduler.now, e)] = []) : Kept n waiting moved := by
  have hbehind : ∀ k time, TurnBehind k time n.record ↔ TurnBehind k time m.record := by
    intro k time
    rw [hrecord]
    exact turnBehind_append_iff (hcalls k) (by rw [haccepted])
  have hsub : (waiting ++ (moved ++ n.scheduler.glides)).Sublist
      (waiting ++ (moved ++ m.scheduler.glides)) :=
    (List.Sublist.refl _).append ((List.Sublist.refl _).append hglides)
  constructor
  case logged => exact h.logged.enter hrecord hnow hcount haccepted fun k hk => (hstanding k hk).2
  case housed =>
    refine ⟨h.housed.distinct.sublist (hsub.map _), fun k hk => ?_, fun k hk => ?_⟩
    · rw [hcount]
      exact h.housed.known k ((hsub.map _).mem hk)
    · obtain ⟨g, hg, rfl⟩ := h.exists_of_live (hlive k hk)
      refine List.mem_map_of_mem ?_
      simp only [List.mem_append] at hg ⊢
      exact hg.imp_right fun hg => hg.imp_right fun hg => hkeeps g hg hk
  case owed =>
    simp only [hbehind, hnow]
    exact h.owed
  case behind =>
    simp only [hbehind, hnow]
    exact fun g hg => h.behind g (((List.Sublist.refl _).append hglides).mem hg)
  case lasting => exact fun g hg => h.lasting g (((List.Sublist.refl _).append hglides).mem hg)
  case ended =>
    rw [hrecord, roll_append]
    exact fun g hg hended hk => h.ended g hg hended (hstanding _ hk).1

/-- What is neither about glides nor a call on one. -/
theorem quiet (h : Kept m waiting moved) {n : Machine C E I} {e : Happening C E I}
    (hrecord : n.record = m.record ++ [(m.scheduler.now, e)])
    (hnow : n.scheduler.now = m.scheduler.now) (hglides : n.scheduler.glides = m.scheduler.glides)
    (hlive : n.scheduler.live = m.scheduler.live)
    (hcount : n.scheduler.glideCount = m.scheduler.glideCount)
    (hroll : (roll m.record).enter (m.scheduler.now, e) = roll m.record)
    (hcalls : ∀ k, callsOf k [(m.scheduler.now, e)] = []) : Kept n waiting moved := by
  refine h.fewer hrecord hnow hcount (hglides ▸ List.Sublist.refl _) (fun k hk => hlive ▸ hk)
    (fun g hg _ => hglides ▸ hg) (by rw [hroll]) (fun k hk => ?_) hcalls
  rw [hroll] at hk
  exact ⟨hk, hlive ▸ h.logged.standing k hk⟩

theorem accept (h : Kept m waiting moved) (work : I) (duration : Nat) :
    Kept (m.call (.glide work duration)) waiting moved := by
  obtain ⟨g, hg⟩ : ∃ g : Glide I, g = ⟨m.scheduler.glideCount, work, duration, none, false⟩ := ⟨_, rfl⟩
  have hnumber : g.number = m.scheduler.glideCount := by rw [hg]
  have hglides : (m.call (.glide work duration)).scheduler.glides = m.scheduler.glides ++ [g] := by
    rw [hg]
    rfl
  have hroll := h.logged.roll_accept work duration
  have hbehind : ∀ k < m.scheduler.glideCount,
      (TurnBehind k m.scheduler.now (m.call (.glide work duration)).record ↔
        TurnBehind k m.scheduler.now m.record) := by
    intro k hk
    rw [record_call]
    exact turnBehind_append_iff rfl (List.getElem?_append_left (by rwa [h.logged.count]))
  constructor
  case logged => exact h.logged.accept work duration
  case housed =>
    have hnumbers : (waiting ++ (moved ++ (m.call (.glide work duration)).scheduler.glides)).map
        Glide.number =
        (waiting ++ (moved ++ m.scheduler.glides)).map Glide.number ++ [m.scheduler.glideCount] := by
      rw [hglides]
      simp only [List.map_append, List.map_cons, List.map_nil, hnumber, List.append_assoc]
    rw [hnumbers]
    exact h.housed.accept work duration
  case owed =>
    exact fun f hf => mt (hbehind _ (h.number_lt (List.mem_append_left _ hf))).mp (h.owed f hf)
  case behind =>
    rw [hglides, ← List.append_assoc]
    refine List.forall_mem_append.mpr ⟨fun f hf => ?_, List.forall_mem_singleton.mpr ?_⟩
    · exact (hbehind _ (h.number_lt (List.mem_append_right _ hf))).mpr (h.behind f hf)
    · refine .inl ?_
      rw [hroll, hnumber, ← h.logged.count]
      exact List.getElem?_concat_length
  case lasting =>
    rw [hglides, ← List.append_assoc]
    exact List.forall_mem_append.mpr ⟨h.lasting, List.forall_mem_singleton.mpr (by rw [hg])⟩
  case ended =>
    rw [hroll]
    intro f hf hended hk
    rcases List.mem_append.mp hk with hk | hk
    · exact h.ended f hf hended hk
    · exact Nat.ne_of_lt (h.number_lt (List.mem_append_right _ (List.mem_append_left _ hf)))
        (List.mem_singleton.mp hk)

/-- A glide that is stopped leaves the scheduler, if it was live. -/
theorem stop (h : Kept m waiting moved) (k : Nat) : Kept (m.call (.stop k)) waiting moved := by
  have hnow : (m.call (.stop k)).scheduler.now = m.scheduler.now := by simp
  have hrecord : (m.call (.stop k)).record = m.record ++
      [(m.scheduler.now, .did (.stop k) (m.scheduler.obey (.stop k)).2)] := by
    rw [record_call, Scheduler.now_obey]
  by_cases hk : k < m.scheduler.glideCount
  · by_cases hlive : k ∈ m.scheduler.live
    · have hobey : m.scheduler.obey (.stop k : Operation C E I) =
          ({ m.scheduler with
              live := m.scheduler.live.filter (· != k)
              glides := m.scheduler.glides.filter fun g => g.number != k }, .truth true) := by
        simp [Scheduler.obey, Scheduler.removeGlide, hk, hlive]
      rw [hobey] at hrecord
      refine h.fewer hrecord hnow ?_ ?_ ?_ ?_ rfl ?_ (fun _ => rfl) <;> rw [scheduler_call, hobey]
      · exact List.filter_sublist
      · exact fun j hj => List.mem_of_mem_filter hj
      · exact fun g hg hj => List.mem_filter.mpr ⟨hg, (List.mem_filter.mp hj).2⟩
      · intro j hj
        obtain ⟨hj, hne⟩ := List.mem_filter.mp hj
        exact ⟨hj, List.mem_filter.mpr ⟨h.logged.standing j hj, hne⟩⟩
    · have hobey : m.scheduler.obey (.stop k : Operation C E I) = (m.scheduler, .truth false) := by
        simp [Scheduler.obey, Scheduler.removeGlide, hk, hlive]
      rw [hobey] at hrecord
      refine h.quiet hrecord hnow ?_ ?_ ?_ rfl (fun _ => rfl) <;> rw [scheduler_call, hobey]
  · have hobey : m.scheduler.obey (.stop k : Operation C E I) = (m.scheduler, .nothing) := by
      simp [Scheduler.obey, hk]
    rw [hobey] at hrecord
    refine h.quiet hrecord hnow ?_ ?_ ?_ rfl (fun _ => rfl) <;> rw [scheduler_call, hobey]

/-- Whatever a caller or running work asks of the scheduler. -/
theorem call (h : Kept m waiting moved) (operation : Operation C E I) :
    Kept (m.call operation) waiting moved := by
  have hcalls : ∀ k, callsOf k [(m.scheduler.now,
      (.did operation (m.scheduler.obey operation).2 : Happening C E I))] = [] := fun _ => rfl
  have hnow : (m.call operation).scheduler.now = m.scheduler.now := by simp
  have hrecord : (m.call operation).record = m.record ++
      [(m.scheduler.now, .did operation (m.scheduler.obey operation).2)] := by
    rw [record_call, Scheduler.now_obey]
  cases operation with
  | glide work duration => exact h.accept work duration
  | stop k => exact h.stop k
  | clear =>
    have hlive : (m.call .clear).scheduler.live = [] := rfl
    exact h.fewer hrecord hnow rfl (List.nil_sublist _) (List.forall_mem_nil _)
      (fun g _ hk => absurd (hlive ▸ hk) List.not_mem_nil) rfl (List.forall_mem_nil _) hcalls
  | withdraw k =>
    have hsame : (m.scheduler.obey (.withdraw k)).1.glides = m.scheduler.glides ∧
        (m.scheduler.obey (.withdraw k)).1.live = m.scheduler.live ∧
        (m.scheduler.obey (.withdraw k)).1.glideCount = m.scheduler.glideCount := by
      simp only [Scheduler.obey]
      split <;> exact ⟨rfl, rfl, rfl⟩
    exact h.quiet hrecord hnow hsame.1 hsame.2.1 hsame.2.2 rfl hcalls
  | schedule | scheduleEvent | isIdle | time => exact h.quiet hrecord hnow rfl rfl rfl rfl hcalls

theorem number_ne {g : Glide I} (h : Kept m (g :: waiting) moved) :
    ∀ f ∈ waiting, f.number ≠ g.number := by
  have hdistinct := h.housed.distinct
  rw [List.cons_append, List.map_cons, List.nodup_cons] at hdistinct
  exact fun f hf hfg => hdistinct.1 (hfg ▸ List.mem_map_of_mem (List.mem_append_left _ hf))

/-- A call after which another is to come in the same turn. -/
theorem callMore {g f : Glide I} (h : Kept m (g :: waiting) moved) (work : I) {c : Call}
    (hc : c.endsTurn = false) (hnumber : f.number = g.number) (hended : f.hasEnded = false) :
    Kept (m.note (.glide g.number work c)) (f :: waiting) moved := by
  have henter : (roll m.record).enter (m.scheduler.now, (.glide g.number work c : Happening C E I)) =
      roll m.record := by
    cases c with
    | update elapsed duration => rfl
    | start | finish => cases hc
  have hbehind : ∀ k time, TurnBehind k time (m.note (.glide g.number work c)).record ↔
      TurnBehind k time m.record := by
    intro k time
    rw [record_note, turnBehind_call_iff, hc]
    simp
  constructor
  case logged =>
    refine h.logged.enter (record_note m _) rfl rfl (by rw [henter]) ?_
    rw [henter]
    exact h.logged.standing
  case housed =>
    have hhoused := h.housed
    rwa [List.cons_append, List.map_cons, ← hnumber] at hhoused
  case owed =>
    simp only [hbehind]
    obtain ⟨hg, hrest⟩ := List.forall_mem_cons.mp h.owed
    exact List.forall_mem_cons.mpr ⟨hnumber ▸ hg, hrest⟩
  case behind =>
    simp only [hbehind]
    exact h.behind
  case lasting => exact List.forall_mem_cons.mpr ⟨hended, (List.forall_mem_cons.mp h.lasting).2⟩
  case ended =>
    rw [record_note, roll_append, henter]
    exact h.ended

/-- The call with which a glide has had its turn. -/
theorem callLast {g f : Glide I} (h : Kept m (g :: waiting) moved) (work : I) {c : Call}
    (hc : c.endsTurn = true) (hnumber : f.number = g.number)
    (hended : f.hasEnded = true → c = .finish) :
    Kept (m.note (.glide g.number work c)) waiting (moved ++ [f]) := by
  have hstanding : ∀ k ∈ ((roll m.record).enter
      (m.scheduler.now, (.glide g.number work c : Happening C E I))).standing,
      k ∈ (roll m.record).standing ∧ (c = .finish → k ≠ g.number) := by
    intro k hk
    cases c with
    | finish => simpa [Roll.enter] using hk
    | start | update => exact ⟨hk, nofun⟩
  constructor
  case logged =>
    exact h.logged.enter (record_note m _) rfl rfl (accepted_enter_glide _ _ _ _ _)
      fun k hk => h.logged.standing k (hstanding k hk).1
  case housed =>
    refine h.housed.perm ?_
    simp only [List.map_append, List.map_cons, hnumber, List.append_assoc, List.cons_append,
      List.nil_append, scheduler_note]
    rw [← List.append_assoc, ← List.append_assoc]
    exact List.perm_middle
  case owed =>
    intro a ha hbehind
    rw [record_note, turnBehind_call_iff] at hbehind
    rcases hbehind with hbehind | ⟨hsame, -, -⟩
    · exact h.owed a (List.mem_cons_of_mem g ha) hbehind
    · exact h.number_ne a ha hsame.symm
  case behind =>
    intro a ha
    rw [record_note, turnBehind_call_iff]
    rcases List.mem_append.mp ha with ha | ha
    · rcases List.mem_append.mp ha with ha | ha
      · exact .inl (h.behind a (List.mem_append_left _ ha))
      · rw [List.mem_singleton.mp ha]
        exact .inr ⟨hnumber.symm, rfl, hc⟩
    · exact .inl (h.behind a (List.mem_append_right _ ha))
  case lasting => exact (List.forall_mem_cons.mp h.lasting).2
  case ended =>
    intro a ha hends hk
    rw [record_note, roll_append] at hk
    obtain ⟨hk, hne⟩ := hstanding _ hk
    rcases List.mem_append.mp ha with ha | ha
    · exact h.ended a ha hends hk
    · rw [List.mem_singleton.mp ha] at hends hne
      exact hne (hended hends) hnumber

/-- The glides that the scheduler has are those of the next millisecond, and nothing is on record for
that yet. -/
theorem begin (h : Kept m [] []) : Kept m.begin m.scheduler.glides [] := by
  constructor
  case logged =>
    exact ⟨h.logged.count, fun t ht => Nat.le_succ_of_le (h.logged.accepted t ht),
      fun e he => Nat.le_succ_of_le (h.logged.stamped e he), h.logged.standing⟩
  case housed =>
    have hhoused : Housed (m.scheduler.glides.map Glide.number) m.scheduler := h.housed
    have hglides : m.scheduler.glides ++ ([] ++ m.begin.scheduler.glides) = m.scheduler.glides :=
      List.append_nil _
    rw [hglides]
    exact ⟨hhoused.distinct, hhoused.known, hhoused.live⟩
  case owed =>
    intro g hg hbehind
    exact absurd (le_of_turnBehind h.logged.accepted h.logged.stamped hbehind)
      (Nat.not_succ_le_self _)
  case behind => exact List.forall_mem_nil _
  case lasting =>
    have hglides : m.scheduler.glides ++ m.begin.scheduler.glides = m.scheduler.glides :=
      List.append_nil _
    rw [hglides]
    exact h.lasting
  case ended => exact List.forall_mem_nil _

theorem putBack (h : Kept m [] moved) : Kept (m.putBack moved) [] [] := by
  have hlive : ∀ k ∈ (m.putBack moved).scheduler.live,
      k ∈ m.scheduler.live ∧ ∀ g ∈ moved, g.hasEnded = true → g.number ≠ k := by
    intro k hk
    obtain ⟨hk, hended⟩ := List.mem_filter.mp hk
    refine ⟨hk, fun g hg hends hgk => ?_⟩
    have : k ∈ (moved.filter Glide.hasEnded).map Glide.number :=
      List.mem_map.mpr ⟨g, List.mem_filter.mpr ⟨hg, hends⟩, hgk⟩
    simp [this] at hended
  have hglides : (m.putBack moved).scheduler.glides =
      (moved.filter fun g => (m.putBack moved).scheduler.live.contains g.number) ++
        m.scheduler.glides := rfl
  have hsub : ((m.putBack moved).scheduler.glides).Sublist (moved ++ m.scheduler.glides) := by
    rw [hglides]
    exact List.filter_sublist.append (List.Sublist.refl _)
  constructor
  case logged =>
    refine ⟨h.logged.count, h.logged.accepted, h.logged.stamped, fun k hk => ?_⟩
    have hlasts : k ∉ (moved.filter Glide.hasEnded).map Glide.number := by
      intro hm
      obtain ⟨g, hg, rfl⟩ := List.mem_map.mp hm
      obtain ⟨hg, hends⟩ := List.mem_filter.mp hg
      exact h.ended g hg hends hk
    exact List.mem_filter.mpr ⟨h.logged.standing k hk, by simpa using hlasts⟩
  case housed =>
    refine ⟨h.housed.distinct.sublist (hsub.map _),
      fun k hk => h.housed.known k ((hsub.map _).mem hk), fun k hk => ?_⟩
    obtain ⟨g, hg, rfl⟩ := h.exists_of_live (hlive k hk).1
    refine List.mem_map_of_mem ?_
    rw [List.nil_append] at hg
    rw [hglides, List.nil_append, List.nil_append]
    rcases List.mem_append.mp hg with hg | hg
    · exact List.mem_append_left _ (List.mem_filter.mpr ⟨hg, by simpa using hk⟩)
    · exact List.mem_append_right _ hg
  case owed => exact List.forall_mem_nil _
  case behind => exact fun g hg => h.behind g (hsub.mem hg)
  case lasting =>
    intro g hg
    rw [List.nil_append, hglides] at hg
    rcases List.mem_append.mp hg with hg | hg
    · obtain ⟨hg, hk⟩ := List.mem_filter.mp hg
      by_contra hends
      exact (hlive g.number (by simpa using hk)).2 g hg (by simpa using hends) rfl
    · exact h.lasting g hg
  case ended => exact List.forall_mem_nil _

theorem setTick (h : Kept m waiting moved) (tick : Option (Tick C E I)) :
    Kept ({ m with tick := tick } : Machine C E I) waiting moved :=
  ⟨⟨h.logged.count, h.logged.accepted, h.logged.stamped, h.logged.standing⟩, h.housed, h.owed, h.behind,
    h.lasting, h.ended⟩

end Kept

end Machine

end ScoreText
