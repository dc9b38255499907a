import ScoreText.Proofs.Sequence.Pairing
import ScoreText.Sequence.Replay

/-!
The groups of a track lose nothing: read one after another they give its notes and its other events
back, each in their order.
-/

set_option autoImplicit false

namespace ScoreText

namespace Replay

open Stable Sequence

namespace Group

def timed (g : Group) : List TimedEvent := g.events.map fun event => ⟨g.tick, event⟩

def withEvent (e : TimedEvent) (g : Group) : Group := { g with events := g.events ++ [e.event] }

def withNote (n : SequencedNote) (g : Group) : Group := { g with notes := g.notes ++ [n] }

end Group

/-- Groups in ascending order, with no two at a tick. -/
def Ascending (gs : List Group) : Prop := gs.Pairwise fun a b => a.tick < b.tick

theorem ascending_update {gs : List Group} (h : Ascending gs) (tick : Nat) {f : Group → Group}
    (hf : ∀ g, (f g).tick = g.tick) :
    Ascending (update tick f gs) ∧ ∀ g ∈ update tick f gs, g.tick = tick ∨ ∃ a ∈ gs, g.tick = a.tick := by
  induction gs with
  | nil => simp [update, Ascending, hf]
  | cons a rest ih =>
    obtain ⟨ha, hrest⟩ := List.pairwise_cons.mp h
    obtain ⟨hasc, hmem⟩ := ih hrest
    simp only [update]
    split
    · rename_i hlt
      refine ⟨List.pairwise_cons.mpr ⟨fun b hb => ?_, h⟩, fun g hg => ?_⟩
      · rw [hf]
        rcases List.mem_cons.mp hb with rfl | hb
        · exact hlt
        · exact Nat.lt_trans hlt (ha b hb)
      · rcases List.mem_cons.mp hg with rfl | hg
        · exact .inl (hf _)
        · exact .inr ⟨g, hg, rfl⟩
    · split
      · rename_i heq
        refine ⟨List.pairwise_cons.mpr ⟨fun b hb => ?_, hrest⟩, fun g hg => ?_⟩
        · rw [hf]
          exact ha b hb
        · rcases List.mem_cons.mp hg with rfl | hg
          · exact .inl (by rw [hf, heq])
          · exact .inr ⟨g, List.mem_cons_of_mem a hg, rfl⟩
      · refine ⟨List.pairwise_cons.mpr ⟨fun b hb => ?_, hasc⟩, fun g hg => ?_⟩
        · rcases hmem b hb with h | ⟨c, hc, h⟩
          · omega
          · rw [h]
            exact ha c hc
        · rcases List.mem_cons.mp hg with rfl | hg
          · exact .inr ⟨g, List.mem_cons_self, rfl⟩
          · rcases hmem g hg with h | ⟨c, hc, h⟩
            · exact .inl h
            · exact .inr ⟨c, List.mem_cons_of_mem a hc, h⟩

section

variable {β : Type} {key : β → Nat} {part : Group → List β}

/-- A part of each group whose elements lie on the group's tick. -/
def OnTick (key : β → Nat) (part : Group → List β) (gs : List Group) : Prop :=
  ∀ g ∈ gs, ∀ b ∈ part g, key b = g.tick

theorem OnTick.tail {g : Group} {gs : List Group} (h : OnTick key part (g :: gs)) :
    OnTick key part gs := fun a ha => h a (List.mem_cons_of_mem g ha)

theorem class_eq_nil_of_lt {v : Nat} {gs : List Group} (h : OnTick key part gs)
    (hlt : ∀ g ∈ gs, v < g.tick) : (gs.flatMap part).filter (fun b => key b == v) = [] := by
  rw [List.filter_eq_nil_iff]
  intro b hb
  obtain ⟨g, hg, hbg⟩ := List.mem_flatMap.mp hb
  have hkey := h g hg b hbg
  have := hlt g hg
  simp only [beq_iff_eq]
  omega

theorem sortedBy_flatMap {gs : List Group} (h : Ascending gs) (ht : OnTick key part gs) :
    SortedBy key (gs.flatMap part) := by
  induction gs with
  | nil => exact List.Pairwise.nil
  | cons g rest ih =>
    obtain ⟨hg, hrest⟩ := List.pairwise_cons.mp h
    rw [List.flatMap_cons]
    refine List.pairwise_append.mpr ⟨?_, ih hrest ht.tail, fun a ha b hb => ?_⟩
    · refine List.pairwise_of_forall_mem_list fun a ha b hb => ?_
      have h₁ := ht g List.mem_cons_self a ha
      have h₂ := ht g List.mem_cons_self b hb
      omega
    · obtain ⟨c, hc, hb⟩ := List.mem_flatMap.mp hb
      have h₁ := ht g List.mem_cons_self a ha
      have h₂ := ht.tail c hc b hb
      have := hg c hc
      omega

variable {f : Group → Group} {tick : Nat} {more : List β}

theorem OnTick.update {gs : List Group} (h : OnTick key part gs) (hf : ∀ g, (f g).tick = g.tick)
    (hpart : ∀ g, g.tick = tick → part (f g) = part g ++ more) (hmore : ∀ b ∈ more, key b = tick)
    (hempty : part ⟨tick, [], []⟩ = []) : OnTick key part (update tick f gs) := by
  have hfresh : ∀ b ∈ part (f ⟨tick, [], []⟩), key b = (f ⟨tick, [], []⟩).tick := by
    intro b hb
    rw [hpart _ rfl, hempty, List.nil_append] at hb
    rw [hf, hmore b hb]
  induction gs with
  | nil => simpa [Replay.update, OnTick] using hfresh
  | cons a rest ih =>
    simp only [Replay.update]
    split
    · intro g hg
      rcases List.mem_cons.mp hg with rfl | hg
      · exact hfresh
      · exact h g hg
    · split
      · rename_i heq
        intro g hg b hb
        rcases List.mem_cons.mp hg with rfl | hg
        · rw [hpart a heq.symm] at hb
          rw [hf]
          rcases List.mem_append.mp hb with hb | hb
          · exact h a List.mem_cons_self b hb
          · rw [hmore b hb, heq]
        · exact h g (List.mem_cons_of_mem a hg) b hb
      · intro g hg
        rcases List.mem_cons.mp hg with rfl | hg
        · exact h g List.mem_cons_self
        · exact ih h.tail g hg

/-- At its tick an update puts more behind what is there; other ticks see nothing of it. -/
theorem class_update {gs : List Group} (hasc : Ascending gs) (h : OnTick key part gs)
    (hpart : ∀ g, g.tick = tick → part (f g) = part g ++ more)
    (hempty : part ⟨tick, [], []⟩ = []) (hmore : ∀ b ∈ more, key b = tick) (v : Nat) :
    ((update tick f gs).flatMap part).filter (fun b => key b == v) =
      (gs.flatMap part).filter (fun b => key b == v) ++ more.filter fun b => key b == v := by
  have hlater : ∀ rest : List Group, OnTick key part rest → (∀ g ∈ rest, tick < g.tick) →
      more.filter (fun b => key b == v) ++ (rest.flatMap part).filter (fun b => key b == v) =
        (rest.flatMap part).filter (fun b => key b == v) ++ more.filter fun b => key b == v := by
    intro rest hrest hlt
    by_cases hv : v = tick
    · rw [class_eq_nil_of_lt hrest (by rw [hv]; exact hlt)]
      simp
    · have : more.filter (fun b => key b == v) = [] := by
        rw [List.filter_eq_nil_iff]
        intro b hb
        have := hmore b hb
        simp only [beq_iff_eq]
        omega
      rw [this]
      simp
  induction gs with
  | nil => simp [update, hpart, hempty]
  | cons a rest ih =>
    obtain ⟨ha, hrest⟩ := List.pairwise_cons.mp hasc
    simp only [update]
    split
    · rename_i hlt
      rw [List.flatMap_cons, List.filter_append, hpart _ rfl, hempty, List.nil_append]
      refine hlater _ h fun g hg => ?_
      rcases List.mem_cons.mp hg with rfl | hg
      · exact hlt
      · exact Nat.lt_trans hlt (ha g hg)
    · split
      · rename_i heq
        rw [List.flatMap_cons, List.flatMap_cons, hpart a heq.symm, List.filter_append,
          List.filter_append, List.filter_append, List.append_assoc, List.append_assoc,
          hlater rest h.tail fun g hg => by rw [heq]; exact ha g hg]
      · rw [List.flatMap_cons, List.flatMap_cons, List.filter_append, List.filter_append,
          ih hrest h.tail, List.append_assoc]

/-- Updating for sorted elements one after another leaves what they bring in their order. -/
theorem flatMap_foldl_update {γ : Type} (f : γ → Group → Group) (tick : γ → Nat)
    {more : γ → List β} (hf : ∀ c g, (f c g).tick = g.tick)
    (hpart : ∀ c g, g.tick = tick c → part (f c g) = part g ++ more c)
    (hempty : ∀ v, part ⟨v, [], []⟩ = []) (hmore : ∀ c, ∀ b ∈ more c, key b = tick c)
    {gs : List Group} (hasc : Ascending gs) (ht : OnTick key part gs) (cs : List γ)
    (hsorted : SortedBy key (gs.flatMap part ++ cs.flatMap more)) :
    Ascending (cs.foldl (fun gs c => update (tick c) (f c) gs) gs) ∧
      OnTick key part (cs.foldl (fun gs c => update (tick c) (f c) gs) gs) ∧
      (cs.foldl (fun gs c => update (tick c) (f c) gs) gs).flatMap part =
        gs.flatMap part ++ cs.flatMap more := by
  have hclass : Ascending (cs.foldl (fun gs c => update (tick c) (f c) gs) gs) ∧
      OnTick key part (cs.foldl (fun gs c => update (tick c) (f c) gs) gs) ∧
      ∀ v, ((cs.foldl (fun gs c => update (tick c) (f c) gs) gs).flatMap part).filter
        (fun b => key b == v) =
          (gs.flatMap part ++ cs.flatMap more).filter fun b => key b == v := by
    clear hsorted
    induction cs using List.reverseRecOn with
    | nil => exact ⟨hasc, ht, fun v => by simp⟩
    | append_singleton cs c ih =>
      obtain ⟨hasc, ht, hv⟩ := ih
      rw [List.foldl_append]
      refine ⟨(ascending_update hasc (tick c) (hf c)).1,
        ht.update (hf c) (hpart c) (hmore c) (hempty _), fun v => ?_⟩
      rw [List.foldl_cons, List.foldl_nil, class_update hasc ht (hpart c) (hempty _) (hmore c), hv,
        List.flatMap_append, ← List.append_assoc, List.filter_append (_ ++ _), List.flatMap_cons,
        List.flatMap_nil, List.append_nil]
  obtain ⟨hasc', ht', hv⟩ := hclass
  exact ⟨hasc', ht', eq_of_classes (sortedBy_flatMap hasc' ht') hsorted hv⟩

end

/-- The events of a track that are neither notes nor its end. -/
def others (es : List TimedEvent) : List TimedEvent :=
  es.filter fun e => !isNote e.event && !e.event.isEndOfTrack

def withEvents (es : List TimedEvent) : List Group :=
  (others es).foldl (fun gs e => update e.tick (Group.withEvent e) gs) []

def groupsOf (es : List TimedEvent) : List Group :=
  (notesOf es).foldl (fun gs n => update n.start (Group.withNote n) gs) (withEvents es)

theorem groups_eq_groupsOf (s : Sequence) (track : Nat) : groups s track = groupsOf (s.track track) :=
  rfl

theorem groupsOf_nil : groupsOf [] = [] := by
  simp [groupsOf, withEvents, others, notesOf, pairFrom]

/-- What the groups of a track are known by. -/
structure Faithful (es : List TimedEvent) (gs : List Group) : Prop where
  ascending : Ascending gs
  starts : ∀ g ∈ gs, ∀ n ∈ g.notes, n.start = g.tick
  events : gs.flatMap Group.timed = others es
  notes : gs.flatMap Group.notes = notesOf es

theorem flatMap_none {α β : Type} (l : List α) : l.flatMap (fun _ => ([] : List β)) = [] :=
  List.flatMap_eq_nil_iff.mpr fun _ _ => rfl

theorem faithful_groupsOf {es : List TimedEvent} (h : Sorted es) : Faithful es (groupsOf es) := by
  have hothers : SortedBy TimedEvent.tick (others es) := h.sublist List.filter_sublist
  have htimed : ∀ gs : List Group, OnTick TimedEvent.tick Group.timed gs := by
    intro gs g _ b hb
    obtain ⟨event, -, rfl⟩ := List.mem_map.mp hb
    rfl
  have hflat : SortedBy TimedEvent.tick ((others es).flatMap fun e => [e]) := by
    simpa using hothers
  obtain ⟨hasc, -, hevents⟩ : Ascending (withEvents es) ∧ OnTick TimedEvent.tick Group.timed (withEvents es) ∧
      (withEvents es).flatMap Group.timed =
        [].flatMap Group.timed ++ (others es).flatMap fun e => [e] :=
    flatMap_foldl_update Group.withEvent TimedEvent.tick (fun _ _ => rfl)
      (fun e g hg => by simp [Group.timed, Group.withEvent, hg]) (fun _ => rfl) (by simp)
      List.Pairwise.nil (htimed _) _ hflat
  obtain ⟨-, hstart, hnone⟩ : Ascending (withEvents es) ∧
      OnTick SequencedNote.start Group.notes (withEvents es) ∧
      (withEvents es).flatMap Group.notes =
        [].flatMap Group.notes ++ (others es).flatMap fun _ => [] :=
    flatMap_foldl_update Group.withEvent TimedEvent.tick (fun _ _ => rfl)
      (by simp [Group.withEvent]) (fun _ => rfl) (by simp) List.Pairwise.nil
      (fun _ hg => by cases hg) _ (by simp [SortedBy, flatMap_none])
  obtain ⟨hasc', -, hkept⟩ : Ascending (groupsOf es) ∧
      OnTick TimedEvent.tick Group.timed (groupsOf es) ∧
      (groupsOf es).flatMap Group.timed =
        (withEvents es).flatMap Group.timed ++ (notesOf es).flatMap fun _ => [] :=
    flatMap_foldl_update Group.withNote SequencedNote.start (fun _ _ => rfl)
      (by simp [Group.timed, Group.withNote]) (fun _ => rfl) (by simp) hasc (htimed _) _
      (by simpa [hevents, flatMap_none] using hothers)
  obtain ⟨-, hstarts, hnotes⟩ : Ascending (groupsOf es) ∧
      OnTick SequencedNote.start Group.notes (groupsOf es) ∧
      (groupsOf es).flatMap Group.notes =
        (withEvents es).flatMap Group.notes ++ (notesOf es).flatMap fun n => [n] :=
    flatMap_foldl_update Group.withNote SequencedNote.start (fun _ _ => rfl) (fun _ _ _ => rfl)
      (fun _ => rfl) (by simp) hasc hstart _ (by simpa [hnone, flatMap_none] using sortedBy_start_notesOf es)
  exact ⟨hasc', hstarts, by simpa [hevents, flatMap_none] using hkept,
    by simpa [hnone, flatMap_none] using hnotes⟩

/-- The notes of a group come shortest first as they are. -/
theorem Faithful.sortedBy_length {es : List TimedEvent} {gs : List Group} (h : Faithful es gs)
    (hs : Sorted es) {g : Group} (hg : g ∈ gs) : SortedBy SequencedNote.length g.notes := by
  have hsub : g.notes.Sublist (notesOf es) := by
    rw [← h.notes, List.flatMap]
    exact List.sublist_flatten_of_mem (List.mem_map_of_mem hg)
  have hclass : g.notes.Sublist ((notesOf es).filter fun n => n.start == g.tick) := by
    have hall : g.notes.filter (fun n => n.start == g.tick) = g.notes :=
      List.filter_eq_self.mpr fun n hn => by simp [h.starts g hg n hn]
    rw [← hall]
    exact hsub.filter _
  refine ((sortedBy_finish_of_start hs g.tick).sublist hclass).imp_of_mem fun ha hb hab => ?_
  have h₁ := h.starts g hg _ ha
  have h₂ := h.starts g hg _ hb
  simp only [SequencedNote.length]
  omega

end Replay

end ScoreText
