import ScoreText.Proofs.Sequence.Rehearing

/-!
What the key in force makes of notes that are written by the common names of their tones: they are
raised, or they are lowered, and a track is as it was only when none of them is.
-/

set_option autoImplicit false

namespace ScoreText

theorem Key.alteration_nonneg {key : Key} (h : 0 ≤ key.fifths) (value : Nat) :
    0 ≤ key.alteration value := by
  have hflats : (-key.fifths).toNat = 0 := by omega
  unfold Key.alteration
  split
  · rw [Key.accidental, hflats, List.take_zero]
    split
    · decide
    · simp
  · exact Int.le_refl 0

theorem Key.alteration_nonpos {key : Key} (h : key.fifths ≤ 0) (value : Nat) :
    key.alteration value ≤ 0 := by
  have hsharps : key.fifths.toNat = 0 := by omega
  unfold Key.alteration
  split
  · rw [Key.accidental, hsharps, List.take_zero, if_neg List.not_mem_nil]
    split
    · decide
    · exact Int.le_refl 0
  · exact Int.le_refl 0

namespace Replay

/-- A note as it is read again when it is written in a key: its tone and what the key adds to the
name, if that is a tone, or the same note if it goes by its percussion name. -/
def tune? (key : Key) (track : Nat) (n : SequencedNote) : Option SequencedNote :=
  if track = Symbols.percussionTrack ∧ (Symbols.percussionName? n.note).isSome = true then some n
  else if 0 ≤ n.note + key.alteration n.note ∧ n.note + key.alteration n.note ≤ maxData then
    some { n with note := (n.note + key.alteration n.note).toNat }
  else none

def tuneNotes? (key : Key) (track : Nat) : List SequencedNote → Option (List SequencedNote)
  | [] => some []
  | n :: rest => do
    let m ← tune? key track n
    let more ← tuneNotes? key track rest
    return m :: more

/-- What is told of a group besides its notes. -/
def Group.told (g : Group) : List (Event Rat) := g.events.flatMap eventsOf

/-- As `tune?`, of the notes of groups that follow each other from a key on. -/
def tuneGroups? (track : Nat) : Key → List Group → Option (List Group)
  | _, [] => some []
  | key, g :: rest => do
    let ns ← tuneNotes? (Event.keyAfterAll key g.told) track g.notes
    let more ← tuneGroups? track (Event.keyAfterAll key g.told) rest
    return { g with notes := ns } :: more

section

variable {key : Key} {track : Nat} {n m : SequencedNote} {ns ms : List SequencedNote}

/-- Tuning changes nothing but the tone, and by no more than the key adds to it. -/
theorem tune?_eq_some (h : tune? key track n = some m) :
    m = { n with note := m.note } ∧ (m = n ∨ (m.note : Int) = n.note + key.alteration n.note) ∧
      (n.note ≤ maxData → m.note ≤ maxData) := by
  unfold tune? at h
  split at h
  · obtain rfl := Option.some.inj h
    exact ⟨rfl, .inl rfl, id⟩
  · split at h
    · rename_i hrange
      obtain rfl := Option.some.inj h
      refine ⟨rfl, .inr (Int.toNat_of_nonneg hrange.1), fun _ => ?_⟩
      dsimp only
      omega
    · cases h

theorem tuneNotes?_cons (h : tuneNotes? key track (n :: ns) = some ms) : ∃ m more,
    tune? key track n = some m ∧ tuneNotes? key track ns = some more ∧ ms = m :: more := by
  obtain ⟨m, hm, h⟩ := Option.bind_eq_some_iff.mp h
  obtain ⟨more, hmore, h⟩ := Option.bind_eq_some_iff.mp h
  exact ⟨m, more, hm, hmore, (Option.some.inj h).symm⟩

theorem tuneNotes?_self_iff : tuneNotes? key track ns = some ns ↔
    ∀ n ∈ ns, tune? key track n = some n := by
  induction ns with
  | nil => simp [tuneNotes?]
  | cons n rest ih =>
    rw [List.forall_mem_cons, ← ih]
    refine ⟨fun h => ?_, fun ⟨hn, hrest⟩ => ?_⟩
    · obtain ⟨m, more, hm, hmore, heq⟩ := tuneNotes?_cons h
      obtain ⟨rfl, rfl⟩ := List.cons.inj heq
      exact ⟨hm, hmore⟩
    · rw [tuneNotes?, hn, hrest]
      rfl

theorem tuneGroups?_cons {g : Group} {gs tuned : List Group}
    (h : tuneGroups? track key (g :: gs) = some tuned) : ∃ ns more,
      tuneNotes? (Event.keyAfterAll key g.told) track g.notes = some ns ∧
        tuneGroups? track (Event.keyAfterAll key g.told) gs = some more ∧
          tuned = { g with notes := ns } :: more := by
  obtain ⟨ns, hns, h⟩ := Option.bind_eq_some_iff.mp h
  obtain ⟨more, hmore, h⟩ := Option.bind_eq_some_iff.mp h
  exact ⟨ns, more, hns, hmore, (Option.some.inj h).symm⟩

theorem tune?_le (h : tune? key track n = some m) :
    (0 ≤ key.fifths → n.note ≤ m.note) ∧ (key.fifths ≤ 0 → m.note ≤ n.note) ∧
      (m.note = n.note → m = n) := by
  obtain ⟨hsame, hnote, -⟩ := tune?_eq_some h
  refine ⟨fun hk => ?_, fun hk => ?_, fun heq => ?_⟩
  · have := Key.alteration_nonneg hk n.note
    rcases hnote with rfl | hnote <;> omega
  · have := Key.alteration_nonpos hk n.note
    rcases hnote with rfl | hnote <;> omega
  · rw [hsame, heq]

/-- A key raises all of its letters or lowers all of them, so that a sum that stays the same shows
that every tone does. -/
theorem tuneNotes?_sum (h : tuneNotes? key track ns = some ms) :
    (0 ≤ key.fifths → (ns.map SequencedNote.note).sum ≤ (ms.map SequencedNote.note).sum) ∧
      (key.fifths ≤ 0 → (ms.map SequencedNote.note).sum ≤ (ns.map SequencedNote.note).sum) ∧
      ((ns.map SequencedNote.note).sum = (ms.map SequencedNote.note).sum → ms = ns) := by
  induction ns generalizing ms with
  | nil =>
    obtain rfl := Option.some.inj h
    exact ⟨fun _ => Nat.le_refl _, fun _ => Nat.le_refl _, fun _ => rfl⟩
  | cons n rest ih =>
    obtain ⟨m, more, hm, hmore, rfl⟩ := tuneNotes?_cons h
    obtain ⟨hup, hdown, hsame⟩ := tune?_le hm
    obtain ⟨hups, hdowns, hsames⟩ := ih hmore
    simp only [List.map_cons, List.sum_cons]
    refine ⟨fun hk => ?_, fun hk => ?_, fun hsum => ?_⟩
    · exact Nat.add_le_add (hup hk) (hups hk)
    · exact Nat.add_le_add (hdown hk) (hdowns hk)
    · have hboth : m.note = n.note ∧
          (rest.map SequencedNote.note).sum = (more.map SequencedNote.note).sum := by
        rcases Int.le_total 0 key.fifths with hk | hk
        · have := hup hk
          have := hups hk
          omega
        · have := hdown hk
          have := hdowns hk
          omega
      rw [hsame hboth.1, hsames hboth.2]

end

/-- The tone of a note and when it starts. -/
def place (n : SequencedNote) : Nat × Nat := (n.note, n.start)

section

variable {key : Key} {track : Nat} {ns ms : List SequencedNote}

/-- What does not depend on the tone of a note stays as it is. -/
theorem map_tuneNotes? {β : Type} {f : SequencedNote → β}
    (hf : ∀ n note, f { n with note := note } = f n) (h : tuneNotes? key track ns = some ms) :
    ms.map f = ns.map f := by
  induction ns generalizing ms with
  | nil =>
    obtain rfl := Option.some.inj h
    rfl
  | cons n rest ih =>
    obtain ⟨m, more, hm, hmore, rfl⟩ := tuneNotes?_cons h
    rw [List.map_cons, List.map_cons, ih hmore, (tune?_eq_some hm).1, hf]

theorem starts_tuneNotes? (h : tuneNotes? key track ns = some ms) :
    ms.map SequencedNote.start = ns.map SequencedNote.start := map_tuneNotes? (fun _ _ => rfl) h

theorem note_tuneNotes? (hns : ∀ n ∈ ns, n.note ≤ maxData)
    (h : tuneNotes? key track ns = some ms) : ∀ m ∈ ms, m.note ≤ maxData := by
  induction ns generalizing ms with
  | nil =>
    obtain rfl := Option.some.inj h
    simp
  | cons n rest ih =>
    obtain ⟨hn, hrest⟩ := List.forall_mem_cons.mp hns
    obtain ⟨m, more, hm, hmore, rfl⟩ := tuneNotes?_cons h
    exact List.forall_mem_cons.mpr ⟨(tune?_eq_some hm).2.2 hn, ih hrest hmore⟩

/-- A tuned group can be played like the group, and ends with it. -/
theorem playable_tuned {g : Group} (hg : g.Playable)
    (h : tuneNotes? key track g.notes = some ns) :
    ({ g with notes := ns } : Group).Playable ∧ ({ g with notes := ns } : Group).finish = g.finish := by
  have hlength : ns.map SequencedNote.length = g.notes.map SequencedNote.length :=
    map_tuneNotes? (fun _ _ => rfl) h
  have hfinish : ns.map SequencedNote.finish = g.notes.map SequencedNote.finish :=
    map_tuneNotes? (fun _ _ => rfl) h
  have hrest : ns.map (fun n => (n.attack, n.decay, n.start, n.finish)) =
      g.notes.map fun n => (n.attack, n.decay, n.start, n.finish) := map_tuneNotes? (fun _ _ => rfl) h
  have hnote := note_tuneNotes? (fun n hn => (hg.notes n hn).1.note) h
  refine ⟨⟨fun m hm => ?_, ?_⟩, ?_⟩
  · have hmem := List.mem_map_of_mem (f := fun n => (n.attack, n.decay, n.start, n.finish)) hm
    rw [hrest] at hmem
    obtain ⟨n, hn, heq⟩ := List.mem_map.mp hmem
    obtain ⟨⟨hlasts, -, hattack, hdecay⟩, hstart⟩ := hg.notes n hn
    simp only [Prod.mk.injEq] at heq
    obtain ⟨ha, hd, hs, hf⟩ := heq
    exact ⟨⟨hs ▸ hf ▸ hlasts, hnote m hm, ha ▸ hattack, hd ▸ hdecay⟩, hs ▸ hstart⟩
  · have hsorted : (g.notes.map SequencedNote.length).Pairwise (· ≤ ·) := List.pairwise_map.mpr hg.sorted
    rw [← hlength] at hsorted
    exact List.pairwise_map.mp hsorted
  · rw [Group.finish, Group.finish, ← List.getLast?_map, ← List.getLast?_map, hfinish]

theorem playable_tuneGroups? {gs tuned : List Group}
    (hgs : ∀ g ∈ gs, g.Playable) (h : tuneGroups? track key gs = some tuned) :
    ∀ g ∈ tuned, g.Playable := by
  induction gs generalizing key tuned with
  | nil =>
    obtain rfl := Option.some.inj h
    exact hgs
  | cons g rest ih =>
    obtain ⟨hg, hrest⟩ := List.forall_mem_cons.mp hgs
    obtain ⟨ns, more, hns, hmore, rfl⟩ := tuneGroups?_cons h
    exact List.forall_mem_cons.mpr ⟨(playable_tuned hg hns).1, ih hrest hmore⟩

theorem perm_note_of_place (h : (ns.map place).Perm (ms.map place)) :
    (ns.map SequencedNote.note).Perm (ms.map SequencedNote.note) := by
  have := h.map Prod.fst
  rwa [List.map_map, List.map_map] at this

theorem starts_tuneGroups? {gs tuned : List Group} (h : tuneGroups? track key gs = some tuned) :
    (tuned.flatMap Group.notes).map SequencedNote.start =
      (gs.flatMap Group.notes).map SequencedNote.start := by
  induction gs generalizing key tuned with
  | nil =>
    obtain rfl := Option.some.inj h
    rfl
  | cons g rest ih =>
    obtain ⟨ns, more, hns, hmore, rfl⟩ := tuneGroups?_cons h
    rw [List.flatMap_cons, List.flatMap_cons, List.map_append, List.map_append, ih hmore,
      starts_tuneNotes? hns]

/-- What starts on a tick, among notes that start on it and notes that do not. -/
theorem filter_places {tick : Nat} {now later : List SequencedNote}
    (hnow : ∀ start ∈ now.map SequencedNote.start, start = tick)
    (hlater : ∀ start ∈ later.map SequencedNote.start, start ≠ tick) :
    ((now ++ later).map place).filter (fun p => p.2 == tick) = now.map place ∧
      ((now ++ later).map place).filter (fun p => !p.2 == tick) = later.map place := by
  rw [List.forall_mem_map] at hnow hlater
  have hnow' : ∀ p ∈ now.map place, p.2 = tick := List.forall_mem_map.mpr hnow
  have hlater' : ∀ p ∈ later.map place, p.2 ≠ tick := List.forall_mem_map.mpr hlater
  rw [List.map_append, List.filter_append, List.filter_append]
  constructor
  · rw [List.filter_eq_self.mpr fun p hp => by simpa using hnow' p hp,
      List.filter_eq_nil_iff.mpr fun p hp => by simpa using hlater' p hp, List.append_nil]
  · rw [List.filter_eq_nil_iff.mpr fun p hp => by simpa using hnow' p hp,
      List.filter_eq_self.mpr fun p hp => by simpa using hlater' p hp, List.nil_append]

/-- Tuned groups with the tones of the groups, each at its tick, are these groups. -/
theorem tuneGroups?_of_perm {gs tuned : List Group} (hasc : Ascending gs)
    (hstarts : ∀ g ∈ gs, ∀ n ∈ g.notes, n.start = g.tick) (h : tuneGroups? track key gs = some tuned)
    (hperm : ((gs.flatMap Group.notes).map place).Perm ((tuned.flatMap Group.notes).map place)) :
    tuned = gs := by
  induction gs generalizing key tuned with
  | nil => exact (Option.some.inj h).symm
  | cons g rest ih =>
    obtain ⟨ns, more, hns, hmore, rfl⟩ := tuneGroups?_cons h
    obtain ⟨hfirst, hrest⟩ := List.pairwise_cons.mp hasc
    obtain ⟨hnow, hothers⟩ := List.forall_mem_cons.mp hstarts
    have hnow' : ∀ start ∈ g.notes.map SequencedNote.start, start = g.tick :=
      List.forall_mem_map.mpr hnow
    have hlater : ∀ start ∈ (rest.flatMap Group.notes).map SequencedNote.start, start ≠ g.tick := by
      rw [List.forall_mem_map]
      intro n hn
      obtain ⟨a, ha, hm⟩ := List.mem_flatMap.mp hn
      have := hfirst a ha
      have := hothers a ha n hm
      omega
    obtain ⟨hfilter, hfilter'⟩ := filter_places hnow' hlater
    rw [← starts_tuneNotes? hns] at hnow'
    rw [← starts_tuneGroups? hmore] at hlater
    obtain ⟨htuned, htuned'⟩ := filter_places hnow' hlater
    rw [List.flatMap_cons, List.flatMap_cons] at hperm
    have hpermNow := hperm.filter fun p => p.2 == g.tick
    have hpermLater := hperm.filter fun p => !p.2 == g.tick
    rw [hfilter, htuned] at hpermNow
    rw [hfilter', htuned'] at hpermLater
    have hsum := (perm_note_of_place hpermNow).sum_eq
    rw [(tuneNotes?_sum hns).2.2 hsum, ih hrest hothers hmore hpermLater]

end

end Replay

end ScoreText
