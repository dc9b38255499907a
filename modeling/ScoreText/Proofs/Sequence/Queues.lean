import ScoreText.Proofs.Sequence.Pairing

/-!
A track read event by event. Each pitch has a queue of the note-ons that are open: a note-off takes the first of
them, and is passed over where there is none. So the notes of a pitch take its note-ons in order, each with one of
the note-offs behind it, and those that are left over are open at the end.
-/

set_option autoImplicit false

namespace ScoreText

namespace Sequence

open Stable SequencedNote

/-- A note of a track with the places of its note-on and its note-off among the events. -/
structure Span where
  on : Nat
  off : Nat
  note : SequencedNote

/-- How far a track has been read: the notes that are open, each with the place of its note-on, and those that have
ended, in the order in which they did. -/
structure Reading where
  opened : List (Nat × OpenNote)
  ended : List Span

namespace Reading

def step (r : Reading) (e : TimedEvent) (place : Nat) : Reading :=
  match e.event with
  | .noteOn _ note velocity => { r with opened := r.opened ++ [(place, ⟨note, e.tick, velocity⟩)] }
  | .noteOff _ note velocity =>
    match r.opened.find? fun x => x.2.note == note with
    | some (on, o) =>
      ⟨r.opened.eraseP fun x => x.2.note == note,
        r.ended ++ [⟨on, place, ⟨note, o.attack, velocity, o.start, e.tick⟩⟩]⟩
    | none => r
  | _ => r

def of (events : List TimedEvent) : Reading :=
  events.zipIdx.foldl (fun r x => r.step x.1 x.2) ⟨[], []⟩

/-- The notes of a pitch that are open. -/
def openedOf (r : Reading) (p : Nat) : List (Nat × OpenNote) := r.opened.filter fun x => x.2.note == p

/-- The notes of a pitch that have ended. -/
def endedOf (r : Reading) (p : Nat) : List Span := r.ended.filter fun x => x.note.note == p

theorem of_append_singleton (l : List TimedEvent) (e : TimedEvent) :
    of (l ++ [e]) = (of l).step e l.length := by
  simp [of, List.zipIdx_append]

/-- An event opens a note, ends the first open one of its pitch, or changes nothing. -/
theorem step_cases (r : Reading) (e : TimedEvent) (place : Nat) :
    (∃ o, opening? e = some o ∧ ending? e = none ∧
      r.step e place = { r with opened := r.opened ++ [(place, o)] }) ∨
    (∃ f on o front back, opening? e = none ∧ ending? e = some f ∧ o.note = f.note ∧
      r.opened = front ++ (on, o) :: back ∧ (∀ x ∈ front, x.2.note ≠ f.note) ∧
      r.step e place =
        ⟨front ++ back, r.ended ++ [⟨on, place, ⟨f.note, o.attack, f.decay, o.start, f.finish⟩⟩]⟩) ∨
    (∃ f, opening? e = none ∧ ending? e = some f ∧ r.openedOf f.note = [] ∧ r.step e place = r) ∨
    (opening? e = none ∧ ending? e = none ∧ r.step e place = r) := by
  obtain ⟨tick, event⟩ := e
  cases event with
  | noteOn channel note velocity => exact .inl ⟨_, rfl, rfl, rfl⟩
  | noteOff channel note velocity =>
    cases h : r.opened.find? fun x => x.2.note == note with
    | none =>
      refine .inr (.inr (.inl ⟨_, rfl, rfl, ?_, by simp [step, h]⟩))
      exact List.filter_eq_nil_iff.mpr fun x hx => List.find?_eq_none.mp h x hx
    | some found =>
      obtain ⟨on, o⟩ := found
      obtain ⟨hnote, front, back, hopened, hfront⟩ := List.find?_eq_some_iff_append.mp h
      have hfront : ∀ x ∈ front, x.2.note ≠ note := by simpa using hfront
      have hrest : r.opened.eraseP (fun x => x.2.note == note) = front ++ back := by
        rw [hopened, List.eraseP_append_right _ (by simpa using hfront)]
        simp [show o.note = note by simpa using hnote]
      refine .inr (.inl ⟨_, on, o, front, back, rfl, rfl, by simpa using hnote, hopened, hfront, ?_⟩)
      simp [step, h, hrest]
  | _ => exact .inr (.inr (.inr ⟨rfl, rfl, rfl⟩))

/-- What a note-off takes of the open notes. -/
theorem takeOpen?_opened (p : Nat) (opened : List (Nat × OpenNote)) :
    takeOpen? p (opened.map Prod.snd) = (opened.find? fun x => x.2.note == p).map fun x =>
      (x.2, (opened.eraseP fun x => x.2.note == p).map Prod.snd) := by
  induction opened with
  | nil => rfl
  | cons x rest ih =>
    by_cases hx : x.2.note = p
    · simp [takeOpen?, hx]
    · simp [takeOpen?, hx, ih, Function.comp_def]

/-- An event that is read does to the open notes what it does to those that are to be paired. -/
theorem pairFrom_step (r : Reading) (e : TimedEvent) (place : Nat) (rest : List TimedEvent) :
    r.ended.map Span.note ++ pairFrom (r.opened.map Prod.snd) (e :: rest) =
      (r.step e place).ended.map Span.note ++ pairFrom ((r.step e place).opened.map Prod.snd) rest := by
  obtain ⟨tick, event⟩ := e
  cases event with
  | noteOff channel note velocity =>
    simp only [step, pairFrom, takeOpen?_opened]
    cases r.opened.find? fun x => x.2.note == note <;> simp
  | _ => simp [step, pairFrom]

/-- Reading on from where a track has been read to finds the notes that end behind. -/
theorem pairFrom_append (l rest : List TimedEvent) :
    pairFrom [] (l ++ rest) = (of l).ended.map Span.note ++ pairFrom ((of l).opened.map Prod.snd) rest := by
  induction l using List.reverseRecOn generalizing rest with
  | nil => rfl
  | append_singleton l e ih => rw [List.append_assoc, List.singleton_append, ih, of_append_singleton, pairFrom_step]

end Reading

/-- The places of the note-ons of a pitch. -/
def onsOf (p : Nat) (l : List TimedEvent) : List Nat :=
  l.findIdxs fun e => (opening? e).any fun o => o.note == p

/-- The places of the note-offs of a pitch. -/
def offsOf (p : Nat) (l : List TimedEvent) : List Nat :=
  l.findIdxs fun e => (ending? e).any fun f => f.note == p

/-- The places of the note-offs of a pitch that meet an open note of it. -/
def metOf (p : Nat) (l : List TimedEvent) : List Nat :=
  (offsOf p l).filter fun place => !((Reading.of (l.take place)).openedOf p).isEmpty

/-- A note is that of a note-on and of a note-off behind it. -/
structure Span.Joins (x : Span) (l : List TimedEvent) : Prop where
  on : l[x.on]?.bind opening? = some x.note.opening
  off : l[x.off]?.bind ending? = some x.note.ending
  later : x.on < x.off

theorem onsOf_append_singleton (p : Nat) (l : List TimedEvent) (e : TimedEvent) :
    onsOf p (l ++ [e]) = onsOf p l ++ if (opening? e).any fun o => o.note == p then [l.length] else [] := by
  simp [onsOf, List.findIdxs_append]

/-- Whether a note-off meets an open note is settled by the events before it. -/
theorem metOf_append_singleton (p : Nat) (l : List TimedEvent) (e : TimedEvent) :
    metOf p (l ++ [e]) = metOf p l ++
      if ((ending? e).any fun f => f.note == p) && !((Reading.of l).openedOf p).isEmpty then [l.length] else [] := by
  have hbefore : (offsOf p l).filter (fun place => !((Reading.of ((l ++ [e]).take place)).openedOf p).isEmpty) =
      metOf p l := by
    refine List.filter_congr fun place hplace => ?_
    have hlt : place < l.length := by simpa using List.lt_add_of_mem_findIdxs place hplace
    rw [List.take_append_of_le_length (Nat.le_of_lt hlt)]
  have hsplit : offsOf p (l ++ [e]) = offsOf p l ++
      if (ending? e).any fun f => f.note == p then [l.length] else [] := by
    simp [offsOf, List.findIdxs_append]
  rw [metOf, hsplit, List.filter_append, hbefore]
  cases (ending? e).any fun f => f.note == p <;> simp [List.filter_cons]

namespace Reading

/-- The open notes of a pitch wait behind those that have ended, in the order of their note-ons. -/
theorem ons_read (l : List TimedEvent) (p : Nat) :
    ((of l).endedOf p).map Span.on ++ ((of l).openedOf p).map Prod.fst = onsOf p l := by
  induction l using List.reverseRecOn with
  | nil => rfl
  | append_singleton l e ih =>
    rw [of_append_singleton, onsOf_append_singleton, ← ih]
    simp only [endedOf, openedOf]
    rcases (of l).step_cases e l.length with
      ⟨o, ho, -, hstep⟩ | ⟨f, on, o, front, back, ho, -, hnote, hopened, hfront, hstep⟩ |
        ⟨f, ho, -, -, hstep⟩ | ⟨ho, -, hstep⟩
    · by_cases hp : o.note = p <;> simp [hstep, ho, List.filter_append, hp]
    · by_cases hp : f.note = p
      · have hnone : front.filter (fun x => x.2.note == p) = [] :=
          List.filter_eq_nil_iff.mpr fun x hx => by simpa [hp] using hfront x hx
        simp [hstep, ho, hopened, List.filter_append, hnote, hp, hnone]
      · simp [hstep, ho, hopened, List.filter_append, hnote, hp]
    · simp [hstep, ho]
    · simp [hstep, ho]

/-- The notes of a pitch have ended at the note-offs that met an open one. -/
theorem offs_read (l : List TimedEvent) (p : Nat) : ((of l).endedOf p).map Span.off = metOf p l := by
  induction l using List.reverseRecOn with
  | nil => rfl
  | append_singleton l e ih =>
    rw [of_append_singleton, metOf_append_singleton, ← ih]
    simp only [endedOf]
    rcases (of l).step_cases e l.length with
      ⟨o, -, hf, hstep⟩ | ⟨f, on, o, front, back, -, hf, hnote, hopened, -, hstep⟩ |
        ⟨f, -, hf, hnone, hstep⟩ | ⟨-, hf, hstep⟩
    · simp [hstep, hf]
    · by_cases hp : f.note = p <;> simp [hstep, hf, openedOf, hopened, List.filter_append, hnote, hp]
    · by_cases hp : f.note = p
      · subst hp
        simp [hstep, hnone]
      · simp [hstep, hf, hp]
    · simp [hstep, hf]

end Reading

theorem bind_append_left {α : Type} {f : TimedEvent → Option α} {l : List TimedEvent} {place : Nat} {a : α}
    (h : l[place]?.bind f = some a) (more : List TimedEvent) : (l ++ more)[place]?.bind f = some a := by
  obtain ⟨e, he, hf⟩ := Option.bind_eq_some_iff.mp h
  rw [List.getElem?_append_left (List.getElem?_eq_some_iff.mp he).1, he]
  exact hf

theorem lt_of_bind {α : Type} {f : TimedEvent → Option α} {l : List TimedEvent} {place : Nat} {a : α}
    (h : l[place]?.bind f = some a) : place < l.length := by
  obtain ⟨e, he, -⟩ := Option.bind_eq_some_iff.mp h
  exact (List.getElem?_eq_some_iff.mp he).1

theorem Span.Joins.append {x : Span} {l : List TimedEvent} (h : x.Joins l) (more : List TimedEvent) :
    x.Joins (l ++ more) :=
  ⟨bind_append_left h.on more, bind_append_left h.off more, h.later⟩

namespace Reading

/-- The note-ons of what is open, and the note-ons and note-offs of what has ended, are among the events. -/
theorem joins_read (l : List TimedEvent) :
    (∀ x ∈ (of l).opened, l[x.1]?.bind opening? = some x.2) ∧ ∀ x ∈ (of l).ended, x.Joins l := by
  induction l using List.reverseRecOn with
  | nil => exact ⟨List.forall_mem_nil _, List.forall_mem_nil _⟩
  | append_singleton l e ih =>
    obtain ⟨hopened, hended⟩ := ih
    have hkept : ∀ x ∈ (of l).opened, (l ++ [e])[x.1]?.bind opening? = some x.2 :=
      fun x hx => bind_append_left (hopened x hx) [e]
    have hended : ∀ x ∈ (of l).ended, x.Joins (l ++ [e]) := fun x hx => (hended x hx).append [e]
    rw [of_append_singleton]
    rcases (of l).step_cases e l.length with
      ⟨o, ho, -, hstep⟩ | ⟨f, on, o, front, back, -, hf, hnote, hfound, -, hstep⟩ |
        ⟨f, -, -, -, hstep⟩ | ⟨-, -, hstep⟩
    · rw [hstep]
      exact ⟨List.forall_mem_append.mpr ⟨hkept, by simpa using ho⟩, hended⟩
    · have hfirst : (on, o) ∈ (of l).opened := by simp [hfound]
      have hopening : opening ⟨f.note, o.attack, f.decay, o.start, f.finish⟩ = o := by
        rw [← hnote]
        rfl
      have hjoins : Span.Joins ⟨on, l.length, ⟨f.note, o.attack, f.decay, o.start, f.finish⟩⟩ (l ++ [e]) := by
        refine ⟨?_, ?_, lt_of_bind (hopened _ hfirst)⟩
        · rw [hopening]
          exact hkept _ hfirst
        · simp [hf, ending]
      rw [hstep]
      refine ⟨fun x hx => hkept x ?_, List.forall_mem_append.mpr ⟨hended, List.forall_mem_singleton.mpr hjoins⟩⟩
      rw [hfound]
      exact ((List.sublist_cons_self _ back).append_left front).subset hx
    · rw [hstep]
      exact ⟨hkept, hended⟩
    · rw [hstep]
      exact ⟨hkept, hended⟩

end Reading

/-- Where no place is shared within a pitch nor between two, none is shared at all. -/
theorem nodup_map_of_classes {α : Type} {key place : α → Nat} {l : List α}
    (hclass : ∀ p, ((l.filter fun x => key x == p).map place).Nodup)
    (hkey : ∀ x ∈ l, ∀ y ∈ l, place x = place y → key x = key y) : (l.map place).Nodup := by
  induction l with
  | nil => exact .nil
  | cons x rest ih =>
    have hrest : (rest.map place).Nodup := by
      refine ih (fun p => ?_) fun y hy z hz => hkey y (List.mem_cons_of_mem x hy) z (List.mem_cons_of_mem x hz)
      exact (hclass p).sublist ((List.sublist_cons_self x rest).filter _ |>.map place)
    refine List.nodup_cons.mpr ⟨fun hx => ?_, hrest⟩
    obtain ⟨y, hy, hplace⟩ := List.mem_map.mp hx
    have hsame : key x = key y := hkey x List.mem_cons_self y (List.mem_cons_of_mem x hy) hplace.symm
    have hnodup := hclass (key x)
    rw [List.filter_cons, if_pos (beq_self_eq_true _), List.map_cons, List.nodup_cons] at hnodup
    exact hnodup.1 (List.mem_map.mpr ⟨y, List.mem_filter.mpr ⟨hy, by simp [hsame]⟩, hplace⟩)

theorem Span.Joins.note_eq_of_on {x y : Span} {l : List TimedEvent} (hx : x.Joins l) (hy : y.Joins l)
    (h : x.on = y.on) : x.note.note = y.note.note := by
  have hsame := hx.on
  rw [h, hy.on] at hsame
  exact congrArg OpenNote.note (Option.some.inj hsame.symm)

theorem Span.Joins.note_eq_of_off {x y : Span} {l : List TimedEvent} (hx : x.Joins l) (hy : y.Joins l)
    (h : x.off = y.off) : x.note.note = y.note.note := by
  have hsame := hx.off
  rw [h, hy.off] at hsame
  exact congrArg Ending.note (Option.some.inj hsame.symm)

namespace Reading

/-- The notes that have ended are those that the note-ons and note-offs of a track pair up to. -/
theorem pairFrom_eq (l : List TimedEvent) : pairFrom [] l = (of l).ended.map Span.note := by
  have h := pairFrom_append l []
  simpa [pairFrom] using h

/-- The notes of a pitch have ended in the order of their starts. -/
theorem sortedBy_start_endedOf {l : List TimedEvent} (h : Sorted l) (p : Nat) :
    SortedBy (fun x => x.note.start) ((of l).endedOf p) := by
  have hpitch := sortedBy_start_of_pitch h p
  rw [pairFrom_eq, List.filter_map] at hpitch
  exact sortedBy_of_map start Span.note hpitch

/-- The note-ons of a pitch are split between those that have ended, as many as there were note-offs that met
one, and those that are open. -/
theorem ons_split (l : List TimedEvent) (p : Nat) :
    ((of l).endedOf p).map Span.on = (onsOf p l).take (metOf p l).length ∧
      ((of l).openedOf p).map Prod.fst = (onsOf p l).drop (metOf p l).length := by
  have hcount : (((of l).endedOf p).map Span.on).length = (metOf p l).length := by
    rw [← offs_read, List.length_map, List.length_map]
  rw [← ons_read, List.take_left' hcount, List.drop_left' hcount]
  exact ⟨rfl, rfl⟩

end Reading

/-- Whatever note-ons and note-offs are added to a track, in whatever order, its notes come by their starts. Each
has a note-on and a note-off behind it, of its pitch, which no other note has. Those of one pitch end in the order in
which they begin, at the note-offs that met an open note of the pitch, one each; they begin at as many of the
note-ons of the pitch, the first ones, and the others are what is open in the end. What is open anywhere along the
track is what the pairing of the rest goes on from. -/
theorem notes_in_turn (resolution : Nat) (calls : List SinkCall) (n : Nat) :
    let s := (ofResolution resolution).obeyAll calls
    let l := s.track n
    (∀ before rest, l = before ++ rest → pairFrom [] l =
      (Reading.of before).ended.map Span.note ++ pairFrom ((Reading.of before).opened.map Prod.snd) rest) ∧
    ∃ spans : List Span,
      s.notes n = spans.map Span.note ∧ SortedBy start (s.notes n) ∧
      (∀ x ∈ spans, x.Joins l) ∧ (spans.map Span.on).Nodup ∧ (spans.map Span.off).Nodup ∧
      ∀ p,
        let ofPitch := spans.filter fun x => x.note.note == p
        SortedBy finish (ofPitch.map Span.note) ∧
        ofPitch.map Span.off = metOf p l ∧
        ofPitch.map Span.on = (onsOf p l).take (metOf p l).length ∧
        ((Reading.of l).openedOf p).map Prod.fst = (onsOf p l).drop (metOf p l).length := by
  intro s l
  have hsorted : Sorted l := by
    have hbuilt : l = ofAdded (added n calls) := track_built resolution calls n
    rw [hbuilt]
    exact sorted_ofAdded _
  refine ⟨fun before rest h => by rw [h, Reading.pairFrom_append], ?_⟩
  obtain ⟨spans, hspans⟩ : ∃ spans, spans = (Reading.of l).ended.mergeSort (leBy fun x => x.note.start) := ⟨_, rfl⟩
  have hnotes : s.notes n = spans.map Span.note := by
    rw [hspans, map_mergeSort start Span.note, ← Reading.pairFrom_eq]
    rfl
  have hpitch : ∀ p, (spans.filter fun x => x.note.note == p) = (Reading.of l).endedOf p := by
    intro p
    rw [hspans]
    exact filter_mergeSort (Reading.sortedBy_start_endedOf hsorted p)
  have hjoins : ∀ x ∈ spans, x.Joins l := by
    intro x hx
    rw [hspans, List.mem_mergeSort] at hx
    exact (Reading.joins_read l).2 x hx
  refine ⟨spans, hnotes, sortedBy_start_notesOf l, hjoins, ?_, ?_, fun p => ⟨?_, ?_, ?_, ?_⟩⟩
  · refine nodup_map_of_classes (fun p => ?_) fun x hx y hy => (hjoins x hx).note_eq_of_on (hjoins y hy)
    rw [hpitch, (Reading.ons_split l p).1]
    exact List.nodup_findIdxs.sublist (List.take_sublist _ _)
  · refine nodup_map_of_classes (fun p => ?_) fun x hx y hy => (hjoins x hx).note_eq_of_off (hjoins y hy)
    rw [hpitch, Reading.offs_read]
    exact List.nodup_findIdxs.sublist List.filter_sublist
  · have hends := sortedBy_finish_of_pitch hsorted p
    rw [← notes_eq_notesOf, hnotes, List.filter_map] at hends
    exact hends
  · rw [hpitch, Reading.offs_read]
  · rw [hpitch, (Reading.ons_split l p).1]
  · exact (Reading.ons_split l p).2

/-- The first note-off meets nothing, and the last note-on is left open. -/
example :
    let l : List TimedEvent := [⟨0, .noteOff 0 60 0⟩, ⟨0, .noteOn 0 60 1⟩, ⟨1, .noteOn 0 60 2⟩, ⟨2, .noteOff 0 60 3⟩,
      ⟨2, .noteOn 0 60 4⟩, ⟨3, .noteOff 0 60 5⟩]
    onsOf 60 l = [1, 2, 4] ∧ metOf 60 l = [3, 5] := by
  decide

end Sequence

end ScoreText
