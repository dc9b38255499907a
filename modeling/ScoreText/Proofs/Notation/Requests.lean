import ScoreText.Proofs.Expansion.Fieldwise
import ScoreText.Proofs.Notation.Verbatim
import ScoreText.Proofs.Timeline.Bookmarks

/-!
Markers and requests for their bookmarks. A request finds the bookmark of a marker where it writes the name
by itself; in parentheses it asks for another name, which runs on to the first space.
-/

set_option autoImplicit false

namespace ScoreText

open Text Stage Expansion

theorem Outcome.events_andThen {R : Type} {o : Outcome R} {next : Memory → Outcome R}
    (h : o.result = .ok ()) : (o.andThen next).events = o.events ++ (next o.memory).events := by
  rw [andThen, h]

variable {R : Type} [Scalar R]

namespace Parser

variable {p : Parser R} {name : Text}

/-- A request as it can be written for the bookmark of a marker, and the name that it asks for: by itself,
when that name holds no white space, or in parentheses. -/
inductive Asks (name : Text) : Text → Text → Prop where
  | bare (h : ∀ c ∈ name, isBlank c = false) : Asks name ('@' :: '#' :: name) name
  | enclosed : Asks name (behind ['@', '#'] name) (('(' :: (name ++ [')'])).takeWhile (· != ' '))

namespace Asks

variable {request asked : Text}

/-- The bookmark of the marker is asked for just when its name is written by itself. -/
theorem asked_eq_iff (h : Asks name request asked) (hname : '(' ∉ name) :
    asked = name ↔ request = '@' :: '#' :: name := by
  cases h with
  | bare => exact ⟨fun _ => rfl, fun _ => rfl⟩
  | enclosed =>
    refine ⟨fun h => absurd ?_ hname, fun h => absurd ?_ hname⟩
    · rw [← h, List.takeWhile_cons_of_pos (by decide)]
      exact List.mem_cons_self
    · have hrest : '(' :: (name ++ [')']) = name := (List.cons.inj (List.cons.inj h).2).2
      rw [← hrest]
      exact List.mem_cons_self

theorem asked_ne_nil (h : Asks name request asked) (hne : name ≠ []) : asked ≠ [] := by
  cases h with
  | bare => exact hne
  | enclosed =>
    rw [List.takeWhile_cons_of_pos (by decide)]
    exact List.cons_ne_nil _ _

end Asks

/-- A text that starts like a request is read no further than to its first space by what remains once groups
are written out. -/
theorem fields_completed (hp : p.Partwise) (hstages : p.extraStages = []) {r u : Text}
    (h : p.completed ('@' :: r) = .ok u) :
    ∃ more, Text.fields ' ' u = ('@' :: r.takeWhile (· != ' ')) :: more := by
  have hself : ∀ f : Text, ' ' ∉ f → p.completed ('@' :: f) = .ok ('@' :: f) := by
    intro f hf
    have hspace : ' ' ∉ '@' :: f := by simpa using hf
    have hmicrotone : Microtone.apply ('@' :: f) = .ok ('@' :: f) :=
      Microtone.apply_self (by simp) hspace
    have hbroken : Ornaments.expandBrokenChords p.context.noteContext ('@' :: f) = .ok ('@' :: f) :=
      expandBrokenChords_join p.context.noteContext
        (List.forall_mem_singleton.mpr ⟨broken?_none (by decide) f, hspace⟩)
    rw [completed, hmicrotone]
    simp only [Except.bind, hbroken, hstages]
    rfl
  have hfront : ' ' ∉ r.takeWhile (· != ' ') := fun hm => absurd (List.mem_takeWhile_imp hm) (by decide)
  have hsplit := List.takeWhile_append_dropWhile (p := (· != ' ')) (l := r)
  have hfield : ' ' ∉ '@' :: r.takeWhile (· != ' ') := by simpa using hfront
  cases hrest : r.dropWhile (· != ' ') with
  | nil =>
    rw [hrest, List.append_nil] at hsplit
    rw [← hsplit, hself _ hfront] at h
    rw [← Except.ok.inj h]
    exact ⟨[], fields_self hfield⟩
  | cons c z =>
    have hc : c = ' ' := by
      have hhead := List.head?_dropWhile_not (· != ' ') r
      rw [hrest] at hhead
      simpa using hhead
    subst hc
    rw [hrest] at hsplit
    rw [← hsplit, ← List.cons_append, completed_append hp, hself _ hfront] at h
    obtain ⟨_, v, hu, -, rfl⟩ := h
    rw [← Except.ok.inj hu]
    exact ⟨Text.fields ' ' v, fields_append hfield v⟩

/-- The name of a request is spared when that is all there is. -/
theorem apply_request {r : Text} (h : Casing.payload r = r) :
    Casing.apply ('@' :: '#' :: r) = '@' :: '#' :: r := by
  refine Casing.apply_spared ?_
  simp [Casing.spared?, Casing.atFragmentStart, h]

namespace Asks

variable {request asked : Text} (h : Asks name request asked) (hname : Captioned '!' name)

include h hname

/-- Up to microtones no stage does anything to a request. -/
theorem fixed (functions : Functions) (ctx : NoteContext R) : Fixed functions ctx request := by
  have hbrace : '{' ∉ name := fun hm => (hname.chars _ hm).2.2 rfl
  cases h with
  | bare hblank =>
    refine .of_ungrouped ⟨?_, by simpa using hbrace⟩ (apply_request (Casing.payload_word hblank
      hname.paren_not_mem))
    simpa using hname.paren_not_mem
  | enclosed =>
    have hsign : ∀ c ∈ ['@', '#'], isBlank c = false ∧ c ≠ '(' ∧ c ≠ ':' := by decide
    have hcased : Casing.apply (behind ['@', '#'] name) = behind ['@', '#'] name :=
      apply_request (throughParenthesis_append (s := '(' :: name)
        (by simpa using hname.close_not_mem) [])
    have hprotected : Parentheses.protect (behind ['@', '#'] name) = behind ['@', '#'] name := by
      refine Except.ok.inj ((captions_run _).trans (run_of_none (fun _ => rfl) fun pre c post hs => ?_))
      rcases behind_split hname.paren_not_mem hs with hc | ⟨rfl, rfl⟩ | ⟨hc, hpost⟩
      · refine findCaption_none (.inr ?_) fun hb => absurd hb (by simp [(hsign c hc).1])
        simp only [List.mem_cons, List.not_mem_nil, or_false] at hc
        rcases hc with rfl | rfl <;> decide
      · exact findCaption_none (.inl (by decide)) fun hb => absurd hb (by decide)
      · exact findCaption_none_of_not_mem (by simpa [hpost] using hc.symm) pre.reverse
    exact ⟨by simpa [behind] using hbrace, Closed.concat ('@' :: '#' :: '(' :: name), hcased,
      collect_behind hsign (List.cons_ne_nil _ _) hname.paren_not_mem,
      closeUp_behind hsign hname.paren_not_mem, hprotected,
      expandCalls_behind hsign hname.paren_not_mem functions ctx⟩

/-- What a request expands to begins with the fragment that asks. -/
theorem fields_expand (hp : p.Partwise) (hstages : p.extraStages = []) {u : Text}
    (hu : p.expand request = .ok u) :
    ∃ more, Text.fields ' ' u = ('@' :: '#' :: asked) :: more := by
  rw [expand_fixed hp.substitution (h.fixed hname _ _)] at hu
  cases h with
  | bare hblank =>
    obtain ⟨more, hmore⟩ := fields_completed hp hstages hu
    have hall : ('#' :: name).takeWhile (· != ' ') = '#' :: name := by
      rw [List.takeWhile_eq_self_iff]
      intro c hc
      rcases List.mem_cons.mp hc with rfl | hc
      · rfl
      · rw [bne_iff_ne]
        rintro rfl
        exact absurd (hblank _ hc) (by decide)
    exact ⟨more, by rw [hmore, hall]⟩
  | enclosed => exact fields_completed hp hstages hu

end Asks

theorem forall₂_append {α β : Type} {P : α → β → Prop} {xs ys : List α} {us : List β}
    (h : List.Forall₂ P (xs ++ ys) us) :
    ∃ vs ws, us = vs ++ ws ∧ List.Forall₂ P xs vs ∧ List.Forall₂ P ys ws := by
  induction xs generalizing us with
  | nil => exact ⟨[], us, rfl, .nil, h⟩
  | cons x rest ih =>
    cases h with
    | cons hx h =>
      obtain ⟨vs, ws, rfl, hrest, hys⟩ := ih h
      exact ⟨_ :: vs, ws, rfl, .cons hx hrest, hys⟩

/-- A fragment that asks is read whole, and nothing is remembered of it. -/
theorem readFragments_request (dialect : Dialect R) (position : Nat) (memory : Memory) {asked : Text}
    (h : asked ≠ []) (rest : List Text) :
    (readFragments dialect position memory (('@' :: '#' :: asked) :: rest)).events =
      .bookmarkRequest asked ::
        (readFragments dialect (positionAfter position ['@' :: '#' :: asked]) memory rest).events := by
  have hread : Fragment.readBeatTime ('@' :: '#' :: asked) =
      (.ok ([.bookmarkRequest asked], []) : Except Error (List (Event R) × Text)) :=
    if_neg (by simpa using h)
  have hone : readFragment dialect ('@' :: '#' :: asked).length position memory ('@' :: '#' :: asked) =
      ⟨[.bookmarkRequest asked], memory, .ok ()⟩ := by
    refine readFragment_ok (List.cons_ne_nil _ _) (rfl : Family.of? _ = some .beatTime) ?_ position
    rw [Family.read, hread]
    rfl
  rw [readFragments, hone, Outcome.events_andThen rfl]
  rfl

/-- Among fragments that are all read, a marker is announced with the bookmark that it sets. -/
theorem readFragments_marker (dialect : Dialect R) (memory : Memory) {body : Text} {before after : List Text}
    (h : (readFragments dialect 0 memory (before ++ ('!' :: body) :: after)).result = .ok ()) :
    ∃ first last, (readFragments dialect 0 memory (before ++ ('!' :: body) :: after)).events =
      first ++ .marker (Fragment.captionText body) :: .bookmark (Fragment.captionText body) :: last := by
  rw [readFragments_append] at h ⊢
  obtain ⟨hbefore, -⟩ := Outcome.ok_of_andThen h
  rw [Outcome.events_andThen hbefore, ← List.singleton_append, readFragments_append,
    readFragments_caption _ _ _ (.inr rfl), Outcome.events_andThen rfl]
  exact ⟨_, _, rfl⟩

section Reaching

variable {marker request asked : Text} {as bs cs : List Text}

/-- What is announced of a marker and a later request for its bookmark. -/
theorem announced_request (hsubst : p.substitution.values.isEmpty = true) (hstages : p.extraStages = [])
    (hne : name ≠ []) (hname : Captioned '!' name) (hspace : Parentheses.protectedSpace ∉ name)
    (hmarker : Captions '!' name marker) (hrequest : Asks name request asked)
    (hparts : ∀ x ∈ as ++ bs ++ cs, Detached x)
    (hbefore : (p.parse (join [' '] (as ++ marker :: bs))).result = .ok ())
    (hwhole : ∃ w, p.expand (join [' '] ((as ++ marker :: bs) ++ request :: cs)) = .ok w) :
    ∃ before middle later,
      (p.readText (join [' '] (as ++ marker :: bs))).events =
        before ++ .marker name :: .bookmark name :: middle ∧
      (p.readText (join [' '] ((as ++ marker :: bs) ++ request :: cs))).events =
        (before ++ .marker name :: .bookmark name :: middle) ++ (.bookmarkRequest asked :: later) := by
  have hp : p.Partwise := ⟨hsubst, by simp [hstages]⟩
  have hfront : ∀ x ∈ as ++ marker :: bs, Detached x := by
    intro x hx
    rcases List.mem_append.mp hx with hx | hx
    · exact hparts x (by simp [hx])
    · rcases List.mem_cons.mp hx with rfl | hx
      · exact hmarker.detached hname
      · exact hparts x (by simp [hx])
  have hall : ∀ x ∈ (as ++ marker :: bs) ++ request :: cs, Detached x := by
    intro x hx
    rcases List.mem_append.mp hx with hx | hx
    · exact hfront x hx
    · rcases List.mem_cons.mp hx with rfl | hx
      · exact (hrequest.fixed hname p.dialect.functions p.context.noteContext).detached
      · exact hparts x (by simp [hx])
  obtain ⟨w, hw⟩ := hwhole
  obtain ⟨us, hus, rfl⟩ := (expand_parts hp (by simp) hall w).mp hw
  obtain ⟨vs, rest, rfl, hvs, hrest⟩ := forall₂_append hus
  obtain ⟨r, zs, hr, -, rfl⟩ := List.forall₂_cons_left_iff.mp hrest
  have hfirst := (expand_parts hp (by simp) hfront _).mpr ⟨vs, hvs, rfl⟩
  obtain ⟨va, marked, rfl, -, hmarked⟩ := forall₂_append hvs
  obtain ⟨m, vb, hm, -, rfl⟩ := List.forall₂_cons_left_iff.mp hmarked
  obtain ⟨body, hbody, hnoSpace, htext⟩ := hmarker.expand hname hspace hp hstages
  obtain rfl := Except.ok.inj (hbody.symm.trans hm)
  obtain ⟨more, hmore⟩ := hrequest.fields_expand hname hp hstages hr
  have hread : p.readText (join [' '] (as ++ marker :: bs)) =
      readFragments p.dialect 0 p.memory
        (va.flatMap (Text.fields ' ') ++ ('!' :: body) :: vb.flatMap (Text.fields ' ')) := by
    rw [readText, hfirst]
    refine congrArg (readFragments p.dialect 0 p.memory) ?_
    rw [fields_join_flatMap (by simp), List.flatMap_append, List.flatMap_cons, fields_self hnoSpace,
      List.singleton_append]
  have hok : (p.readText (join [' '] (as ++ marker :: bs))).result = .ok () := hbefore
  obtain ⟨before, middle, hevents⟩ := readFragments_marker p.dialect p.memory (hread ▸ hok)
  rw [← hread, htext] at hevents
  -- The fragment that asks comes next.
  have hnext : p.readText (join [' '] ((as ++ marker :: bs) ++ request :: cs)) =
      (p.readText (join [' '] (as ++ marker :: bs))).andThen fun memory =>
        readFragments p.dialect
          (positionAfter 0 (va.flatMap (Text.fields ' ') ++ ('!' :: body) :: vb.flatMap (Text.fields ' ')))
          memory (('@' :: '#' :: asked) :: (more ++ zs.flatMap (Text.fields ' '))) := by
    rw [hread, ← readFragments_append, readText, hw]
    refine congrArg (readFragments p.dialect 0 p.memory) ?_
    rw [fields_join_flatMap (by simp), List.flatMap_append, List.flatMap_append, List.flatMap_cons,
      List.flatMap_cons, fields_self hnoSpace, List.singleton_append, hmore, List.cons_append]
  have hwhole := congrArg Outcome.events hnext
  rw [Outcome.events_andThen hok, readFragments_request _ _ _ (hrequest.asked_ne_nil hne), hevents] at hwhole
  exact ⟨before, middle, _, hevents, hwhole⟩

/-- Whoever keeps time goes back, at a request that writes the name by itself, to the time at which the marker
was heard, unless another bookmark of that name was set in between. In parentheses the request asks for
another name, and does nothing at all when nobody set that. -/
theorem bookmark_reached (hsubst : p.substitution.values.isEmpty = true) (hstages : p.extraStages = [])
    (hne : name ≠ []) (hname : Captioned '!' name) (hspace : Parentheses.protectedSpace ∉ name)
    (hmarker : Captions '!' name marker) (hrequest : Asks name request asked)
    (hparts : ∀ x ∈ as ++ bs ++ cs, Detached x)
    (hbefore : (p.parse (join [' '] (as ++ marker :: bs))).result = .ok ())
    (hwhole : ∃ w, p.expand (join [' '] ((as ++ marker :: bs) ++ request :: cs)) = .ok w) :
    (asked = name ↔ request = '@' :: '#' :: name) ∧
    ∃ before middle later,
      (p.parse (join [' '] (as ++ marker :: bs))).events =
        (before ++ .marker name :: .bookmark name :: middle) ++ [.parsingEnds] ∧
      (p.parse (join [' '] ((as ++ marker :: bs) ++ request :: cs))).events =
        (before ++ .marker name :: .bookmark name :: middle) ++ (.bookmarkRequest asked :: later) ∧
      ∀ k : Timekeeper R,
        let asking := k.hearAll (before ++ .marker name :: .bookmark name :: middle)
        (asked = name → .bookmark name ∉ middle →
          (asking.hear (.bookmarkRequest asked)).timeline.time = (k.hearAll before).timeline.time) ∧
        (asking.timeline.bookmark? asked = none → asking.hear (.bookmarkRequest asked) = asking) := by
  obtain ⟨before, middle, later, hfront, hall⟩ :=
    announced_request hsubst hstages hne hname hspace hmarker hrequest hparts hbefore hwhole
  refine ⟨hrequest.asked_eq_iff hname.paren_not_mem, .parsingStarts :: before, middle,
    later ++ [.parsingEnds], ?_, ?_, fun k => ⟨?_, Timekeeper.hear_bookmarkRequest_unknown⟩⟩
  · rw [parse, hfront]
    simp only [List.cons_append]
  · rw [parse, hall]
    simp only [List.cons_append, List.append_assoc]
  · rintro rfl hmiddle
    rw [k.hearAll_append]
    exact (k.hearAll (.parsingStarts :: before)).time_bookmarkRequest _ hmiddle

/-- A marker in parentheses, and a request for it in parentheses, do not name the same. -/
theorem verse_requests :
    let p := (standard : Parser Rat)
    let marked := ["C5Q".toList] ++ Captioned.enclosed '!' "verse".toList :: ["D5H".toList]
    ∃ before middle later,
      (p.parse (join [' '] (marked ++ behind ['@', '#'] "verse".toList :: ["E5Q".toList]))).events =
        (before ++ .marker "verse".toList :: .bookmark "verse".toList :: middle) ++
          (.bookmarkRequest "(verse)".toList :: later) := by
  intro p marked
  have hmarker : Captions '!' "verse".toList (Captioned.enclosed '!' "verse".toList) := .enclosed
  have hparts : ∀ x ∈ ["C5Q".toList] ++ ["D5H".toList] ++ ["E5Q".toList], Detached x := by decide
  have hbefore : (p.parse (join [' '] marked)).result = .ok () := by decide +kernel
  obtain ⟨-, before, middle, later, -, hall, -⟩ := bookmark_reached (p := p) rfl rfl (by decide) (by decide)
    (by decide) hmarker .enclosed hparts hbefore ⟨_, rfl⟩
  exact ⟨before, middle, later, hall⟩

end Reaching

end Parser

end ScoreText
