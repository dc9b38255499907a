import ScoreText.Proofs.Expansion.Ungrouped

/-!
Expansion of a text without groups, field by field, and what becomes of fields that are empty. Spaces at
either end, and several in a row, leave such fields and nothing else.
-/

set_option autoImplicit false

namespace ScoreText

open Text Stage

namespace Text

/-- The second list is the first without some of the empty texts in it. -/
inductive Sheds : List Text → List Text → Prop
  | nil : Sheds [] []
  | keep (t : Text) {ts us : List Text} : Sheds ts us → Sheds (t :: ts) (t :: us)
  | shed {ts us : List Text} : Sheds ts us → Sheds ([] :: ts) us

namespace Sheds

variable {ts us : List Text}

theorem refl : ∀ ts : List Text, Sheds ts ts
  | [] => .nil
  | t :: ts => .keep t (refl ts)

theorem append {ts' us' : List Text} (h : Sheds ts us) (h' : Sheds ts' us') :
    Sheds (ts ++ ts') (us ++ us') := by
  induction h with
  | nil => exact h'
  | keep t _ ih => exact .keep t ih
  | shed _ ih => exact .shed ih

/-- Shedding goes through what turns an empty text into a single empty text. -/
theorem flatMap {g : Text → List Text} (hg : g [] = [[]]) (h : Sheds ts us) :
    Sheds (ts.flatMap g) (us.flatMap g) := by
  induction h with
  | nil => exact .nil
  | keep t _ ih =>
    rw [List.flatMap_cons, List.flatMap_cons]
    exact (refl (g t)).append ih
  | shed _ ih =>
    rw [List.flatMap_cons, hg]
    exact .shed ih

/-- It goes through what leaves an empty text empty, which fails for both lists alike. -/
theorem mapM {f : Text → Except Error Text} (hf : f [] = .ok []) (h : Sheds ts us) :
    (∃ e, ts.mapM f = .error e ∧ us.mapM f = .error e) ∨
      ∃ ts' us', ts.mapM f = .ok ts' ∧ us.mapM f = .ok us' ∧ Sheds ts' us' := by
  induction h with
  | nil => exact .inr ⟨[], [], rfl, rfl, .nil⟩
  | @keep t ts us _ ih =>
    rw [List.mapM_cons, List.mapM_cons]
    cases f t with
    | error e => exact .inl ⟨e, rfl, rfl⟩
    | ok t' =>
      rcases ih with ⟨e, hts, hus⟩ | ⟨ts', us', hts, hus, hshed⟩
      · rw [hts, hus]
        exact .inl ⟨e, rfl, rfl⟩
      · rw [hts, hus]
        exact .inr ⟨t' :: ts', t' :: us', rfl, rfl, .keep t' hshed⟩
  | @shed ts us _ ih =>
    rw [List.mapM_cons, hf]
    rcases ih with ⟨e, hts, hus⟩ | ⟨ts', us', hts, hus, hshed⟩
    · rw [hts]
      exact .inl ⟨e, rfl, hus⟩
    · rw [hts]
      exact .inr ⟨[] :: ts', us', rfl, hus, .shed hshed⟩

end Sheds

/-- A text with a single space between neighbouring fields that are not empty, and none at its ends. -/
def tight (s : Text) : Text := join [' '] ((fields ' ' s).filter (!·.isEmpty))

theorem sheds_filter (ts : List Text) : Sheds ts (ts.filter (!·.isEmpty)) := by
  induction ts with
  | nil => exact .nil
  | cons t ts ih =>
    cases t with
    | nil => exact .shed ih
    | cons c r => exact .keep (c :: r) ih

theorem sheds_nil_or {ts : List Text} (hne : ts ≠ []) (h : Sheds ts []) : Sheds ts [[]] := by
  cases h with
  | nil => exact absurd rfl hne
  | @shed ts _ h =>
    cases ts with
    | nil => exact .keep [] .nil
    | cons t ts => exact .shed (sheds_nil_or (List.cons_ne_nil t ts) h)

/-- A text has the fields of its tight form and empty ones. -/
theorem sheds_fields_tight (s : Text) : Sheds (fields ' ' s) (fields ' ' (tight s)) := by
  have hsheds := sheds_filter (fields ' ' s)
  rw [tight]
  cases hfilter : (fields ' ' s).filter (!·.isEmpty) with
  | nil =>
    rw [hfilter] at hsheds
    exact sheds_nil_or (fields_ne_nil ' ' s) hsheds
  | cons f fs =>
    rw [hfilter] at hsheds
    rw [fields_join (List.cons_ne_nil f fs) fun g hg => ?_]
    · exact hsheds
    · rw [← hfilter] at hg
      exact not_mem_of_mem_fields (List.mem_of_mem_filter hg)

/-- Whoever goes through two parts by themselves goes through any number of them. -/
theorem apply_join {f : Text → Except Error Text} {P : Text → Prop}
    (hclosed : ∀ x y, P x → P y → P (x ++ ' ' :: y))
    (hparts : ∀ x y, P x → P y →
      f (x ++ ' ' :: y) = (f x).bind fun u => ahead u (ahead [' '] (f y)))
    {fs : List Text} (hne : fs ≠ []) (h : ∀ x ∈ fs, P x) :
    P (join [' '] fs) ∧ f (join [' '] fs) = (fs.mapM f).map (join [' ']) := by
  induction fs with
  | nil => exact absurd rfl hne
  | cons x rest ih =>
    obtain ⟨hx, hrest⟩ := List.forall_mem_cons.mp h
    cases rest with
    | nil =>
      refine ⟨hx, ?_⟩
      rw [List.mapM_cons, join]
      cases f x <;> rfl
    | cons y rest =>
      obtain ⟨hjoined, heach⟩ := ih (List.cons_ne_nil y rest) hrest
      have hsplit : join [' '] (x :: y :: rest) = x ++ ' ' :: join [' '] (y :: rest) := by
        rw [join, List.append_assoc, List.singleton_append]
      rw [hsplit]
      refine ⟨hclosed x _ hx hjoined, ?_⟩
      rw [hparts x _ hx hjoined, heach, List.mapM_cons (a := x)]
      cases f x with
      | error e => rfl
      | ok u =>
        cases hmore : (y :: rest).mapM f with
        | error e => rfl
        | ok us =>
          have hsome : us ≠ [] := List.ne_nil_of_length_pos (by
            rw [Ornaments.length_of_mapM hmore]
            exact Nat.succ_pos _)
          have hjoin := join_append_join [' '] (List.cons_ne_nil u []) hsome
          rw [List.singleton_append, List.append_assoc] at hjoin
          exact congrArg Except.ok hjoin.symm

theorem fields_join_flatMap {ts : List Text} (hne : ts ≠ []) :
    fields ' ' (join [' '] ts) = ts.flatMap (fields ' ') := by
  induction ts with
  | nil => exact absurd rfl hne
  | cons t rest ih =>
    cases rest with
    | nil => rw [join, List.flatMap_singleton]
    | cons u rest =>
      rw [join, List.append_assoc, List.singleton_append, fields_append_fields,
        ih (List.cons_ne_nil u rest)]
      rfl

theorem mem_tight {s : Text} {c : Char} (h : c ∈ tight s) : c = ' ' ∨ c ∈ s := by
  have hjoin : ∀ fs : List Text, c ∈ join [' '] fs → c = ' ' ∨ ∃ f ∈ fs, c ∈ f := by
    intro fs
    induction fs with
    | nil => exact fun hc => absurd hc List.not_mem_nil
    | cons f rest ih =>
      cases rest with
      | nil => exact fun hc => .inr ⟨f, List.mem_cons_self, hc⟩
      | cons g rest =>
        intro hc
        rw [join, List.append_assoc, List.singleton_append, List.mem_append, List.mem_cons] at hc
        rcases hc with hc | hc | hc
        · exact .inr ⟨f, List.mem_cons_self, hc⟩
        · exact .inl hc
        · rcases ih hc with hc | ⟨g, hg, hc⟩
          · exact .inl hc
          · exact .inr ⟨g, List.mem_cons_of_mem f hg, hc⟩
  rcases hjoin _ h with hc | ⟨f, hf, hc⟩
  · exact .inl hc
  · exact .inr ((infix_of_mem_fields (List.mem_of_mem_filter hf)).subset hc)

end Text

namespace Parser

variable {R : Type} [Scalar R] {p : Parser R} {s t : Text}

theorem Ungrouped.tight (h : Ungrouped s) : Ungrouped (tight s) :=
  ⟨fun hm => (mem_tight hm).elim (by decide) h.parenthesis,
    fun hm => (mem_tight hm).elim (by decide) h.brace⟩

/-- What upper-casing and microtones make of a text. -/
def tuned (s : Text) : Except Error Text := Microtone.apply (Casing.apply s)

/-- A text without groups expands field by field: all of them are put in upper case and freed of
microtones before any broken chord is written out. -/
theorem expand_fields (hsubst : p.substitution.values.isEmpty = true) (hstages : p.extraStages = [])
    (h : Ungrouped s) :
    p.expand s = ((Text.fields ' ' s).mapM tuned).bind fun us =>
      (us.mapM (Ornaments.expandBrokenChords p.context.noteContext)).map (join [' ']) := by
  have hp : p.Partwise := ⟨hsubst, by simp [hstages]⟩
  have htuned : tuned s = ((Text.fields ' ' s).mapM tuned).map (join [' ']) := by
    have hfields := apply_join (f := tuned) (P := fun x => '(' ∉ x)
      (fun x y hx hy => by simpa using ⟨hx, hy⟩)
      (fun x y hx hy => by rw [tuned, Casing.apply_append hx, Microtone.apply_append]; rfl)
      (fields_ne_nil ' ' s) fun f hf => fun hm => h.parenthesis ((infix_of_mem_fields hf).subset hm)
    rw [join_fields] at hfields
    exact hfields.2
  have hbroken : ∀ us : List Text, us ≠ [] →
      Ornaments.expandBrokenChords p.context.noteContext (join [' '] us) =
        (us.mapM (Ornaments.expandBrokenChords p.context.noteContext)).map (join [' ']) :=
    fun us hne => (apply_join (P := fun _ => True) (fun _ _ _ _ => trivial)
      (fun x y _ _ => Ornaments.expandBrokenChords_append _ x y) hne fun _ _ => trivial).2
  have hsame : p.expand s = (tuned s).bind (Ornaments.expandBrokenChords p.context.noteContext) := by
    rw [expand_ungrouped hp h, hstages, tuned]
    simp only [List.foldl_nil]
    cases Microtone.apply (Casing.apply s) with
    | error e => rfl
    | ok t => exact congrFun Except.map_id _
  rw [hsame, htuned]
  cases hus : (Text.fields ' ' s).mapM tuned with
  | error e => rfl
  | ok us =>
    refine hbroken us (List.ne_nil_of_length_pos ?_)
    rw [Ornaments.length_of_mapM hus]
    exact List.length_pos_of_ne_nil (fields_ne_nil ' ' s)

/-- Texts whose fields differ in empty ones only both fail to expand, with the same error, or expand to
texts of which the same can be said. -/
theorem sheds_expand (hsubst : p.substitution.values.isEmpty = true) (hstages : p.extraStages = [])
    (hs : Ungrouped s) (ht : Ungrouped t) (h : Sheds (Text.fields ' ' s) (Text.fields ' ' t)) :
    (∃ e, p.expand s = .error e ∧ p.expand t = .error e) ∨
      ∃ u v, p.expand s = .ok u ∧ p.expand t = .ok v ∧
        Sheds (Text.fields ' ' u) (Text.fields ' ' v) := by
  have hempty : ∀ {x : Text} {f : Text → Except Error Text} {ts : List Text},
      (Text.fields ' ' x).mapM f = .ok ts → ts ≠ [] := by
    intro x f ts hts
    refine List.ne_nil_of_length_pos ?_
    rw [Ornaments.length_of_mapM hts]
    exact List.length_pos_of_ne_nil (fields_ne_nil ' ' x)
  rw [expand_fields hsubst hstages hs, expand_fields hsubst hstages ht]
  rcases h.mapM (f := tuned) rfl with ⟨e, hus, hvs⟩ | ⟨us, vs, hus, hvs, hshed⟩
  · rw [hus, hvs]
    exact .inl ⟨e, rfl, rfl⟩
  · rw [hus, hvs]
    simp only [Except.bind]
    rcases hshed.mapM (f := Ornaments.expandBrokenChords p.context.noteContext) rfl with
      ⟨e, hbs, hcs⟩ | ⟨bs, cs, hbs, hcs, hshed⟩
    · rw [hbs, hcs]
      exact .inl ⟨e, rfl, rfl⟩
    · rw [hbs, hcs]
      refine .inr ⟨_, _, rfl, rfl, ?_⟩
      rw [fields_join_flatMap, fields_join_flatMap]
      · exact hshed.flatMap rfl
      · exact List.ne_nil_of_length_pos (by
          rw [Ornaments.length_of_mapM hcs]; exact List.length_pos_of_ne_nil (hempty hvs))
      · exact List.ne_nil_of_length_pos (by
          rw [Ornaments.length_of_mapM hbs]; exact List.length_pos_of_ne_nil (hempty hus))

end Parser

end ScoreText
