import ScoreText.Text.Basic

/-!
Cutting a text at a separator that its parts do not hold, and the beginnings of a text.
-/

set_option autoImplicit false

namespace ScoreText

namespace Text

theorem cut?_append {sep : Char} {s : Text} (h : sep ∉ s) (after : Text) :
    cut? sep (s ++ sep :: after) = some (s, after) := by
  induction s with
  | nil => simp [cut?]
  | cons c r ih =>
    have hc : c ≠ sep := fun hc => h (hc ▸ List.mem_cons_self)
    rw [List.cons_append, cut?, if_neg hc, ih fun hr => h (List.mem_cons_of_mem c hr)]
    rfl

/-- What stands before and after the first separator. -/
theorem append_sep_inj {sep : Char} {s t a b : Text} (hs : sep ∉ s) (ht : sep ∉ t)
    (h : s ++ sep :: a = t ++ sep :: b) : s = t ∧ a = b := by
  have hcut := cut?_append hs a
  rw [h, cut?_append ht] at hcut
  obtain ⟨rfl, rfl⟩ := Prod.mk.inj (Option.some.inj hcut)
  exact ⟨rfl, rfl⟩

theorem cut?_none {sep : Char} {s : Text} (h : sep ∉ s) : cut? sep s = none := by
  induction s with
  | nil => rfl
  | cons c r ih =>
    have hc : c ≠ sep := fun hc => h (hc ▸ List.mem_cons_self)
    rw [cut?, if_neg hc, ih fun hr => h (List.mem_cons_of_mem c hr)]
    rfl

theorem fields_append {sep : Char} {s : Text} (h : sep ∉ s) (after : Text) :
    fields sep (s ++ sep :: after) = s :: fields sep after := by
  induction s with
  | nil => simp [fields]
  | cons c r ih =>
    have hc : c ≠ sep := fun hc => h (hc ▸ List.mem_cons_self)
    rw [List.cons_append, fields, if_neg hc, ih fun hr => h (List.mem_cons_of_mem c hr)]

theorem fields_self {sep : Char} {s : Text} (h : sep ∉ s) : fields sep s = [s] := by
  induction s with
  | nil => rfl
  | cons c r ih =>
    have hc : c ≠ sep := fun hc => h (hc ▸ List.mem_cons_self)
    rw [fields, if_neg hc, ih fun hr => h (List.mem_cons_of_mem c hr)]

theorem not_mem_of_mem_fields {sep : Char} {s f : Text} (h : f ∈ fields sep s) : sep ∉ f := by
  induction s generalizing f with
  | nil =>
    rw [List.mem_singleton.mp h]
    exact List.not_mem_nil
  | cons c r ih =>
    rw [fields] at h
    split at h
    · rcases List.mem_cons.mp h with rfl | h
      · exact List.not_mem_nil
      · exact ih h
    · rename_i hc
      split at h
      · rename_i heq
        exact absurd heq (fields_ne_nil sep r)
      · rename_i first rest heq
        rw [heq] at ih
        rcases List.mem_cons.mp h with rfl | h
        · rw [List.mem_cons, not_or]
          exact ⟨Ne.symm hc, ih List.mem_cons_self⟩
        · exact ih (List.mem_cons_of_mem first h)

/-- The first field stands at the front of a text, and the others somewhere in it. -/
theorem infix_of_mem_fields {sep : Char} {s f : Text} (h : f ∈ fields sep s) : f <:+: s := by
  suffices hboth : (∀ g ∈ (fields sep s).head?, g <+: s) ∧ ∀ g ∈ fields sep s, g <:+: s from
    hboth.2 f h
  clear h
  induction s with
  | nil => simp [fields]
  | cons c r ih =>
    obtain ⟨hfront, hall⟩ := ih
    have hlater : ∀ g ∈ fields sep r, g <:+: c :: r := fun g hg =>
      (hall g hg).trans (List.suffix_cons c r).isInfix
    rw [fields]
    split
    · simpa using hlater
    · split
      · rename_i heq
        exact absurd heq (fields_ne_nil sep r)
      · rename_i first rest heq
        rw [heq] at hfront hlater
        have hfirst : c :: first <+: c :: r :=
          List.cons_prefix_cons.mpr ⟨rfl, hfront first rfl⟩
        refine ⟨by simpa using hfirst, List.forall_mem_cons.mpr ⟨hfirst.isInfix, fun g hg => ?_⟩⟩
        exact hlater g (List.mem_cons_of_mem first hg)

theorem fields_join {sep : Char} {gs : List Text} (hne : gs ≠ []) (h : ∀ g ∈ gs, sep ∉ g) :
    fields sep (join [sep] gs) = gs := by
  induction gs with
  | nil => exact absurd rfl hne
  | cons g rest ih =>
    cases rest with
    | nil => exact fields_self (h g List.mem_cons_self)
    | cons g' rest =>
      rw [join, List.append_assoc, List.singleton_append,
        fields_append (h g List.mem_cons_self),
        ih (List.cons_ne_nil _ _) fun a ha => h a (List.mem_cons_of_mem g ha)]

theorem byteSize_eq_zero {s : Text} (h : byteSize s = 0) : s = [] := by
  cases s with
  | nil => rfl
  | cons c r =>
    have := c.utf8Size_pos
    simp only [byteSize] at h
    omega

/-- The longer of two texts that start a third starts with the other one. -/
theorem prefix_of_byteSize_le {s t text : Text} (hs : s <+: text) (ht : t <+: text) (h : byteSize s ≤ byteSize t) :
    s <+: t := by
  rcases List.prefix_or_prefix_of_prefix hs ht with hst | ⟨more, rfl⟩
  · exact hst
  · rw [byteSize_append] at h
    obtain rfl := byteSize_eq_zero (s := more) (by omega)
    simp only [List.append_nil, List.prefix_rfl]

end Text

end ScoreText
