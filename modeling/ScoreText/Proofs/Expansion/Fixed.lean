import ScoreText.Proofs.Expansion.Calls
import ScoreText.Proofs.Expansion.Words

/-!
Texts that the stages up to microtones leave alone: those without groups that are in upper case, the calls of
functions other than ornaments, and whatever has such texts on both sides of white space.
-/

set_option autoImplicit false

namespace ScoreText

open Text Stage

namespace Expansion

variable {R : Type} [Scalar R] {functions : Functions} {ctx : NoteContext R}

/-- A text that all stages leave alone until its groups are written out. -/
structure Fixed (functions : Functions) (ctx : NoteContext R) (x : Text) : Prop where
  brace : '{' ∉ x
  closed : Closed x
  cased : Casing.apply x = x
  collected : Parentheses.collect x = x
  closedUp : Parentheses.closeUp x = x
  captions : Parentheses.protect x = x
  ornaments : Ornaments.expandCalls functions ctx x = .ok x

namespace Fixed

/-- White space of ASCII may stand between such texts. -/
theorem append {x y : Text} (hx : Fixed functions ctx x) (hy : Fixed functions ctx y) {c : Char}
    (hc : isBlank c = true) (hascii : c.toNat < 128) : Fixed functions ctx (x ++ c :: y) := by
  have hne : ∀ d, isBlank d = false → c ≠ d := fun d hd he => by
    rw [← he, hc] at hd
    cases hd
  refine ⟨?_, ?_, ?_, ?_, ?_, ?_, ?_⟩
  · rw [List.mem_append, List.mem_cons]
    rintro (hm | hm | hm)
    · exact hx.brace hm
    · exact hne _ (by decide) hm.symm
    · exact hy.brace hm
  · refine hx.closed.append (Closed.append (x := [c]) (Closed.of_not_mem ?_) hy.closed)
    exact fun hm => hne _ (by decide) (List.mem_singleton.mp hm).symm
  · rw [casing_append hx.closed hc, hx.cased, hy.cased, upperChar_of_isBlank hc hascii]
    rfl
  · rw [collect_append hx.closed hc, hx.collected, hy.collected]
  · rw [closeUp_append hx.closed hc, hx.closedUp, hy.closedUp]
  · rw [protect_append hx.closed hc, hx.captions, hy.captions]
  · rw [expandCalls_append hx.closed hc, hx.ornaments, hy.ornaments]
    rfl

theorem of_ungrouped {x : Text} (h : Parser.Ungrouped x) (hcased : Casing.apply x = x) :
    Fixed functions ctx x := by
  have hclosed := closeUp_ungrouped h.parenthesis
  have hjoined := joinUp_ungrouped h.parenthesis
  rw [Parentheses.joinUp, hclosed] at hjoined
  exact ⟨h.brace, Closed.of_not_mem h.parenthesis, hcased, collect_ungrouped h.parenthesis, hclosed, hjoined,
    expandCalls_ungrouped functions ctx h.parenthesis⟩

/-- A call with numbers for parameters is such a text, if it calls no ornament. -/
theorem of_calling {name params : Text} (h : Calling name params) (hnone : functions.ornament? name = none) :
    Fixed functions ctx (Calling.text name params) := by
  have halone : ∀ {α : Type} {st : Stage α} {f g : Text}, st.Turns f g → st.run f = .ok g :=
    fun h => Turns.run_join (.cons h .nil)
  have hcased : Casing.apply (Calling.text name params) = Calling.text name params :=
    Casing.apply_raised fun c hc => (h.upperChar_eq hc).1
  obtain ⟨-, ⟨u, hu, hcollected, hclosed, hcaptions⟩, hornaments, -, -, -⟩ := h.turned ctx hnone
  have hsame : u = Calling.text name params :=
    Except.ok.inj ((halone hu).symm.trans ((casing_run _).symm.trans (congrArg Except.ok hcased)))
  rw [hsame] at hcollected hclosed hcaptions
  have hends : Closed (Calling.text name params) := by
    have hconcat := Closed.concat (':' :: (name ++ '(' :: params))
    rwa [List.cons_append, List.append_assoc, List.cons_append] at hconcat
  exact ⟨h.not_mem rfl rfl (by decide), hends, hcased,
    Except.ok.inj ((collected_run _).trans (halone hcollected)),
    Except.ok.inj ((closed_run _).trans (halone hclosed)),
    Except.ok.inj ((captions_run _).trans (halone hcaptions)),
    (ornaments_run functions ctx _).trans (halone hornaments)⟩

theorem detached {x : Text} (h : Fixed functions ctx x) : Parser.Detached x := by
  refine ⟨h.brace, fun t ht => ?_⟩
  simp only [Parser.forms, Parentheses.joinUp, h.cased, h.collected, h.closedUp, h.captions, List.mem_cons,
    List.not_mem_nil, or_false, or_self] at ht
  rw [ht]
  exact h.closed

end Fixed

end Expansion

/-- Microtones and broken chords are all that there is to write out of such a text. -/
theorem Parser.expand_fixed {R : Type} [Scalar R] {p : Parser R} (hsubst : p.substitution.values.isEmpty = true)
    {x : Text} (h : Expansion.Fixed p.dialect.functions p.context.noteContext x) :
    p.expand x = p.completed x := by
  rw [expand_unbraced p hsubst h.brace, h.cased, h.collected, Parentheses.joinUp, h.closedUp, h.captions,
    h.ornaments]
  rfl

end ScoreText
