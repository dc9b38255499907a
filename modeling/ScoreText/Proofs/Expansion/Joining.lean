import ScoreText.Proofs.Expansion.Captions

/-!
Expansion of a whole text whose fragments are each turned on their own.
-/

set_option autoImplicit false

namespace ScoreText

open Text Stage

namespace Expansion

variable {R : Type} [Scalar R]

theorem turns_each {functions : Functions} {ctx : NoteContext R} {fs gs : List Text}
    (h : List.Forall₂ (Turned functions ctx) fs gs) :
    List.Forall₂ (instructions .empty).Turns fs fs ∧
      (∃ us, List.Forall₂ casing.Turns fs us ∧ List.Forall₂ collected.Turns us us ∧
        List.Forall₂ closed.Turns us us ∧ List.Forall₂ captions.Turns us gs) ∧
      List.Forall₂ (ornaments functions ctx).Turns gs gs ∧
      List.Forall₂ microtones.Turns gs gs ∧
      ∀ g ∈ gs, Ornaments.broken? g = none ∧ ' ' ∉ g := by
  induction h with
  | nil => exact ⟨.nil, ⟨[], .nil, .nil, .nil, .nil⟩, .nil, .nil, by simp⟩
  | cons hf _ ih =>
    obtain ⟨hi, ⟨us, hcase, hcollect, hclose, hcaption⟩, ho, hm, hall⟩ := ih
    obtain ⟨u, ucase, ucollect, uclose, ucaption⟩ := hf.cased
    refine ⟨.cons hf.instructions hi, ⟨u :: us, .cons ucase hcase, .cons ucollect hcollect,
      .cons uclose hclose, .cons ucaption hcaption⟩, .cons hf.ornaments ho, .cons hf.microtones hm,
      fun g hg => ?_⟩
    rcases List.mem_cons.mp hg with rfl | hg
    · exact ⟨hf.unbroken, hf.noSpace⟩
    · exact hall g hg

theorem mapM_self {f : Text → Except Error Text} {gs : List Text} (h : ∀ g ∈ gs, f g = .ok g) :
    gs.mapM f = .ok gs := by
  induction gs with
  | nil => rfl
  | cons g rest ih =>
    rw [List.mapM_cons, h g List.mem_cons_self, ih fun a ha => h a (List.mem_cons_of_mem g ha)]
    rfl

theorem expandBrokenChords_join (ctx : NoteContext R) {gs : List Text}
    (h : ∀ g ∈ gs, Ornaments.broken? g = none ∧ ' ' ∉ g) :
    Ornaments.expandBrokenChords ctx (Text.join [' '] gs) = .ok (Text.join [' '] gs) := by
  have hfields : Text.fields ' ' (Text.join [' '] gs) = if gs = [] then [[]] else gs := by
    split
    · rename_i hnil
      subst hnil
      rfl
    · rename_i hne
      exact fields_join hne fun g hg => (h g hg).2
  have heach : ∀ g ∈ Text.fields ' ' (Text.join [' '] gs), Ornaments.expandBroken ctx g = .ok g := by
    intro g hg
    have hnone : Ornaments.broken? g = none := by
      rw [hfields] at hg
      split at hg
      · rw [List.mem_singleton.mp hg]
        rfl
      · exact (h g hg).1
    rw [Ornaments.expandBroken, hnone]
  rw [Ornaments.expandBrokenChords, mapM_self heach]
  exact congrArg Except.ok (Text.join_fields ' ' _)

/-- Expansion of joined fragments is the expanded fragments joined. -/
theorem expand_join (p : Parser R) (hs : p.substitution.values.isEmpty = true)
    (hi : p.instructions = .empty) (he : p.extraStages = []) {fs gs : List Text}
    (h : List.Forall₂ (Turned p.dialect.functions p.context.noteContext) fs gs) :
    p.expand (Text.join [' '] fs) = .ok (Text.join [' '] gs) := by
  obtain ⟨hinstr, ⟨us, hcase, hcollect, hclose, hcaption⟩, hornament, hmicro, hall⟩ := turns_each h
  have hsubst : p.substitution.apply (Text.join [' '] fs) = Text.join [' '] fs := if_pos hs
  have hcased : Casing.apply (Text.join [' '] fs) = Text.join [' '] us :=
    Except.ok.inj ((casing_run _).trans (Turns.run_join hcase))
  have hcollected : Parentheses.collect (Text.join [' '] us) = Text.join [' '] us :=
    Except.ok.inj ((collected_run _).trans (Turns.run_join hcollect))
  have hclosed : Parentheses.closeUp (Text.join [' '] us) = Text.join [' '] us :=
    Except.ok.inj ((closed_run _).trans (Turns.run_join hclose))
  have hcaptions : Parentheses.protect (Text.join [' '] us) = Text.join [' '] gs :=
    Except.ok.inj ((captions_run _).trans (Turns.run_join hcaption))
  have hinstructions : p.instructions.apply (Text.join [' '] fs) = .ok (Text.join [' '] fs) := by
    rw [hi, instructions_run, Turns.run_join hinstr]
  have hornaments : Ornaments.expandCalls p.dialect.functions p.context.noteContext
      (Text.join [' '] gs) = .ok (Text.join [' '] gs) := by
    rw [ornaments_run, Turns.run_join hornament]
  have hmicrotones : Microtone.apply (Text.join [' '] gs) = .ok (Text.join [' '] gs) := by
    rw [microtones_run, Turns.run_join hmicro]
  simp only [Parser.expand, hsubst, hinstructions, hcased, hcollected, Parentheses.joinUp, hclosed,
    hcaptions, hornaments, hmicrotones, expandBrokenChords_join _ hall, he, List.foldl_nil, bind,
    Except.bind, pure, Except.pure]

end Expansion

end ScoreText
