import ScoreText.Proofs.Expansion.Fixed

/-!
A name in parentheses behind a sign, such as a caption or a request for a bookmark: neither a group of notes
nor a call.
-/

set_option autoImplicit false

namespace ScoreText

open Text Stage

variable {R : Type} [Scalar R]

namespace Expansion

/-- A name in parentheses behind a sign. -/
def behind (sign name : Text) : Text := sign ++ '(' :: (name ++ [')'])

section Behind

variable {sign name : Text} (hsign : ∀ c ∈ sign, isBlank c = false ∧ c ≠ '(' ∧ c ≠ ':')
  (hne : sign ≠ []) (hname : '(' ∉ name)

include hname

/-- Where a character stands: in the sign, right behind it, or where no parenthesis opens any more. -/
theorem behind_split {pre post : Text} {c : Char} (h : behind sign name = pre ++ c :: post) :
    c ∈ sign ∨ pre = sign ∧ c = '(' ∨ c ≠ '(' ∧ '(' ∉ post := by
  have hbody : '(' ∉ name ++ [')'] := by simpa using hname
  rcases List.append_eq_append_iff.mp h with ⟨m, rfl, hm⟩ | ⟨m, rfl, hm⟩
  · cases m with
    | nil =>
      obtain ⟨rfl, -⟩ := List.cons.inj hm
      exact .inr (.inl ⟨List.append_nil sign, rfl⟩)
    | cons d m =>
      have hrest := (List.cons.inj hm).2
      rw [hrest] at hbody
      refine .inr (.inr ⟨?_, fun hp => hbody (by simp [hp])⟩)
      rintro rfl
      exact hbody (by simp)
  · cases m with
    | nil =>
      obtain ⟨rfl, -⟩ := List.cons.inj hm
      exact .inr (.inl ⟨(List.append_nil pre).symm, rfl⟩)
    | cons d m =>
      obtain ⟨rfl, -⟩ := List.cons.inj hm
      exact .inl (by simp)

include hsign

theorem findCall_behind {pre post : Text} {c : Char} (h : behind sign name = pre ++ c :: post)
    (b : Text) : Parentheses.findCall b (c :: post) = none := by
  rcases behind_split hname h with hc | ⟨-, rfl⟩ | ⟨-, hpost⟩
  · exact findCall_none_of_ne (hsign c hc).2.2 b post
  · exact findCall_none_of_ne (by decide) b post
  · rw [← List.append_nil post]
    exact findCall_none hpost (.inl rfl)

theorem closeUp_behind : Parentheses.closeUp (behind sign name) = behind sign name :=
  Except.ok.inj ((closed_run _).trans (run_of_none (fun _ => rfl) fun pre _ _ h =>
    findCall_behind hsign hname h pre.reverse))

theorem expandCalls_behind (functions : Functions) (ctx : NoteContext R) :
    Ornaments.expandCalls functions ctx (behind sign name) = .ok (behind sign name) :=
  (ornaments_run functions ctx _).trans (run_of_none (fun _ => rfl) fun pre _ _ h =>
    findOrnament_none (findCall_behind hsign hname h pre.reverse))

include hne

theorem collect_behind : Parentheses.collect (behind sign name) = behind sign name := by
  refine Except.ok.inj ((collected_run _).trans (run_of_none (fun _ => rfl) fun pre c post h => ?_))
  rcases behind_split hname h with hc | ⟨rfl, rfl⟩ | ⟨hc, hpost⟩
  · obtain ⟨hblank, hparen, -⟩ := hsign c hc
    exact findCollected_none (.inr hparen) fun hb => by rw [hblank] at hb; cases hb
  · exact findCollected_none (.inl (by simpa using hne)) fun hb => absurd hb (by decide)
  · exact findCollected_none (.inr hc) fun _ hm => hpost (List.mem_of_mem_head? hm)

end Behind

end Expansion

end ScoreText
