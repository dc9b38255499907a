import ScoreText.Proofs.Notation.Progress

/-!
Stages of expansion fail for what they stand for, never for want of a family.
-/

set_option autoImplicit false

namespace ScoreText

namespace Ornament

variable {R : Type} [Scalar R] (ctx : NoteContext R)

theorem recognizes_trillNote (text : Text) : Recognizes (trillNote ctx text) := by
  refine (ctx.keeps_read text).recognizes.bind fun reading => ?_
  split
  · split <;> exact fun _ _ h => nomatch h
  · exact fun _ _ h => nomatch h

theorem recognizes_trillInterval (text : Option Text) : Recognizes (trillInterval text) := by
  unfold trillInterval
  split
  · exact recognizes_ok _
  · split <;> exact fun _ _ h => nomatch h

theorem recognizes_trillPiece (params : Text) (text : Option Text) :
    Recognizes (trillPiece params text : Except Error R) := by
  unfold trillPiece
  split
  · exact recognizes_ok _
  · split
    · split
      · exact fun _ _ h => nomatch h
      · split <;> exact fun _ _ h => nomatch h
    · exact fun _ _ h => nomatch h

theorem recognizes_writeTrill (params : Text) : Recognizes (writeTrill ctx params) := by
  unfold writeTrill
  split
  · exact fun _ _ h => nomatch h
  · refine (recognizes_trillNote ctx _).bind fun n => ?_
    refine (recognizes_trillInterval _).bind fun interval => ?_
    refine (recognizes_trillPiece _ _).bind fun length => ?_
    exact (recognizes_checkRange _ _ _ _).bind fun upper => recognizes_ok _

theorem recognizes_wholeChord? (text : Text) : Recognizes (wholeChord? ctx text) := by
  refine (ctx.keeps_read text).recognizes.bind fun reading => ?_
  split <;> exact recognizes_ok _

theorem recognizes_writeArpeggio (params : Text) : Recognizes (writeArpeggio ctx params) := by
  refine (recognizes_wholeChord? ctx _).bind fun chord => ?_
  split
  · exact fun _ _ h => nomatch h
  · exact recognizes_ok _

theorem recognizes_indexed {R : Type} (notes : List (Note R)) (index : Text) :
    Recognizes (indexed notes index) := by
  unfold indexed
  split <;> exact fun _ _ h => nomatch h

theorem recognizes_writeBroken (chord indexes : Text) : Recognizes (writeBroken ctx chord indexes) := by
  refine (recognizes_wholeChord? ctx _).bind fun whole => ?_
  split
  · exact fun _ _ h => nomatch h
  · exact (Recognizes.mapM (recognizes_indexed _) _).bind fun played => recognizes_ok _

theorem recognizes_expand (ornament : Ornament) (params : Text) :
    Recognizes (ornament.expand ctx params) := by
  cases ornament with
  | trill => exact recognizes_writeTrill ctx params
  | arpeggio => exact recognizes_writeArpeggio ctx params

end Ornament

theorem Instruction.recognizes_expand (argument : Text) (instruction : Instruction) :
    Recognizes (instruction.expand argument) := by
  cases instruction with
  | choice choices =>
    have hindex : Recognizes (index argument) := by
      unfold index
      split <;> exact fun _ _ h => nomatch h
    refine hindex.bind fun n => ?_
    split <;> exact fun _ _ h => nomatch h
  | switch template off on =>
    simp only [expand]
    split
    · exact recognizes_ok _
    · split <;> exact recognizes_ok _
  | constant | argument | placeholders => exact recognizes_ok _

theorem Microtone.recognizes_render (w : Written) : Recognizes (render w) := by
  have hnote : ∀ hertz, Recognizes (noteAndBend hertz) := by
    intro hertz
    unfold noteAndBend
    split
    · exact (recognizes_checkRange _ _ _ _).bind fun note => recognizes_ok _
    · exact fun _ _ h => nomatch h
  unfold render
  split
  · exact fun _ _ h => nomatch h
  · exact (hnote _).bind fun note => recognizes_ok _

/-- Expansion may fail, but not for want of a family. -/
theorem Parser.recognizes_expand {R : Type} [Scalar R] (p : Parser R) (text : Text) :
    Recognizes (p.expand text) := by
  have hinstructions : ∀ text, Recognizes (p.instructions.apply text) := fun text => by
    refine recognizes_renderPiecesOr (fun contents => ?_) _
    unfold Instructions.expandContents
    split
    · exact Instruction.recognizes_expand _ _
    · exact recognizes_ok _
  have hcalls : ∀ text, Recognizes
      (Ornaments.expandCalls p.dialect.functions p.context.noteContext text) := fun text => by
    refine recognizes_renderPiecesOr (fun call => ?_) _
    unfold Ornaments.expandCall
    split
    · exact Ornament.recognizes_expand _ _ _
    · exact recognizes_ok _
  have hbroken : ∀ text, Recognizes (Ornaments.expandBrokenChords p.context.noteContext text) :=
    fun text => by
    refine (Recognizes.mapM (fun fragment => ?_) _).bind fun fragments => recognizes_ok _
    unfold Ornaments.expandBroken
    split
    · exact Ornament.recognizes_writeBroken _ _ _
    · exact recognizes_ok _
  refine (hinstructions _).bind fun text => (hcalls _).bind fun text => ?_
  refine (recognizes_renderPiecesOr Microtone.recognizes_render _).bind fun text => ?_
  exact (hbroken text).bind fun text => recognizes_ok _

end ScoreText
