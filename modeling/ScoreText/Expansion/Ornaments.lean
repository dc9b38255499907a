import ScoreText.Expansion.Parentheses
import ScoreText.Notation.Ornament

/-!
Ornaments in a text: calls of ornament functions, and chords with a list of indexes, become the
notes they stand for.
-/

set_option autoImplicit false

namespace ScoreText

namespace Ornaments

variable {R : Type} [Scalar R]

/-- A call whose name starts with a letter. -/
def findCall (behind here : Text) : Option (Text.Match Parentheses.Call) :=
  (Parentheses.findCall behind here).filter fun m => m.value.name.head?.any Char.isAlpha

/-- Calls of ornaments are written out, those of other functions stay. -/
def expandCall (functions : Functions) (ctx : NoteContext R) (c : Parentheses.Call) :
    Except Error Text :=
  match functions.ornament? c.name with
  | some ornament => ornament.expand ctx c.params
  | none => .ok c.text

def expandCalls (functions : Functions) (ctx : NoteContext R) (text : Text) : Except Error Text :=
  Text.renderPiecesOr (expandCall functions ctx) (Text.pieces findCall text)

/-- The chord and the indexes of a broken chord such as `CMAJW:0,1,2`. -/
def broken? (fragment : Text) : Option (Text × Text) :=
  match Text.cut? ':' fragment with
  | some (chord, indexes) =>
    let isIndex := fun index : Text => !index.isEmpty && index.all Text.isAnyDigit
    if chord.head?.any startsNote && (Text.fields ',' indexes).all isIndex then
      some (chord, indexes)
    else none
  | none => none

def expandBroken (ctx : NoteContext R) (fragment : Text) : Except Error Text :=
  match broken? fragment with
  | some (chord, indexes) => Ornament.writeBroken ctx chord indexes
  | none => .ok fragment

def expandBrokenChords (ctx : NoteContext R) (text : Text) : Except Error Text := do
  let fragments ← (Text.fields ' ' text).mapM (expandBroken ctx)
  return Text.join [' '] fragments

end Ornaments

end ScoreText
