import ScoreText.Text.Classes
import ScoreText.Text.Scan
import ScoreText.Text.Upper

/-!
Upper-casing, which spares what is not notation: the text of lyrics and markers, the names of
requested bookmarks and the parameters of calls.
-/

set_option autoImplicit false

namespace ScoreText

namespace Casing

/-- Whether a fragment starts where this text lies behind. -/
def atFragmentStart : Text → Bool
  | [] => true
  | c :: _ => Text.isBlank c

/-- Whether the text behind ends with a colon and a name. -/
def afterCallName (behind : Text) : Bool :=
  !(behind.takeWhile Text.isNameChar).isEmpty
    && (behind.dropWhile Text.isNameChar).head? == some ':'

/-- A text through its first closing parenthesis, or all of it. -/
def throughParenthesis (s : Text) : Text :=
  s.takeWhile (· != ')') ++ (s.dropWhile (· != ')')).take 1

/-- The payload of a lyric, a marker or a bookmark request: in parentheses or up to white space. -/
def payload (s : Text) : Text :=
  if s.head? == some '(' then throughParenthesis s else s.takeWhile fun c => !Text.isBlank c

/-- A span at the front of a text that keeps its case. -/
def spared? (behind : Text) : Text → Option Text
  | [] => none
  | c :: r =>
    if (c = '&' ∨ c = '!') ∧ atFragmentStart behind then some (c :: payload r)
    else if c = '@' ∧ atFragmentStart behind ∧ r.head? = some '#' then
      some (c :: '#' :: payload (r.drop 1))
    else if c = '(' ∧ afterCallName behind then some (throughParenthesis (c :: r))
    else none

def findSpared (behind here : Text) : Option (Text.Match Text) :=
  (spared? behind here).map fun span => ⟨span, span.length⟩

def upperPiece : Text.Piece Text → Text
  | .kept c => Text.upperChar c
  | .found span => span

def apply (text : Text) : Text := (Text.pieces findSpared text).flatMap upperPiece

end Casing

end ScoreText
