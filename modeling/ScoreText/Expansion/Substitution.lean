import ScoreText.Table
import ScoreText.Text.Classes
import ScoreText.Text.Scan
import ScoreText.Text.Upper

/-!
Substitution of keys by texts of the user's: `<KEY>`, or any bare word, becomes the value of its
key. What is no key stays as it was, brackets included.
-/

set_option autoImplicit false

namespace ScoreText

structure Substitution where
  values : Table Text := .empty
  /-- Whether keys stand in angle brackets; otherwise every word is one. -/
  bracketed : Bool := true
  /-- When off, keys are looked up in upper case. -/
  caseSensitive : Bool := true
  /-- How often the whole text is gone through. -/
  passes : Nat := 1

namespace Substitution

/-- The part of a text that may be a key: as it stands there, and by name. -/
structure Candidate where
  whole : Text
  key : Text

/-- `<KEY>` at the front: a character that is not white space, then the fewest more up to a `>`. -/
def findBracketed (_behind : Text) : Text → Option (Text.Match Candidate)
  | '<' :: c :: r =>
    if Text.isBlank c then none
    else
      let inKey := fun d => d != '>' && !Text.isBlank d
      match r.dropWhile inKey with
      | '>' :: _ =>
        let key := c :: r.takeWhile inKey
        some ⟨⟨'<' :: key ++ ['>'], key⟩, key.length + 2⟩
      | _ => none
  | _ => none

/-- The word at the front. -/
def findWord (_behind here : Text) : Option (Text.Match Candidate) :=
  let word := here.takeWhile fun c => !Text.isBlank c
  if word.isEmpty then none else some ⟨⟨word, word⟩, word.length⟩

def value? (s : Substitution) (key : Text) : Option Text :=
  s.values.get? (if s.caseSensitive then key else Text.upper key)

/-- One pass over a text. -/
def once (s : Substitution) (text : Text) : Text :=
  Text.mapMatches (if s.bracketed then findBracketed else findWord)
    (fun c => (s.value? c.key).getD c.whole) text

def passesOver (s : Substitution) : Nat → Text → Text
  | 0, text => text
  | n + 1, text => passesOver s n (s.once text)

def apply (s : Substitution) (text : Text) : Text :=
  if s.values.isEmpty then text else s.passesOver s.passes text

end Substitution

end ScoreText
