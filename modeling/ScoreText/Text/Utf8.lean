import ScoreText.Text.Basic

/-!
The UTF-8 form of a text, and the reading of arbitrary bytes as text: each maximal stretch that
starts a character but does not complete it reads as one replacement character.
-/

set_option autoImplicit false

namespace ScoreText

namespace Text

def utf8 (s : Text) : List UInt8 := s.flatMap String.utf8EncodeChar

/-- The middle of a character: its value so far, how many bytes it still owes, and the range the
next byte has to lie in. -/
structure Partial8 where
  value : Nat
  owed : Nat
  low : Nat
  high : Nat

/-- What reads as text where the bytes cannot. -/
def replacement : Char := Char.ofNat 0xFFFD

/-- The byte that opens a character: the text it yields at once, or the character it starts. -/
def openUtf8 (b : Nat) : Text × Option Partial8 :=
  if b < 0x80 then ([Char.ofNat b], none)
  else if 0xC2 ≤ b ∧ b ≤ 0xDF then ([], some ⟨b % 32, 1, 0x80, 0xBF⟩)
  else if b = 0xE0 then ([], some ⟨b % 16, 2, 0xA0, 0xBF⟩)
  else if b = 0xED then ([], some ⟨b % 16, 2, 0x80, 0x9F⟩)
  else if 0xE1 ≤ b ∧ b ≤ 0xEF then ([], some ⟨b % 16, 2, 0x80, 0xBF⟩)
  else if b = 0xF0 then ([], some ⟨b % 8, 3, 0x90, 0xBF⟩)
  else if 0xF1 ≤ b ∧ b ≤ 0xF3 then ([], some ⟨b % 8, 3, 0x80, 0xBF⟩)
  else if b = 0xF4 then ([], some ⟨b % 8, 3, 0x80, 0x8F⟩)
  else ([replacement], none)

/-- One more byte, inside a character or between two. -/
def stepUtf8 (state : Option Partial8) (b : Nat) : Text × Option Partial8 :=
  match state with
  | none => openUtf8 b
  | some p =>
    if p.low ≤ b ∧ b ≤ p.high then
      let value := p.value * 64 + b % 64
      if p.owed = 1 then ([Char.ofNat value], none) else ([], some ⟨value, p.owed - 1, 0x80, 0xBF⟩)
    else
      let (text, next) := openUtf8 b
      (replacement :: text, next)

def ofUtf8From : Option Partial8 → List UInt8 → Text
  | none, [] => []
  | some _, [] => [replacement]
  | state, b :: r =>
    let (text, next) := stepUtf8 state b.toNat
    text ++ ofUtf8From next r

/-- The text that the bytes spell, with replacement characters where they spell none. -/
def ofUtf8 (bytes : List UInt8) : Text := ofUtf8From none bytes

end Text

end ScoreText
