import ScoreText.Number.Scalar

/-!
Lengths of notes as fractions of a whole note, and how they are written: letters for the powers of
two, a dot for half as much again, `w` with a count for whole notes, and a decimal for all else.
-/

set_option autoImplicit false

namespace ScoreText

namespace Length

variable {R : Type} [Scalar R]

/-- The letters of a whole, half, quarter note and so on, each half as long as the one before. -/
def letters : Text := ['W', 'H', 'Q', 'I', 'S', 'T', 'X', 'O']

/-- One whole note halved `n` times. -/
def halved (n : Nat) : R := ((1 : Nat) : R) / ((Nat.pow 2 n : Nat) : R)

/-- Three halves, what a dot multiplies a length by. -/
def dot : R := ((3 : Nat) : R) / ((2 : Nat) : R)

def ofLetter? (letter : Char) : Option R := (letters.idxOf? letter).map halved

/-- The lengths below a whole note that have names, longest first. -/
def named : List (Text × R) :=
  (letters.zipIdx.drop 1).flatMap fun (letter, n) =>
    [([letter.toLower, '.'], halved n * dot), ([letter.toLower], halved n)]

/-- The written form of a length: `w`, `w3`, `h.`, `q` or, without a name, `/0.3`. -/
def text (length : R) : Text :=
  if ((1 : Nat) : R) ≤ length ∧ Scalar.isWhole length then
    let wholes := Scalar.toNat length
    if wholes = 1 then ['w'] else 'w' :: Text.ofNat wholes
  else
    match named.find? fun entry => entry.2 == length with
    | some (name, _) => name
    | none => '/' :: Scalar.text length

end Length

end ScoreText
