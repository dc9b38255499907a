import ScoreText.Theory.Length
import ScoreText.Theory.Tone

/-!
Notes and rests, and their written form: the tone, then the length with the ties on either side of
it, then the velocities that differ from the usual one.
-/

set_option autoImplicit false

namespace ScoreText

/-- The velocity of a note that names none. -/
def usualVelocity : Nat := 64

/-- A note or a rest. A length of zero stands for one that is not decided yet. -/
structure Note (R : Type) where
  value : Nat
  length : R
  attack : Nat := usualVelocity
  decay : Nat := usualVelocity
  isRest : Bool := false
  octaveWritten : Bool := false
  lengthWritten : Bool := false
  /-- The first note of a group that sounds together. -/
  isFirst : Bool := false
  /-- Follows the note before it. -/
  isMelodic : Bool := false
  /-- Sounds together with the first note of its group. -/
  isHarmonic : Bool := false
  isPercussion : Bool := false
  startsTie : Bool := false
  endsTie : Bool := false
  /-- The tone as it was written, without length and velocities. -/
  written : Option Text := none

namespace Note

variable {R : Type} [Scalar R]

/-- A sounding note of no length yet. -/
def ofValue (value : Nat) : Note R := { value := min value maxData, length := ((0 : Nat) : R) }

def withLength (n : Note R) (length : R) : Note R :=
  { n with length := length, lengthWritten := true }

def withVelocities (n : Note R) (attack decay : Nat) : Note R :=
  { n with attack := min attack maxData, decay := min decay maxData }

def rest (length : R) : Note R := { (ofValue 0).withLength length with isRest := true }

def octave (n : Note R) : Nat := Tone.octave n.value

/-- Semitones above C; a rest counts as C. -/
def position (n : Note R) : Nat := if n.isRest then 0 else Tone.position n.value

/-- The name of the tone, with the octave only if that was written. -/
def toneName (n : Note R) : Text :=
  if n.isRest then ['R']
  else Tone.name n.value ++ if n.octaveWritten then Text.ofNat n.octave else []

/-- The velocities that differ from the usual one. -/
def velocityText (n : Note R) : Text :=
  (if n.attack = usualVelocity then [] else 'a' :: Text.ofNat n.attack)
    ++ if n.decay = usualVelocity then [] else 'd' :: Text.ofNat n.decay

/-- Ties, length and velocities, as written after a tone or a chord name. -/
def suffix (n : Note R) : Text :=
  (if n.endsTie then ['-'] else [])
    ++ (if n.lengthWritten then Length.text n.length else [])
    ++ (if n.startsTie then ['-'] else [])
    ++ n.velocityText

/-- The written form of a note. -/
def text (n : Note R) : Text :=
  (if n.isRest then ['R']
   else if n.isPercussion then Tone.percussionText n.value
   else n.written.getD (Tone.text n.value)) ++ n.suffix

/-- The written form on the percussion track, where notes go by their percussion names. -/
def percussionText (n : Note R) : Text :=
  if n.isRest ∨ Symbols.percussionName? n.value = none then n.text
  else Tone.percussionText n.value ++ n.suffix

/-- Spellings count only when both notes have one, and then without regard to case. -/
def sameSpelling : Option Text → Option Text → Bool
  | some a, some b => Text.sameIgnoringAsciiCase a b
  | _, _ => true

instance : BEq (Note R) where
  beq a b :=
    sameSpelling a.written b.written && a.value == b.value && a.length == b.length
      && a.octaveWritten == b.octaveWritten && a.lengthWritten == b.lengthWritten
      && a.attack == b.attack && a.decay == b.decay && a.isRest == b.isRest
      && a.isFirst == b.isFirst && a.isMelodic == b.isMelodic && a.isHarmonic == b.isHarmonic
      && a.isPercussion == b.isPercussion && a.startsTie == b.startsTie && a.endsTie == b.endsTie

end Note

end ScoreText
