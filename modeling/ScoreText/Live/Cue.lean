import ScoreText.Live.Ramp

/-!
Cues: named work that performs operations of its own when it runs, and the log that it leaves.
-/

set_option autoImplicit false

namespace ScoreText

/-- A named command or event. -/
inductive Cue (I : Type) where
  | cue (name : Text) (actions : List (Operation (Cue I) (Cue I) I))

/-- A named glide. -/
inductive Swell where
  /-- Tells the values of a ramp. -/
  | ramp (name : Text) (ramp : Ramp)
  /-- Tells how far it is, and then performs operations. -/
  | progress (name : Text) (actions : List (Operation (Cue Swell) (Cue Swell) Swell))
  /-- Tells of every call. -/
  | stages (name : Text)

namespace Cue

variable {I : Type}

instance : Inhabited (Cue I) := ⟨.cue [] []⟩

def name : Cue I → Text
  | .cue name _ => name

def actions : Cue I → List (Operation (Cue I) (Cue I) I)
  | .cue _ actions => actions

end Cue

abbrev CueOperation := Operation (Cue Swell) (Cue Swell) Swell

abbrev CueMachine := Machine (Cue Swell) (Cue Swell) Swell

/-- What a cue or a swell tells. -/
inductive CueEntry (R : Type) where
  | command (name : Text)
  | event (name : Text) (millisecond : Nat)
  | ramp (name : Text) (value : Nat)
  | progress (name : Text) (elapsed : Nat) (portion : R)
  | start (name : Text)
  | update (name : Text) (elapsed : Nat) (portion : R)
  | finish (name : Text)
  | did (operation : CueOperation) (reply : Reply)

namespace Swell

instance : Inhabited Swell := ⟨.stages []⟩

variable (R : Type) [Scalar R]

/-- A swell after a call, and the operations that it performs. -/
def answer : Swell → Call → Swell × List CueOperation
  | .ramp name r, call => (.ramp name (r.call R call).1, [])
  | .progress name actions, .update _ _ => (.progress name actions, actions)
  | swell, _ => (swell, [])

/-- What a swell tells of a call. -/
def told? : Swell → Call → Option (CueEntry R)
  | .ramp name r, call => (r.call R call).2.map (.ramp name)
  | .progress name _, .update elapsed duration =>
    some (.progress name elapsed (Call.portion elapsed duration))
  | .progress _ _, _ => none
  | .stages name, .start => some (.start name)
  | .stages name, .update elapsed duration =>
    some (.update name elapsed (Call.portion elapsed duration))
  | .stages name, .finish => some (.finish name)

end Swell

namespace Cue

variable (R : Type) [Scalar R]

def script : Script (Cue Swell) (Cue Swell) Swell where
  command := actions
  event := actions
  glide := Swell.answer R

/-- What is told of a happening. -/
def told? : Nat × Happening (Cue Swell) (Cue Swell) Swell → Option (CueEntry R)
  | (_, .command _ work) => some (.command work.name)
  | (millisecond, .event _ work) => some (.event work.name millisecond)
  | (_, .glide _ work call) => work.told? R call
  | (_, .did operation reply) => some (.did operation reply)

end Cue

end ScoreText
