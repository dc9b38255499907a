import ScoreText.Expansion.Casing
import ScoreText.Expansion.Instruction
import ScoreText.Expansion.Microtone
import ScoreText.Expansion.Ornaments
import ScoreText.Expansion.Substitution
import ScoreText.Notation.Fragment
import ScoreText.Notation.Token

/-!
Parsing a notation: the whole text is expanded, then cut at spaces, and each fragment is handed to
the family that claims it, again and again until nothing of it is left. What nothing claims is an
error in strict mode and passed over otherwise.
-/

set_option autoImplicit false

namespace ScoreText

/-- A parser: what it is built with, what it remembers, and what the user added to expansion. -/
structure Parser (R : Type) where
  dialect : Dialect R
  memory : Memory
  substitution : Substitution := {}
  instructions : Instructions := .empty
  /-- Stages that run after all others. -/
  extraStages : List (Text → Text) := []

/-- What reading a text did: the events announced, what is remembered, and whether it failed. -/
structure Outcome (R : Type) where
  events : List (Event R)
  memory : Memory
  result : Except Error Unit

namespace Outcome

variable {R : Type}

/-- Goes on from where a reading ended. -/
def andThen (o : Outcome R) (next : Memory → Outcome R) : Outcome R :=
  match o.result with
  | .error _ => o
  | .ok _ =>
    let more := next o.memory
    { more with events := o.events ++ more.events }

end Outcome

namespace Parser

variable {R : Type} [Scalar R]

def ofDialect (dialect : Dialect R) : Parser R :=
  { dialect := dialect, memory := .initial dialect.symbols }

def standard : Parser R := .ofDialect .standard

def context (p : Parser R) : Context R := ⟨p.dialect, p.memory⟩

def isStrict (p : Parser R) : Bool := p.dialect.settings.strict

def withStrict (p : Parser R) (strict : Bool) : Parser R :=
  { p with dialect := { p.dialect with settings := { p.dialect.settings with strict := strict } } }

/-- All stages of expansion in order. -/
def expand (p : Parser R) (text : Text) : Except Error Text := do
  let ctx := p.context.noteContext
  let text := p.substitution.apply text
  let text ← p.instructions.apply text
  let text := Parentheses.joinUp (Parentheses.collect (Casing.apply text))
  let text ← Ornaments.expandCalls p.dialect.functions ctx text
  let text ← Microtone.apply text
  let text ← Ornaments.expandBrokenChords ctx text
  return p.extraStages.foldl (fun text stage => stage text) text

/-- The expanded fragments with their kinds. -/
def tokens (p : Parser R) (text : Text) : Except Error (List Token) := do
  let expanded ← p.expand text
  return ((Text.fields ' ' expanded).filter (!·.isEmpty)).map Token.classify

/-- The end of a fragment that nothing claims; `position` is where it starts. -/
def unclaimed (dialect : Dialect R) (position : Nat) (memory : Memory) (rest : Text) : Outcome R :=
  if dialect.settings.strict then ⟨[], memory, .error (.unrecognized rest position)⟩
  else ⟨[], memory, .ok ()⟩

/-- Reads all of a fragment whose front stands at `position`. Each family takes a character at
least, so `fuel` need not be more than there are characters. -/
def readFragment (dialect : Dialect R) : Nat → Nat → Memory → Text → Outcome R
  | _, _, memory, [] => ⟨[], memory, .ok ()⟩
  | 0, position, memory, rest => unclaimed dialect position memory rest
  | fuel + 1, position, memory, rest =>
    match Family.of? rest with
    | none => unclaimed dialect position memory rest
    | some family =>
      let reading := family.read ⟨dialect, memory⟩ rest
      match reading.result with
      | .error e => ⟨reading.events, reading.memory, .error e⟩
      | .ok left =>
        Outcome.andThen ⟨reading.events, reading.memory, .ok ()⟩ fun memory =>
          if left.length < rest.length then
            readFragment dialect fuel (position + (rest.length - left.length)) memory left
          else unclaimed dialect position memory rest

/-- Reads fragments in order, the first of them at `position`, until one fails. -/
def readFragments (dialect : Dialect R) : Nat → Memory → List Text → Outcome R
  | _, memory, [] => ⟨[], memory, .ok ()⟩
  | position, memory, fragment :: rest =>
    (readFragment dialect fragment.length position memory fragment).andThen fun memory =>
      readFragments dialect (position + fragment.length + 1) memory rest

def readText (p : Parser R) (text : Text) : Outcome R :=
  match p.expand text with
  | .error e => ⟨[], p.memory, .error e⟩
  | .ok expanded => readFragments p.dialect 0 p.memory (Text.fields ' ' expanded)

/-- Reads a text, announcing that parsing starts and ends around all else, even a failure. -/
def parse (p : Parser R) (text : Text) : Outcome R :=
  let o := p.readText text
  { o with events := .parsingStarts :: o.events ++ [.parsingEnds] }

end Parser

end ScoreText
