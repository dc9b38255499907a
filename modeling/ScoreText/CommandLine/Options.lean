import ScoreText.Text.Basic

/-!
Arguments of a command line: options by long or short names, some of which take a value, and words.
After `--` every argument is a word, and a lone dash is one anywhere.
-/

set_option autoImplicit false

namespace ScoreText

/-- An option a command knows. -/
structure Flag where
  long : Text
  short : Option Char := none
  takesValue : Bool := false
  /-- Whether it may be given more than once. -/
  recurs : Bool := false

/-- The options given, by their long names, and the words. -/
structure Arguments where
  given : List (Text × Option Text) := []
  words : List Text := []

namespace Arguments

/-- What one argument gives: options that are complete, and one that awaits its value. -/
structure Given where
  complete : List (Text × Option Text)
  awaiting : Option Text := none

/-- Whether an argument is not a word. -/
def isOption : Text → Bool
  | '-' :: _ :: _ => true
  | _ => false

/-- A long option, with its value if that follows an equals sign. -/
def long? (flags : List Flag) (body : Text) : Option Given :=
  match Text.cut? '=' body with
  | some (name, value) =>
    (flags.find? fun f => f.long == name && f.takesValue).map fun f =>
      ⟨[(f.long, some value)], none⟩
  | none =>
    (flags.find? fun f => f.long == body).map fun f =>
      if f.takesValue then ⟨[], some f.long⟩ else ⟨[(f.long, none)], none⟩

def withoutEquals : Text → Text
  | '=' :: r => r
  | s => s

/-- Short options in a row; the first that takes a value has the rest of the row for it. -/
def short? (flags : List Flag) : Text → Option Given
  | [] => some ⟨[], none⟩
  | c :: r => do
    let f ← flags.find? fun f => f.short == some c
    if f.takesValue then
      if r.isEmpty then some ⟨[], some f.long⟩ else some ⟨[(f.long, some (withoutEquals r))], none⟩
    else
      let more ← short? flags r
      some { more with complete := (f.long, none) :: more.complete }

def option? (flags : List Flag) : Text → Option Given
  | '-' :: '-' :: body => long? flags body
  | '-' :: row => short? flags row
  | _ => none

/-- Reads arguments, up to the first word if that ends them; the rest is returned. -/
def scan? (flags : List Flag) (endsAtWord : Bool) : List Text → Option (Arguments × List Text)
  | [] => some ({}, [])
  | arg :: rest =>
    if arg == ['-', '-'] then some ({ words := rest }, [])
    else if isOption arg then do
      let here ← option? flags arg
      match here.awaiting with
      | none =>
        let (more, left) ← scan? flags endsAtWord rest
        some ({ more with given := here.complete ++ more.given }, left)
      | some name =>
        match rest with
        | [] => none
        | value :: behind =>
          if isOption value then none
          else
            let (more, left) ← scan? flags endsAtWord behind
            some ({ more with given := here.complete ++ (name, some value) :: more.given }, left)
    else if endsAtWord then some ({}, arg :: rest)
    else do
      let (more, left) ← scan? flags endsAtWord rest
      some ({ more with words := arg :: more.words }, left)

def count (a : Arguments) (name : Text) : Nat := (a.given.map Prod.fst).count name

def has (a : Arguments) (name : Text) : Bool := a.count name != 0

def value? (a : Arguments) (name : Text) : Option Text := (a.given.lookup name).bind id

/-- Whether no option is given more often than it may be. -/
def isSound (a : Arguments) (flags : List Flag) : Bool :=
  flags.all fun f => f.recurs || a.count f.long ≤ 1

/-- Reads arguments and checks how often options are given. -/
def read? (flags : List Flag) (endsAtWord : Bool) (args : List Text) :
    Option (Arguments × List Text) :=
  (scan? flags endsAtWord args).filter fun (a, _) => a.isSound flags

end Arguments

end ScoreText
