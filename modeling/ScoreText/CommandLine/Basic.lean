import ScoreText.CommandLine.Options
import ScoreText.Session
import ScoreText.Settings.Reader

/-!
The command line: `dump` prints the sequence that a notation stands for and `tokens` its expanded
fragments. Arguments that cannot be understood end with code 2, a failure with code 1.
-/

set_option autoImplicit false

namespace ScoreText

inductive Command where
  | dump (text : Text)
  | tokens (text : Text)
  | play (text : Text)
  | devices
  deriving DecidableEq, Repr

/-- A command, and whether it was asked to be strict. -/
structure Invocation where
  command : Command
  strict : Bool
  deriving DecidableEq, Repr

/-- What a run leaves. -/
structure CommandResult where
  code : Nat
  out : List Text := []
  failure : Option Text := none
  deriving DecidableEq, Repr

namespace CommandLine

def strictFlag : Flag := { long := "strict".toList }

def verboseFlag : Flag := { long := "verbose".toList, short := some 'v', recurs := true }

/-- The options that every command knows. -/
def commonFlags : List Flag := [strictFlag, verboseFlag]

def tempoName : Text := "tempo".toList

def playFlags : List Flag :=
  [{ long := "device".toList, short := some 'd', takesValue := true },
    { long := tempoName, short := some 't', takesValue := true },
    { long := "input".toList, short := some 'i', takesValue := true }]

def flagsOf (name : Text) : List Flag :=
  if name = "play".toList then playFlags ++ commonFlags else commonFlags

/-- Whether the tempo, if one is given, is a number of 32 bits. -/
def hasSoundTempo (a : Arguments) : Bool :=
  (a.value? tempoName).all fun value => (Numeral.nat? (Numeral.largest 32) value).isSome

/-- The command of a name with its words. -/
def command? (name : Text) (words : List Text) : Option Command :=
  match String.ofList name, words with
  | "dump", [text] => some (.dump text)
  | "tokens", [text] => some (.tokens text)
  | "play", [text] => some (.play text)
  | "devices", [] => some .devices
  | _, _ => none

/-- Options that all commands share stand before the name of the command or after it. -/
def read? (args : List Text) : Option Invocation := do
  let (before, rest) ← Arguments.read? commonFlags true args
  match rest with
  | [] => none
  | name :: rest =>
    let (after, _) ← Arguments.read? (flagsOf name) false rest
    let command ← command? name after.words
    if !hasSoundTempo after then none
    return ⟨command, before.has strictFlag.long || after.has strictFlag.long⟩

/-- A token in sixteen columns, and its kind. -/
def tokenLine (t : Token) : Text := Text.padRight 16 t.text ++ ' ' :: t.kind.text.toList

def report (result : Except Text (List Text)) : CommandResult :=
  match result with
  | .ok out => { code := 0, out := out }
  | .error message => { code := 1, failure := some ("staccato: ".toList ++ message) }

def noOutput : Text := "MIDI error: no MIDI output ports available".toList

variable {R : Type} [Scalar R]

/-- The lines that a command prints, or why it fails. There is nothing to play on. -/
def perform (settings : Settings R) (strict : Bool) : Command → Except Text (List Text)
  | .dump text =>
    let reading := { settings.reading with strict := settings.reading.strict || strict }
    let parser : Parser R := .ofDialect (.ofSettings reading)
    match parser.materialize text settings.playing.resolution with
    | .ok sequence => .ok sequence.lines
    | .error e => .error e.message
  | .tokens text =>
    let parser : Parser R := .ofDialect (.ofSettings settings.reading)
    match parser.tokens text with
    | .ok tokens => .ok (tokens.map tokenLine)
    | .error e => .error e.message
  | .play _ => .error noOutput
  | .devices => .ok ["Outputs:".toList, "Inputs:".toList]

/-- Runs arguments with the text of the settings file, if there is one. -/
def run (R : Type) [Scalar R] (args : List Text) (file : Option Text) : CommandResult :=
  match read? args with
  | none => { code := 2 }
  | some invocation =>
    let settings : Settings R := .ofTextOrStandard file
    report (perform settings invocation.strict invocation.command)

end CommandLine

end ScoreText
