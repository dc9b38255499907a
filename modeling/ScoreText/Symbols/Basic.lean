import ScoreText.Error
import ScoreText.Number.Numeral
import ScoreText.Symbols.Names
import ScoreText.Table
import ScoreText.Text.Classes
import ScoreText.Text.Upper

/-!
The symbols a notation may use in place of numbers. Names are kept in upper case and found in any
case; definitions are read from lines `$NAME=VALUE`.
-/

set_option autoImplicit false

namespace ScoreText

abbrev Symbols := Table Int

namespace Symbols

/-- The value of a name, as written or in upper case. -/
def find? (symbols : Symbols) (name : Text) : Option Int :=
  (symbols.get? name).or (symbols.get? (Text.upper name))

def define (symbols : Symbols) (name : Text) (value : Int) : Symbols :=
  symbols.insert (Text.upper name) value

def require (symbols : Symbols) (kind : NameKind) (name : Text) : Except Error Int :=
  match symbols.find? name with
  | some value => .ok value
  | none => .error (.unknownName kind name)

def defineAll (symbols : Symbols) (entries : List (Text × Int)) : Symbols :=
  entries.foldl (fun s e => s.define e.1 e.2) symbols

/-- Names numbered upwards from a first number. -/
def numbered (first : Int) (names : List Text) : List (Text × Int) :=
  names.zipIdx.map fun (name, i) => (name, first + i)

/-- Programs, percussion, tempos and controllers; where a name recurs its last meaning holds. -/
def standard : Symbols :=
  defineAll Table.empty <|
    ("PERCUSSION".toList, (percussionTrack : Int)) :: numbered 0 instrumentNames
      ++ instrumentAliases ++ numbered lowestPercussion percussionNames ++ tempoNames
      ++ controllerNames

/-- Whether a line defines nothing. -/
def isRemark (line : Text) : Bool := line.isEmpty || line.head? == some '#'

/-- The name and value that a line defines. -/
def definition? (line : Text) : Except Error (Text × Int) :=
  match line with
  | '$' :: body =>
    match Text.cut? '=' body with
    | none => .error (.invalid .definition line)
    | some (name, value) =>
      match Numeral.int? 32 (Text.trim value) with
      | none => .error (.invalid .definitionValue (Text.trim value))
      | some n => .ok (Text.trim name, n)
  | _ => .error (.invalid .definition line)

/-- Reads definitions line by line: the symbols with all entries up to the first faulty line, and
the number of entries or that line's fault. -/
def loadLines : Symbols → Nat → List Text → Symbols × Except Error Nat
  | symbols, count, [] => (symbols, .ok count)
  | symbols, count, line :: rest =>
    if isRemark line then loadLines symbols count rest
    else
      match definition? line with
      | .error e => (symbols, .error e)
      | .ok (name, value) => loadLines (symbols.define name value) (count + 1) rest

def load (symbols : Symbols) (text : Text) : Symbols × Except Error Nat :=
  loadLines symbols 0 ((Text.fields '\n' text).map Text.trim)

end Symbols

end ScoreText
