import ScoreText.Error
import ScoreText.Number.Numeral
import ScoreText.Table
import ScoreText.Text.Quoted
import ScoreText.Text.Scan

/-!
Instructions in braces. The longest registered key that starts the contents decides what they
become; the last word of the contents is the argument, as in `{Sustain ON}`. Contents that no key
starts keep their place without the braces.
-/

set_option autoImplicit false

namespace ScoreText

inductive Instruction where
  /-- The same text always. -/
  | constant (text : Text)
  /-- The choice that the argument numbers. -/
  | choice (choices : List Text)
  /-- The template with its mark replaced according to whether the argument is on or off. -/
  | switch (template off on : Text)
  /-- The template with its mark replaced by the argument. -/
  | argument (template : Text)
  /-- The template with every placeholder that the argument yields replaced. -/
  | placeholders (template : Text) (split : Text → List (Text × Text))

namespace Instruction

/-- Where the argument goes in a template. -/
def mark : Char := '$'

/-- An index of 64 bits as the same bits read with a sign. -/
def signed (n : Nat) : Int :=
  if n ≤ Numeral.largest 63 then n else (n : Int) - Numeral.largest 64 - 1

def index (word : Text) : Except Error Nat :=
  match Numeral.natOrHex? (Numeral.largest 64) word with
  | some n => .ok n
  | none => .error (.invalid .choiceIndex word)

/-- What the instruction becomes for an argument. -/
def expand (argument : Text) : Instruction → Except Error Text
  | .constant text => .ok text
  | .choice choices => do
    let n ← index argument
    match choices[n]? with
    | some text => return text
    | none => .error (.outOfRange .choice (signed n) 0 ((choices.length : Int) - 1))
  | .switch template off on =>
    if Text.sameIgnoringAsciiCase argument ['O', 'N'] then .ok (Text.replaceFirst mark on template)
    else if Text.sameIgnoringAsciiCase argument ['O', 'F', 'F'] then
      .ok (Text.replaceFirst mark off template)
    else .ok template
  | .argument template => .ok (Text.replaceFirst mark argument template)
  | .placeholders template split =>
    .ok ((split argument).foldl (fun text (key, value) => Text.replaceAll key value text) template)

/-- Keys paired with the parts of a word between separators, with nothing where parts run out. -/
def pairParts (separator : Text) (keys : List Text) (word : Text) : List (Text × Text) :=
  let parts := Text.fieldsOn separator word
  keys.zipIdx.map fun (key, i) => (key, (parts[i]?).getD [])

/-- The instruction in full, with its texts in quotes. -/
def describe : Instruction → Text
  | .constant text => "Constant(".toList ++ Text.quoted text ++ [')']
  | .choice choices =>
    "Choice([".toList ++ Text.join ", ".toList (choices.map Text.quoted) ++ "])".toList
  | .switch template off on =>
    "Switch \x7b template: ".toList ++ Text.quoted template ++ ", off: ".toList ++ Text.quoted off
      ++ ", on: ".toList ++ Text.quoted on ++ " \x7d".toList
  | .argument template => "LastIsValue(".toList ++ Text.quoted template ++ [')']
  | .placeholders template _ =>
    "LastIsValueToSplit \x7b template: ".toList ++ Text.quoted template ++ ", .. \x7d".toList

end Instruction

/-- Instructions by key. -/
abbrev Instructions := Table Instruction

namespace Instructions

/-- The contents of a pair of braces at the front of a text, up to the first closing one. -/
def findBraces (_behind : Text) : Text → Option (Text.Match Text)
  | '{' :: r => (Text.cut? '}' r).map fun (contents, _) => ⟨contents, contents.length + 2⟩
  | _ => none

/-- The instruction of the longest key that starts a text. -/
def longest? (t : Instructions) (contents : Text) : Option Instruction :=
  (List.range (contents.length + 1)).reverse.findSome? fun n => t.get? (contents.take n)

/-- What the contents of braces become. -/
def expandContents (t : Instructions) (contents : Text) : Except Error Text :=
  match t.longest? contents with
  | some instruction => instruction.expand (((Text.fields ' ' contents).getLast?).getD [])
  | none => .ok contents

def apply (t : Instructions) (text : Text) : Except Error Text :=
  Text.renderPiecesOr t.expandContents (Text.pieces findBraces text)

end Instructions

end ScoreText
