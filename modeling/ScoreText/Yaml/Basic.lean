import ScoreText.Number.Numeral
import ScoreText.Number.Scalar

/-!
Documents as trees, and what their scalars say. Only a plain scalar can be a number, a truth value
or nothing, whatever its tag, except that a literal block can be what its tag names; any scalar is a
text.
-/

set_option autoImplicit false

namespace ScoreText

namespace Yaml

/-- How a scalar is written. -/
inductive Style where
  | plain | quoted | literal | folded
  deriving DecidableEq, Repr

inductive Node where
  | scalar (style : Style) (tag : Option Text) (text : Text)
  /-- Keys with their values; a key may recur. -/
  | mapping (entries : List (Node × Node))
  | sequence (items : List Node)

/-- Where nothing is written. -/
def Node.empty : Node := .scalar .plain none []

def Node.text? : Node → Option Text
  | .scalar _ _ text => some text
  | _ => none

/-- The entries of a mapping whose keys are scalars; nothing written is an empty one. -/
def Node.entries? : Node → Option (List (Text × Node))
  | .mapping entries => entries.mapM fun (key, value) => key.text?.map fun text => (text, value)
  | .scalar style _ text => if style = .plain ∧ text.isEmpty then some [] else none
  | .sequence _ => none

/-- What the names of standard tags start with. -/
def standardTags : Text := "tag:yaml.org,2002:".toList

/-- The text of a scalar that may be a value of a standard type. -/
def Node.valueText? (type : String) : Node → Option Text
  | .scalar .plain _ text => some text
  | .scalar .literal (some tag) text =>
    if tag = standardTags ++ type.toList then some text else none
  | _ => none

/-- A whole number in a base of its own, after `0x`, `0o` or `0b`. -/
def based? : Text → Option Nat
  | '0' :: 'x' :: r => Numeral.value? 16 r
  | '0' :: 'o' :: r => Numeral.value? 8 r
  | '0' :: 'b' :: r => Numeral.value? 2 r
  | _ => none

def withoutPlus : Text → Text
  | '+' :: r => r
  | s => s

/-- Digits of a decimal number, which starts with no zero unless that is all of it. -/
def decimal? (s : Text) : Option Nat :=
  if s.head? = some '0' ∧ 1 < s.length then none else Numeral.value? 10 s

/-- A natural number of at most `limit`. -/
def Node.nat? (limit : Nat) (n : Node) : Option Nat := do
  let s := withoutPlus (← n.valueText? "int")
  let value ← (based? s).or (decimal? s)
  if value ≤ limit then some value else none

/-- A natural number of eight bits. -/
def Node.byte? (n : Node) : Option Nat := n.nat? (Numeral.largest 8)

/-- A natural number of thirty-two bits. -/
def Node.word? (n : Node) : Option Nat := n.nat? (Numeral.largest 32)

def Node.bool? (n : Node) : Option Bool := do
  let s := String.ofList (← n.valueText? "bool")
  if s ∈ ["true", "True", "TRUE"] then some true
  else if s ∈ ["false", "False", "FALSE"] then some false
  else none

def infinities : List String := [".inf", ".Inf", ".INF"]

/-- A number: a finite decimal, an infinity, or the one that is no number. -/
def Node.number? {R : Type} [Scalar R] (n : Node) : Option R := do
  let s ← n.valueText? "float"
  let one : R := ((1 : Nat) : R)
  let zero : R := ((0 : Nat) : R)
  if String.ofList (withoutPlus s) ∈ infinities then some (one / zero)
  else if s.head? = some '-' ∧ String.ofList (s.drop 1) ∈ infinities then some (-(one / zero))
  else if String.ofList s ∈ [".nan", ".NaN", ".NAN"] then some (zero / zero)
  else do
    let unsigned := withoutPlus s
    if s.head? = some '+' ∧ unsigned.head?.any (fun c => c = '+' ∨ c = '-') then none
    let value : R := Scalar.ofDecimal (← Decimal.ofText? unsigned)
    if Scalar.isFinite value then some value else none

/-- The words for nothing. -/
def isNullWord (s : Text) : Bool := String.ofList s ∈ ["~", "null", "Null", "NULL"]

/-- What a node says, if it does not say that there is nothing. A plain scalar says so if it is
empty or a word for nothing, and under the tag for nothing it has to be such a word; under another
tag it says something. -/
def Node.optional? {α : Type} (read : Node → Option α) (n : Node) : Option (Option α) :=
  match n with
  | .scalar .plain none text =>
    if text.isEmpty || isNullWord text then some none else (read n).map some
  | .scalar .plain (some tag) text =>
    if tag = standardTags ++ "null".toList then if isNullWord text then some none else none
    else (read n).map some
  | _ => (read n).map some

/-- The value of a key that stands once, or the default where it does not stand. -/
def valueOr {α : Type} (entries : List (Text × Node)) (key : String) (read : Node → Option α)
    (default : α) : Option α :=
  match entries.filter fun e => e.1 == key.toList with
  | [] => some default
  | [(_, node)] => read node
  | _ => none

end Yaml

end ScoreText
