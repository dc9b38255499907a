import ScoreText.Text.Classes
import ScoreText.Text.Scan

/-!
Parenthesised groups. `(C E G)Q` stands for notes that sound together, each with what follows the
group. White space inside a call goes; a space inside the parentheses of a lyric or a marker is
protected, so that the text stays in one fragment.
-/

set_option autoImplicit false

namespace ScoreText

namespace Parentheses

/-- What protected text has in place of a space. -/
def protectedSpace : Char := Char.ofNat 0xA0

/-- The white space before a place where a group may open, if any, and the text from there on. A
group may open at the very start or after white space. -/
def opening? (behind : Text) (opens : Text → Bool) (here : Text) : Option (Text × Text) :=
  if behind.isEmpty && opens here then some ([], here)
  else
    match here with
    | c :: r => if Text.isBlank c && opens r then some ([c], r) else none
    | [] => none

/-- A group of notes: the white space before it, what it holds and what follows it. -/
structure Collected where
  lead : Text
  notes : Text
  suffix : Text

def findCollected (behind here : Text) : Option (Text.Match Collected) := do
  let (lead, group) ← opening? behind (·.head? == some '(') here
  let inner := (group.drop 1).takeWhile fun c => c != '(' && c != ')'
  match (group.drop 1).dropWhile fun c => c != '(' && c != ')' with
  | ')' :: r =>
    let suffix := r.takeWhile fun c => !Text.isBlank c
    some ⟨⟨lead, inner, suffix⟩, lead.length + inner.length + 2 + suffix.length⟩
  | _ => none

/-- The notes of a group, each with the suffix, joined to sound together. -/
def Collected.render (c : Collected) : Text :=
  c.lead ++ Text.join ['+'] ((Text.words c.notes).map (· ++ c.suffix))

def collect (text : Text) : Text := Text.mapMatches findCollected Collected.render text

/-- Text up to a closing parenthesis, in the parentheses that open at the front. -/
def enclosed? : Text → Option Text
  | '(' :: r => (Text.cut? ')' r).map Prod.fst
  | _ => none

/-- A colon, a name and parentheses. -/
structure Call where
  name : Text
  params : Text

def Call.text (c : Call) : Text := [':'] ++ c.name ++ ['('] ++ c.params ++ [')']

def findCall (_behind : Text) : Text → Option (Text.Match Call)
  | ':' :: r =>
    let name := r.takeWhile Text.isNameChar
    if name.isEmpty then none
    else (enclosed? (r.dropWhile Text.isNameChar)).map fun params =>
      ⟨⟨name, params⟩, name.length + params.length + 3⟩
  | _ => none

def closeUp (text : Text) : Text :=
  Text.mapMatches findCall (fun c => c.text.filter fun d => !Text.isBlank d) text

/-- A lyric or marker in parentheses, with the white space before it. -/
structure Caption where
  lead : Text
  sign : Char
  text : Text

def findCaption (behind here : Text) : Option (Text.Match Caption) := do
  let opens := fun s : Text => s.head? == some '&' || s.head? == some '!'
  let (lead, group) ← opening? behind opens here
  match group with
  | sign :: r => do
    let inner ← enclosed? r
    some ⟨⟨lead, sign, inner⟩, lead.length + inner.length + 3⟩
  | [] => none

def Caption.render (c : Caption) : Text :=
  c.lead ++ [c.sign, '('] ++ Text.replaceChar ' ' protectedSpace c.text ++ [')']

def protect (text : Text) : Text := Text.mapMatches findCaption Caption.render text

/-- Calls lose their white space, then captions protect their spaces. -/
def joinUp (text : Text) : Text := protect (closeUp text)

end Parentheses

end ScoreText
