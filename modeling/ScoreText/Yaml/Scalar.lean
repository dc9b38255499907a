import ScoreText.Number.Numeral
import ScoreText.Yaml.Glyph

/-!
Scalars as they are written: in quotes, plain, or as a block of lines. A scalar may go on over
several lines; where it does, a line end between words says a space, and of several line ends in a
row the first says nothing.
-/

set_option autoImplicit false

namespace ScoreText

namespace Yaml

/-- What line ends between two words say. -/
def folded : Text → Text
  | ['\n'] => [' ']
  | '\n' :: more => more
  | breaks => breaks

/-- What white space between two words says. Blanks beside a line end say nothing. -/
def gapText (gap : List Glyph) : Text :=
  if gap.any Glyph.isBreak then folded (Glyph.breaks gap) else Glyph.text gap

/-! Quotes -/

/-- What stands for a character after a backslash. -/
def escapes : List (Char × Nat) :=
  [('0', 0), ('a', 7), ('b', 8), ('t', 9), ('\t', 9), ('n', 10), ('v', 11), ('f', 12), ('r', 13),
    ('e', 27), (' ', 32), ('"', 34), ('/', 47), ('\\', 92), ('N', 0x85), ('_', 0xA0), ('L', 0x2028),
    ('P', 0x2029)]

/-- The number of digits after a backslash and a letter. -/
def escapeWidth? : Char → Option Nat
  | 'x' => some 2
  | 'u' => some 4
  | 'U' => some 8
  | _ => none

/-- The character of a number in hexadecimal digits. -/
def charOf? (digits : Text) : Option Char := do
  let n ← Numeral.value? 16 digits
  if n.isValidChar then some (Char.ofNat n) else none

/-- What a backslash and the characters after it say, and what follows. A backslash at the end of a
line joins it to the next. -/
def escaped? : List Glyph → Option (Text × List Glyph)
  | [] => none
  | g :: r =>
    if g.isBreak then
      let (gap, rest) := r.span Glyph.isGap
      some (Glyph.breaks gap, rest)
    else
      match escapeWidth? g.char with
      | none => (escapes.lookup g.char).map fun n => ([Char.ofNat n], r)
      | some width =>
        let digits := Glyph.text (r.take width)
        if digits.length = width then (charOf? digits).map fun c => ([c], r.drop width) else none

/-- The rest of a text in quotes of a kind, and what follows the last of them. In single quotes a
quote is written twice, in double quotes after a backslash. Every character takes one step. -/
def quotedFrom? (quote : Char) : Nat → List Glyph → Option (Text × List Glyph)
  | fuel + 1, g :: r => do
    if (divider? (g :: r)).isSome then none
    let isEscape := if quote = '"' then g.char = '\\' else g.char = quote ∧ startsWith [quote] r
    if isEscape then
      let (said, rest) ← if quote = '"' then escaped? r else some ([quote], r.drop 1)
      let (more, rest) ← quotedFrom? quote fuel rest
      return (said ++ more, rest)
    else if g.char = quote then return ([], r)
    else if g.isGap then
      let (gap, rest) := (g :: r).span Glyph.isGap
      let (more, rest) ← quotedFrom? quote fuel rest
      return (gapText gap ++ more, rest)
    else
      let (more, rest) ← quotedFrom? quote fuel r
      return (g.char :: more, rest)
  | _, _ => none

def quoted? (quote : Char) (gs : List Glyph) : Option (Text × List Glyph) :=
  quotedFrom? quote (gs.length + 1) gs

/-! Plain scalars -/

/-- The signs of collections in brackets. -/
def flowSigns : Text := [',', '[', ']', '{', '}']

/-- A word of a plain scalar, and what follows. It ends before a colon that white space follows, and
in brackets before their signs; there no colon may touch a sign. -/
def plainWord? (inFlow : Bool) : List Glyph → Option (Text × List Glyph)
  | [] => some ([], [])
  | g :: r =>
    if inFlow ∧ g.char = ':' ∧ startsWith ('?' :: flowSigns) r then none
    else if g.isGap ∨ (g.char = ':' ∧ startsGap r) ∨ (inFlow ∧ flowSigns.contains g.char) then
      some ([], g :: r)
    else (plainWord? inFlow r).map fun (word, rest) => (g.char :: word, rest)

/-- Whether a line in white space is indented by a tabulator to the left of `margin`. -/
def hasTabBefore (margin : Nat) (gap : List Glyph) : Bool :=
  (gap.dropWhile fun g => !g.isBreak).any fun g => g.isTab && g.column < margin

/-- A plain scalar as it was read. -/
structure Plain where
  text : Text
  /-- Whether it ended at the end of a line. -/
  endsLine : Bool
  rest : List Glyph

/-- The rest of a plain scalar after a gap. It goes on in lines that do not start to the left of
`margin`, up to a remark. Every word takes one step. -/
def plainFrom? (inFlow : Bool) (margin : Nat) : Nat → List Glyph → List Glyph → Option Plain
  | 0, _, _ => none
  | fuel + 1, gap, gs => do
    let stop : Plain := ⟨[], gap.any Glyph.isBreak, gs⟩
    if (divider? gs).isSome || startsWith ['#'] gs then return stop
    let (word, rest) ← plainWord? inFlow gs
    if word.isEmpty then return stop
    let (next, after) := rest.span Glyph.isGap
    if hasTabBefore margin next then none
    let text := gapText gap ++ word
    if next.isEmpty || (!inFlow && after.head?.any fun g => g.column < margin) then
      return ⟨text, next.any Glyph.isBreak, after⟩
    let more ← plainFrom? inFlow margin fuel next after
    return { more with text := text ++ more.text }

def plain? (inFlow : Bool) (margin : Nat) (gs : List Glyph) : Option Plain :=
  plainFrom? inFlow margin (gs.length + 1) [] gs

/-! Blocks of lines -/

/-- Which line ends at the end of a block count: none, one, or all. -/
inductive Chomping where
  | strip | clip | keep
  deriving DecidableEq, Repr

/-- What stands after the sign of a block. -/
structure BlockHeader where
  chomping : Chomping := .clip
  /-- How far its lines are indented, if that is given. -/
  indent : Option Nat := none

def Chomping.ofSign? : Char → Option Chomping
  | '+' => some .keep
  | '-' => some .strip
  | _ => none

/-- The digit of an indentation, which is not zero. -/
def indentOf? (c : Char) : Option Nat := (Numeral.digit? 10 c).filter (· ≠ 0)

/-- The header of a block: a sign and a digit in either order, or less. -/
def blockHeader? (signs : Text) : Option BlockHeader :=
  match signs with
  | [] => some {}
  | [a] =>
    match Chomping.ofSign? a with
    | some chomping => some { chomping }
    | none => (indentOf? a).map fun n => { indent := some n }
  | [a, b] => do
    let (sign, digit) := if (Chomping.ofSign? a).isSome then (a, b) else (b, a)
    return { chomping := ← Chomping.ofSign? sign, indent := some (← indentOf? digit) }
  | _ => none

/-- What follows the end of a line on which nothing stands but a remark. -/
def nextLine? (gs : List Glyph) : Option (List Glyph) :=
  let rest := gs.dropWhile Glyph.isBlank
  let rest := if startsWith ['#'] rest then rest.dropWhile fun g => !g.isBreak else rest
  match rest with
  | [] => some []
  | g :: r => if g.isBreak then some r else none

/-- The empty lines ahead, the column where the next line that is not empty starts, and that line.
Spaces up to the column `limit`, or all if there is none, are indentation, which has no tabulators.
The widest of these lines counts if it is wider than `widest`. -/
def emptyLines? (limit : Option Nat) : Nat → List Glyph → Option (Text × Nat × List Glyph)
  | widest, [] => some ([], widest, [])
  | widest, g :: r =>
    if limit.all (g.column < ·) && g.char == ' ' then emptyLines? limit widest r
    else if limit.all (g.column < ·) && g.isTab then none
    else if g.isBreak then
      (emptyLines? limit (max widest g.column) r).map fun (breaks, rest) => (g.char :: breaks, rest)
    else some ([], max widest g.column, g :: r)

/-- What a block has been read up to. -/
structure BlockEnd where
  /-- The end of the last line. -/
  last : Text
  /-- The empty lines after it. -/
  empty : Text
  rest : List Glyph

/-- The lines of a block that start in column `indent`, and what follows them. In a folded block the
line end between two lines that no blank starts says a space, or nothing before empty lines. Every
line takes one step. -/
def blockLines? (isFolded : Bool) (indent : Nat) :
    Nat → Bool → BlockEnd → Option (Text × BlockEnd)
  | 0, _, _ => none
  | fuel + 1, blankBefore, before =>
    match before.rest with
    | [] => some ([], before)
    | g :: r =>
      if g.column ≠ indent then some ([], before)
      else do
        let folds := isFolded && before.last == ['\n'] && !blankBefore && !g.isBlank
        let joint := if !folds then before.last else if before.empty.isEmpty then [' '] else []
        let (line, rest) := (g :: r).span fun h => !h.isBreak
        let (empty, _, after) ← emptyLines? (some indent) 0 (rest.drop 1)
        let (more, ended) ←
          blockLines? isFolded indent fuel g.isBlank ⟨Glyph.text (rest.take 1), empty, after⟩
        return (joint ++ before.empty ++ Glyph.text line ++ more, ended)

/-- A block of lines after its sign, and what follows it. Its lines stand to the right of `margin`,
or start there; where no indentation is given, the first of them shows it. -/
def block? (isFolded : Bool) (outer : Option Nat) (gs : List Glyph) :
    Option (Text × List Glyph) := do
  let (signs, rest) := gs.span fun g => !g.isGap && g.char != '#'
  let header ← blockHeader? (Glyph.text signs)
  let rest ← nextLine? rest
  let margin := (outer.map (· + 1)).getD 0
  let given := header.indent.map fun n => outer.getD 0 + n
  let (empty, widest, rest) ← emptyLines? given 0 rest
  let indent := given.getD (max (max widest margin) 1)
  let (text, ended) ← blockLines? isFolded indent (rest.length + 1) false ⟨[], empty, rest⟩
  let tail :=
    match header.chomping with
    | .strip => []
    | .clip => ended.last
    | .keep => ended.last ++ ended.empty
  return (text ++ tail, ended.rest)

end Yaml

end ScoreText
