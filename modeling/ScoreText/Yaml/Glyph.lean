import ScoreText.Text.Basic

/-!
A text as characters that know their place. Each line ends in one character: a pair of carriage
return and line feed, either of them alone, and the next-line character count as a line feed, while
the separators of lines and of paragraphs stay what they are.
-/

set_option autoImplicit false

namespace ScoreText

namespace Yaml

/-- A character with its line, its place in the line, and the number of characters before it. -/
structure Glyph where
  char : Char
  line : Nat
  column : Nat
  index : Nat
  deriving DecidableEq, Repr

/-- The character that a line ending in `c` ends in, if `c` ends lines. -/
def lineEnd? (c : Char) : Option Char :=
  if c = '\n' ∨ c = '\r' ∨ c.toNat = 0x85 then some '\n'
  else if c.toNat = 0x2028 ∨ c.toNat = 0x2029 then some c
  else none

/-- The characters that a document may hold. Of those that do not show, it may hold tabulators and
line ends. -/
def isAllowed (c : Char) : Bool :=
  let n := c.toNat
  c == '\t' || c == '\n' || c == '\r' || (0x20 ≤ n && n ≤ 0x7E) || n == 0x85 ||
    (0xA0 ≤ n && n ≤ 0xFFFD) || 0x10000 ≤ n

/-- The characters of a text from a place on. -/
def glyphsFrom (line column index : Nat) : Text → List Glyph
  | [] => []
  | '\r' :: '\n' :: r => ⟨'\n', line, column, index⟩ :: glyphsFrom (line + 1) 0 (index + 2) r
  | c :: r =>
    match lineEnd? c with
    | some ended => ⟨ended, line, column, index⟩ :: glyphsFrom (line + 1) 0 (index + 1) r
    | none => ⟨c, line, column, index⟩ :: glyphsFrom line (column + 1) (index + 1) r

/-- The characters of a text, unless there is one that no document may hold. -/
def glyphs? (s : Text) : Option (List Glyph) :=
  if s.all isAllowed then some (glyphsFrom 0 0 0 s) else none

namespace Glyph

def isTab (g : Glyph) : Bool := g.char == '\t'

def isBlank (g : Glyph) : Bool := g.char == ' ' || g.isTab

def isBreak (g : Glyph) : Bool := (lineEnd? g.char).isSome

def isGap (g : Glyph) : Bool := g.isBlank || g.isBreak

/-- The mark that may stand before the first character of a line and says nothing. -/
def isOrderMark (g : Glyph) : Bool := g.char.toNat == 0xFEFF && g.column == 0

/-- The text of characters. -/
def text (gs : List Glyph) : Text := gs.map Glyph.char

/-- The line ends among characters. -/
def breaks (gs : List Glyph) : Text := text (gs.filter Glyph.isBreak)

end Glyph

/-- Whether there is white space ahead, or nothing. -/
def startsGap (gs : List Glyph) : Bool := gs.head?.all Glyph.isGap

/-- Whether the next character is one of these. -/
def startsWith (chars : Text) (gs : List Glyph) : Bool :=
  gs.head?.any fun g => chars.contains g.char

/-- The sign of the line between documents that starts here: `-` three times where one starts, or
`.` three times where one ends. -/
def divider? : List Glyph → Option Char
  | a :: b :: c :: r =>
    let isSign := (a.char = '-' ∨ a.char = '.') ∧ b.char = a.char ∧ c.char = a.char
    if a.column = 0 ∧ isSign ∧ startsGap r then some a.char else none
  | _ => none

end Yaml

end ScoreText
