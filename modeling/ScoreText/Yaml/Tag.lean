import ScoreText.Number.Numeral
import ScoreText.Text.Classes
import ScoreText.Text.Utf8
import ScoreText.Yaml.Glyph

/-!
Names, tags and version numbers, which stand in front of scalars and of documents. The first part of
a tag, between exclamation marks, is its handle, for which something longer may stand.
-/

set_option autoImplicit false

namespace ScoreText

namespace Yaml

/-- Characters of names. -/
def isWordChar (g : Glyph) : Bool := Text.isNameChar g.char || g.char == '-'

/-- Characters of tags; brackets and commas only where the tag is enclosed. -/
def isTagChar (isEnclosed : Bool) (g : Glyph) : Bool :=
  isWordChar g || ";/?:@&=+$.!~*'()".toList.contains g.char ||
    (isEnclosed && [',', '[', ']'].contains g.char)

/-- A byte in two hexadecimal digits after a percent sign, and what follows. -/
def octet? : List Glyph → Option (UInt8 × List Glyph)
  | g :: a :: b :: r =>
    if g.char = '%' then (Numeral.value? 16 [a.char, b.char]).map fun n => (n.toUInt8, r) else none
  | _ => none

/-- The number of bytes after the first one of a character. -/
def trailing? (first : UInt8) : Option Nat :=
  if first < 0x80 then some 0
  else if 0xC0 ≤ first ∧ first < 0xE0 then some 1
  else if 0xE0 ≤ first ∧ first < 0xF0 then some 2
  else if 0xF0 ≤ first ∧ first < 0xF8 then some 3
  else none

/-- So many bytes, all of which go on with a character, and what follows. -/
def octets? : Nat → List Glyph → Option (List UInt8 × List Glyph)
  | 0, gs => some ([], gs)
  | n + 1, gs => do
    let (byte, rest) ← octet? gs
    if byte < 0x80 || 0xC0 ≤ byte then none
    let (more, rest) ← octets? n rest
    return (byte :: more, rest)

/-- A character whose bytes are given, and what follows. -/
def charByOctets? (gs : List Glyph) : Option (Text × List Glyph) := do
  let (first, rest) ← octet? gs
  let (more, rest) ← octets? (← trailing? first) rest
  return (Text.ofUtf8 (first :: more), rest)

/-- Characters of a tag, some of them given by their bytes, and what follows. Every character takes
one step. -/
def tagTextFrom? (isEnclosed : Bool) : Nat → List Glyph → Option (Text × List Glyph)
  | fuel + 1, g :: r =>
    if g.char = '%' then do
      let (char, rest) ← charByOctets? (g :: r)
      let (more, rest) ← tagTextFrom? isEnclosed fuel rest
      return (char ++ more, rest)
    else if isTagChar isEnclosed g then
      (tagTextFrom? isEnclosed fuel r).map fun (more, rest) => (g.char :: more, rest)
    else some ([], g :: r)
  | _, gs => some ([], gs)

def tagText? (isEnclosed : Bool) (gs : List Glyph) : Option (Text × List Glyph) :=
  tagTextFrom? isEnclosed gs.length gs

/-- The parts of a tag after its first exclamation mark, and what follows: `<name>`, or a suffix
that a handle between exclamation marks may precede. -/
def tagParts? (gs : List Glyph) : Option ((Text × Text) × List Glyph) := do
  if startsWith ['<'] gs then
    let (name, rest) ← tagText? true (gs.drop 1)
    if name.isEmpty || !startsWith ['>'] rest then none
    return (([], name), rest.drop 1)
  let (handle, after) := gs.span isWordChar
  if startsWith ['!'] after then
    let (suffix, rest) ← tagText? false (after.drop 1)
    if suffix.isEmpty then none
    return (('!' :: Glyph.text handle ++ ['!'], suffix), rest)
  let (suffix, rest) ← tagText? false gs
  return (if suffix.isEmpty then ([], ['!']) else (['!'], suffix), rest)

/-- A handle: an exclamation mark, or a name between two of them. -/
def handle? (gs : List Glyph) : Option (Text × List Glyph) :=
  if startsWith ['!'] gs then
    let (word, rest) := (gs.drop 1).span isWordChar
    if startsWith ['!'] rest then some ('!' :: Glyph.text word ++ ['!'], rest.drop 1)
    else if word.isEmpty then some (['!'], rest)
    else none
  else none

/-- A number of at most nine digits, and what follows. -/
def versionNumber? (gs : List Glyph) : Option (Nat × List Glyph) := do
  let (digits, rest) := gs.span fun g => g.char.isDigit
  if 9 < digits.length then none
  return (← Numeral.value? 10 (Glyph.text digits), rest)

end Yaml

end ScoreText
