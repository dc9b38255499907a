import ScoreText.Yaml.Basic
import ScoreText.Yaml.Scalar
import ScoreText.Yaml.Tag

/-!
The signs of a document in order. Blocks have no signs of their own: they start where something
stands further to the right, and end where something stands further to the left. A key is known for
one only at the colon after it, so that its sign is put in where it started.
-/

set_option autoImplicit false

namespace ScoreText

namespace Yaml

inductive Token where
  /-- The version that a document is written in. -/
  | version (major minor : Nat)
  /-- What a handle stands for in tags. -/
  | handle (name expansion : Text)
  | documentStart | documentEnd
  | blockSequence | blockMapping | blockEnd
  | flowSequence | flowSequenceEnd | flowMapping | flowMappingEnd | flowComma
  | item | key | value
  | alias (name : Text)
  | anchor (name : Text)
  | tag (handle suffix : Text)
  | scalar (style : Style) (text : Text)
  deriving DecidableEq, Repr

/-- Where a key may have started. -/
structure KeyStart where
  place : Glyph
  /-- The number of signs before it. -/
  position : Nat
  /-- Whether nothing but a key can start there, as other keys of its block do. -/
  isRequired : Bool

/-- A key ends in the line where it started and is not too long. -/
def KeyStart.isOver (k : KeyStart) (here : Glyph) : Bool :=
  k.place.line < here.line || k.place.index + 1024 < here.index

structure Scanner where
  rest : List Glyph
  /-- The signs so far, the latest first. -/
  tokens : List Token := []
  /-- The columns of the blocks that are open, the innermost first. -/
  indents : List Nat := []
  /-- Where a key may have started in the collection at hand. -/
  keyStart : Option KeyStart := none
  /-- The same for the collections around it, the innermost first. -/
  outerStarts : List (Option KeyStart) := []
  /-- Whether a key may start next. -/
  expectsKey : Bool := true

namespace Scanner

/-- Whether this is inside of brackets, where indentation does not count. -/
def inFlow (s : Scanner) : Bool := !s.outerStarts.isEmpty

def emit (s : Scanner) (t : Token) : Scanner := { s with tokens := t :: s.tokens }

/-- Moves on to some characters with a sign for those before. -/
def take (s : Scanner) (t : Token) (rest : List Glyph) : Scanner := { s.emit t with rest }

/-- Puts signs in after the first `position` of them, the latest first. -/
def insert (s : Scanner) (position : Nat) (new : List Token) : Scanner :=
  let since := s.tokens.length - position
  { s with tokens := s.tokens.take since ++ new ++ s.tokens.drop since }

/-- Opens a block in a column unless there is one; its sign comes after `position` others. -/
def openBlock (s : Scanner) (column position : Nat) (t : Token) : Scanner :=
  if !s.inFlow && s.indents.head?.all (· < column) then
    { s.insert position [t] with indents := column :: s.indents }
  else s

/-- Opens a block in the column of a character. -/
def openBlockAt (s : Scanner) (g : Glyph) (t : Token) : Scanner :=
  s.openBlock g.column s.tokens.length t

/-- Closes the innermost blocks as long as their columns are so. -/
def closeBlocks (s : Scanner) (isLeft : Nat → Bool) : Scanner :=
  if s.inFlow then s
  else
    let (closed, indents) := s.indents.span isLeft
    { s with indents, tokens := closed.map (fun _ => Token.blockEnd) ++ s.tokens }

/-- No key has started here, unless it had to. -/
def withoutKey? (s : Scanner) : Option Scanner :=
  if s.keyStart.any KeyStart.isRequired then none else some { s with keyStart := none }

/-- A key may start at a character. -/
def offerKey? (s : Scanner) (g : Glyph) : Option Scanner :=
  if s.expectsKey then do
    let s ← s.withoutKey?
    let isRequired := !s.inFlow && s.indents.head? == some g.column
    some { s with keyStart := some ⟨g, s.tokens.length, isRequired⟩ }
  else some s

/-- Forgets the keys that cannot go on to a character. -/
def dropOver? (s : Scanner) (g : Glyph) : Option Scanner :=
  let starts := s.keyStart :: s.outerStarts
  if starts.any fun start => start.any fun k => k.isOver g && k.isRequired then none
  else
    let still (start : Option KeyStart) := start.filter fun k => !k.isOver g
    some { s with keyStart := still s.keyStart, outerStarts := s.outerStarts.map still }

/-- Passes over white space, line ends and remarks; says whether a key may start after it. Where a
key may start in a block, tabulators are no white space. -/
def passBlank (inFlow expectsKey inRemark : Bool) : List Glyph → Bool × List Glyph
  | [] => (expectsKey, [])
  | g :: r =>
    if g.isBreak then passBlank inFlow (expectsKey || !inFlow) false r
    else if inRemark || g.char == ' ' || g.isOrderMark || (g.isTab && (inFlow || !expectsKey)) then
      passBlank inFlow expectsKey inRemark r
    else if g.char == '#' then passBlank inFlow expectsKey true r
    else (expectsKey, g :: r)

/-- Moves on to the next sign. -/
def toNext (s : Scanner) : Scanner :=
  let (expectsKey, rest) := passBlank s.inFlow s.expectsKey false s.rest
  { s with expectsKey, rest }

/-! Signs of collections -/

def openFlow? (s : Scanner) (g : Glyph) (t : Token) (rest : List Glyph) : Option Scanner := do
  let s ← s.offerKey? g
  return { s.take t rest with
    keyStart := none, outerStarts := s.keyStart :: s.outerStarts, expectsKey := true }

def closeFlow? (s : Scanner) (t : Token) (rest : List Glyph) : Option Scanner := do
  let s ← s.withoutKey?
  let s := { s.take t rest with expectsKey := false }
  match s.outerStarts with
  | [] => return s
  | start :: outerStarts => return { s with keyStart := start, outerStarts }

def comma? (s : Scanner) (rest : List Glyph) : Option Scanner := do
  let s ← s.withoutKey?
  return { s.take .flowComma rest with expectsKey := true }

def item? (s : Scanner) (g : Glyph) (rest : List Glyph) : Option Scanner := do
  if !s.inFlow && !s.expectsKey then none
  let s ← (s.openBlockAt g .blockSequence).withoutKey?
  return { s.take .item rest with expectsKey := true }

/-- The sign in front of a key that may be anything. -/
def key? (s : Scanner) (g : Glyph) (rest : List Glyph) : Option Scanner := do
  if !s.inFlow && !s.expectsKey then none
  let s ← (s.openBlockAt g .blockMapping).withoutKey?
  return { s.take .key rest with expectsKey := !s.inFlow }

/-- The colon after a key. -/
def value? (s : Scanner) (g : Glyph) (rest : List Glyph) : Option Scanner :=
  match s.keyStart with
  | some k =>
    let s := (s.insert k.position [.key]).openBlock k.place.column k.position .blockMapping
    some { s.take .value rest with keyStart := none, expectsKey := false }
  | none =>
    if !s.inFlow && !s.expectsKey then none
    else some { (s.openBlockAt g .blockMapping).take .value rest with expectsKey := !s.inFlow }

/-! Scalars and what may stand before them -/

def plain? (s : Scanner) (g : Glyph) : Option Scanner := do
  let s ← s.offerKey? g
  let margin := (s.indents.head?.map (· + 1)).getD 0
  let read ← Yaml.plain? s.inFlow margin s.rest
  return { s.take (.scalar .plain read.text) read.rest with expectsKey := read.endsLine }

def quoted? (s : Scanner) (g : Glyph) (rest : List Glyph) : Option Scanner := do
  let s ← s.offerKey? g
  let (text, rest) ← Yaml.quoted? g.char rest
  return { s.take (.scalar .quoted text) rest with expectsKey := false }

def block? (s : Scanner) (style : Style) (rest : List Glyph) : Option Scanner := do
  let s ← s.withoutKey?
  let (text, rest) ← Yaml.block? (style == .folded) s.indents.head? rest
  return { s.take (.scalar style text) rest with expectsKey := true }

/-- The name of an anchor, before white space or a sign. -/
def name? (s : Scanner) (g : Glyph) (named : Text → Token) (rest : List Glyph) :
    Option Scanner := do
  let s ← s.offerKey? g
  let (name, rest) := rest.span isWordChar
  let ends := startsGap rest ||
    startsWith ['?', ':', ',', ']', '}', '%', '@', Char.ofNat 0x60] rest
  if name.isEmpty || !ends then none
  return { s.take (named (Glyph.text name)) rest with expectsKey := false }

def tag? (s : Scanner) (g : Glyph) (rest : List Glyph) : Option Scanner := do
  let s ← s.offerKey? g
  let ((handle, suffix), rest) ← tagParts? rest
  if !startsGap rest && !(s.inFlow && startsWith [','] rest) then none
  return { s.take (.tag handle suffix) rest with expectsKey := false }

/-! Lines between documents -/

/-- What stands in a directive of a name, and what follows. -/
def directive? (name : Text) (gs : List Glyph) : Option (Token × List Glyph) :=
  let gs := gs.dropWhile Glyph.isBlank
  if name = "YAML".toList then do
    let (major, rest) ← versionNumber? gs
    if !startsWith ['.'] rest then none
    let (minor, rest) ← versionNumber? (rest.drop 1)
    return (.version major minor, rest)
  else if name = "TAG".toList then do
    let (handle, rest) ← handle? gs
    if !rest.head?.any Glyph.isBlank then none
    let (expansion, rest) ← tagText? true (rest.dropWhile Glyph.isBlank)
    if expansion.isEmpty || !startsGap rest then none
    return (.handle handle expansion, rest)
  else none

/-- Ends all blocks for a line between documents. -/
def divide? (s : Scanner) (t : Token) (rest : List Glyph) : Option Scanner := do
  let s ← (s.closeBlocks fun _ => true).withoutKey?
  return { s.take t rest with expectsKey := false }

def directiveLine? (s : Scanner) (rest : List Glyph) : Option Scanner := do
  let (name, rest) := rest.span isWordChar
  if name.isEmpty || !startsGap rest then none
  let (token, rest) ← directive? (Glyph.text name) rest
  s.divide? token (← nextLine? rest)

/-! Scanning -/

/-- Signs that no plain scalar starts with, whatever follows. -/
def signs : Text :=
  flowSigns ++ ['#', '&', '*', '!', '|', '>', '\'', '"', '%', '@', Char.ofNat 0x60]

/-- Takes the sign that starts at a character. -/
def token? (s : Scanner) (g : Glyph) (rest : List Glyph) : Option Scanner :=
  let isAlone := s.inFlow || startsGap rest
  match divider? (g :: rest) with
  | some sign => s.divide? (if sign = '-' then .documentStart else .documentEnd) (rest.drop 2)
  | none =>
    match g.char with
    | '[' => s.openFlow? g .flowSequence rest
    | '{' => s.openFlow? g .flowMapping rest
    | ']' => s.closeFlow? .flowSequenceEnd rest
    | '}' => s.closeFlow? .flowMappingEnd rest
    | ',' => s.comma? rest
    | '-' => if startsGap rest then s.item? g rest else s.plain? g
    | '?' => if isAlone then s.key? g rest else s.plain? g
    | ':' => if isAlone then s.value? g rest else s.plain? g
    | '*' => s.name? g .alias rest
    | '&' => s.name? g .anchor rest
    | '!' => s.tag? g rest
    | '|' => if s.inFlow then none else s.block? .literal rest
    | '>' => if s.inFlow then none else s.block? .folded rest
    | '\'' => s.quoted? g rest
    | '"' => s.quoted? g rest
    | '%' => if g.column = 0 then s.directiveLine? rest else none
    | _ => if g.isBlank || signs.contains g.char then none else s.plain? g

/-- The signs from here on, in order. Every sign takes one step. -/
def run? : Nat → Scanner → Option (List Token)
  | 0, _ => none
  | fuel + 1, s => do
    let s := s.toNext
    match s.rest with
    | [] => return (← (s.closeBlocks fun _ => true).withoutKey?).tokens.reverse
    | g :: rest =>
      let s ← s.dropOver? g
      run? fuel (← (s.closeBlocks (g.column < ·)).token? g rest)

end Scanner

/-- The signs of a text, if it has none but good ones. -/
def tokens? (s : Text) : Option (List Token) := do
  let glyphs ← glyphs? s
  Scanner.run? (glyphs.length + 1) { rest := glyphs }

end Yaml

end ScoreText
