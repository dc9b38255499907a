import ScoreText.Text.Upper
import ScoreText.Theory.Interval

/-!
Named chord shapes. The table is kept longest name first and alphabetical among names of one length
(in bytes), so that the first name that starts a text is the longest that does, and the first name
of a shape is settled.
-/

set_option autoImplicit false

namespace ScoreText

structure ChordTable where
  entries : List (Text × Intervals)

namespace ChordTable

/-- Lexicographic order by code points. -/
def alphabetical : Text → Text → Bool
  | [], _ => true
  | _ :: _, [] => false
  | a :: r, b :: s => a < b || (a == b && alphabetical r s)

/-- The order of names in the table. -/
def precedes (a b : Text) : Bool :=
  Text.byteSize b < Text.byteSize a || (Text.byteSize a == Text.byteSize b && alphabetical a b)

/-- Puts an entry in its place among sorted ones. -/
def place (e : Text × Intervals) : List (Text × Intervals) → List (Text × Intervals)
  | [] => [e]
  | f :: rest => if precedes e.1 f.1 then e :: f :: rest else f :: place e rest

def without (t : ChordTable) (name : Text) : ChordTable := ⟨t.entries.filter fun e => !e.1 == name⟩

/-- Gives a name in upper case its shape, in place of any it had. -/
def put (t : ChordTable) (name : Text) (shape : Intervals) : ChordTable :=
  ⟨place (name, shape) (t.without name).entries⟩

def shapes : List (Text × Intervals) :=
  List.map (fun (name, pattern) => (String.toList name, ⟨Text.words (String.toList pattern)⟩)) [
  ("MAJ", "1 3 5"),
  ("MAJ6", "1 3 5 6"),
  ("MAJ7", "1 3 5 7"),
  ("MAJ9", "1 3 5 7 9"),
  ("ADD9", "1 3 5 9"),
  ("MAJ6%9", "1 3 5 6 9"),
  ("MAJ7%6", "1 3 5 6 7"),
  ("MAJ13", "1 3 5 7 9 13"),
  ("MIN", "1 b3 5"),
  ("MIN6", "1 b3 5 6"),
  ("MIN7", "1 b3 5 b7"),
  ("MIN9", "1 b3 5 b7 9"),
  ("MIN11", "1 b3 5 b7 9 11"),
  ("MIN7%11", "1 b3 5 b7 11"),
  ("MINADD9", "1 b3 5 9"),
  ("MIN6%9", "1 b3 5 6"),
  ("MINMAJ7", "1 b3 5 7"),
  ("MINMAJ9", "1 b3 5 7 9"),
  ("DOM7", "1 3 5 b7"),
  ("DOM7%6", "1 3 5 6 b7"),
  ("DOM7%11", "1 3 5 b7 11"),
  ("DOM7SUS", "1 4 5 b7"),
  ("DOM7%6SUS", "1 4 5 6 b7"),
  ("DOM9", "1 3 5 b7 9"),
  ("DOM11", "1 3 5 b7 9 11"),
  ("DOM13", "1 3 5 b7 9 13"),
  ("DOM13SUS", "1 3 5 b7 11 13"),
  ("DOM7%6%11", "1 3 5 b7 9 11 13"),
  ("AUG", "1 3 #5"),
  ("AUG7", "1 3 #5 b7"),
  ("DIM", "1 b3 b5"),
  ("DIM7", "1 b3 b5 6"),
  ("SUS4", "1 4 5"),
  ("SUS2", "1 2 5")]

def standard : ChordTable := shapes.foldl (fun t e => t.put e.1 e.2) ⟨[]⟩

/-- Adds or replaces a shape; an unreadable pattern leaves the table as it was. -/
def add (t : ChordTable) (name pattern : Text) : Except Error ChordTable := do
  let shape ← Intervals.ofText pattern
  return t.put (Text.upper name) shape

/-- Whether the table has a name, in upper case. -/
def contains (t : ChordTable) (name : Text) : Bool := t.entries.any fun e => e.1 == Text.upper name

def remove (t : ChordTable) (name : Text) : ChordTable := t.without (Text.upper name)

def intervals? (t : ChordTable) (name : Text) : Option Intervals := t.entries.lookup name

/-- The first name of a shape. -/
def nameOf? (t : ChordTable) (shape : Intervals) : Option Text :=
  (t.entries.find? fun e => e.2 == shape).map Prod.fst

/-- The longest name that a text starts with. -/
def matchStart? (t : ChordTable) (text : Text) : Option (Text × Intervals) :=
  t.entries.find? fun e => e.1.isPrefixOf text

def names (t : ChordTable) : List Text := t.entries.map Prod.fst

/-- Plainer names for some shapes. -/
def plainName (name : Text) : Text :=
  if name = "MAJ6%9".toList then "6/9".toList
  else if name = "MAJ7%6".toList then "7/6".toList
  else name

end ChordTable

end ScoreText
