import ScoreText.Text.Basic

/-!
Leftmost, non-overlapping matches. A recogniser looks at the text behind a place (nearest character
first) and the text from there on; `pieces` cuts a text into the characters it leaves alone and the
matches it finds, so that a stage is a map over the pieces.
-/

set_option autoImplicit false

namespace ScoreText

namespace Text

/-- What a recogniser reports: what it found and how many characters that takes. -/
structure Match (α : Type) where
  value : α
  length : Nat

inductive Piece (α : Type) where
  | kept : Char → Piece α
  | found : α → Piece α

/-- Cuts the text after skipping `skip` characters of it; `behind` is what lies before it,
reversed. -/
def piecesFrom {α : Type} (find : Text → Text → Option (Match α)) :
    Text → Nat → Text → List (Piece α)
  | _, _, [] => []
  | behind, skip + 1, c :: r => piecesFrom find (c :: behind) skip r
  | behind, 0, c :: r =>
    match find behind (c :: r) with
    | some m => .found m.value :: piecesFrom find (c :: behind) (m.length - 1) r
    | none => .kept c :: piecesFrom find (c :: behind) 0 r

def pieces {α : Type} (find : Text → Text → Option (Match α)) (s : Text) : List (Piece α) :=
  piecesFrom find [] 0 s

/-- Kept characters stay; each match becomes the text given for it. -/
def renderPieces {α : Type} (render : α → Text) : List (Piece α) → Text
  | [] => []
  | .kept c :: rest => c :: renderPieces render rest
  | .found a :: rest => render a ++ renderPieces render rest

/-- As `renderPieces`, where a match may fail; the first failure is the answer. -/
def renderPiecesOr {ε α : Type} (render : α → Except ε Text) : List (Piece α) → Except ε Text
  | [] => .ok []
  | .kept c :: rest => return c :: (← renderPiecesOr render rest)
  | .found a :: rest => do
    let head ← render a
    return head ++ (← renderPiecesOr render rest)

/-- Every match of `find` replaced by what `render` makes of it. -/
def mapMatches {α : Type} (find : Text → Text → Option (Match α)) (render : α → Text) (s : Text) :
    Text :=
  renderPieces render (pieces find s)

/-- Recognises one text. -/
def findText (key : Text) (_behind here : Text) : Option (Match Unit) :=
  if key.isPrefixOf here then some ⟨(), key.length⟩ else none

/-- Every occurrence of `key` becomes `value`, left to right and never overlapping. An empty key
occurs before every character and at the end. -/
def replaceAll (key value s : Text) : Text :=
  if key.isEmpty then value ++ s.flatMap fun c => c :: value
  else mapMatches (findText key) (fun _ => value) s

/-- The parts between occurrences of `sep`. An empty separator stands before every character and at
the end. -/
def fieldsOn (sep s : Text) : List Text :=
  if sep.isEmpty then [] :: s.map (fun c => [c]) ++ [[]]
  else
    (pieces (findText sep) s).foldr
      (fun piece parts =>
        match piece, parts with
        | .found _, _ => [] :: parts
        | .kept c, part :: rest => (c :: part) :: rest
        | .kept c, [] => [[c]])
      [[]]

/-- With nothing to find, a text stays as it is. -/
theorem mapMatches_of_find_none {α : Type} (find : Text → Text → Option (Match α))
    (render : α → Text) (s : Text) (h : ∀ behind here, find behind here = none) :
    mapMatches find render s = s := by
  have go : ∀ (behind s : Text), renderPieces render (piecesFrom find behind 0 s) = s := by
    intro behind s
    induction s generalizing behind with
    | nil => rfl
    | cons c r ih => simp [piecesFrom, h, renderPieces, ih]
  exact go [] s

end Text

end ScoreText
