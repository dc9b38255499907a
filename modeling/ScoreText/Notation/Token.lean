import ScoreText.Text.Classes

/-!
The kinds of fragments, told from how they start.
-/

set_option autoImplicit false

namespace ScoreText

inductive TokenKind where
  | voice | layer | instrument | tempo | keySignature | timeSignature | barLine | beatTime
  | bookmarkRequest | lyric | marker | call | note | blank | atom | unknown
  deriving DecidableEq, Repr

namespace TokenKind

def text : TokenKind → String
  | .voice => "Voice"
  | .layer => "Layer"
  | .instrument => "Instrument"
  | .tempo => "Tempo"
  | .keySignature => "KeySignature"
  | .timeSignature => "TimeSignature"
  | .barLine => "BarLine"
  | .beatTime => "BeatTimeBookmark"
  | .bookmarkRequest => "BeatTimeBookmarkRequest"
  | .lyric => "Lyric"
  | .marker => "Marker"
  | .call => "Function"
  | .note => "Note"
  | .blank => "Whitespace"
  | .atom => "Atom"
  | .unknown => "Unknown"

/-- The kind that a text starts like. -/
def of : Text → TokenKind
  | [] => .blank
  | '~' :: _ => .atom
  | '|' :: _ => .barLine
  | 'V' :: _ => .voice
  | 'L' :: _ => .layer
  | 'I' :: _ => .instrument
  | 'K' :: ':' :: _ => .keySignature
  | 'K' :: 'E' :: 'Y' :: ':' :: _ => .keySignature
  | 'T' :: 'I' :: 'M' :: 'E' :: ':' :: _ => .timeSignature
  | 'T' :: _ => .tempo
  | '@' :: '#' :: _ => .bookmarkRequest
  | '@' :: _ => .beatTime
  | '&' :: _ => .lyric
  | '!' :: _ => .marker
  | ':' :: _ => .call
  | 'R' :: _ => .note
  | '[' :: _ => .note
  | c :: _ =>
    if Text.isBlank c then .blank
    else if ('A' ≤ c ∧ c ≤ 'G') ∨ c.isDigit then .note
    else .unknown

end TokenKind

/-- A fragment and its kind. -/
structure Token where
  text : Text
  kind : TokenKind

def Token.classify (text : Text) : Token := ⟨text, .of text⟩

end ScoreText
