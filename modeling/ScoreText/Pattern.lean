import ScoreText.Event
import ScoreText.Notation.Token
import ScoreText.Theory.Meter

/-!
Patterns are lists of fragments. A writer turns events back into a pattern.
-/

set_option autoImplicit false

namespace ScoreText

structure Pattern where
  fragments : List Text := []
  deriving DecidableEq

namespace Pattern

/-- The fragments of a text, cut at white space. -/
def ofText (text : Text) : Pattern := ⟨Text.words text⟩

def text (p : Pattern) : Text := Text.join [' '] p.fragments

def append (p q : Pattern) : Pattern := ⟨p.fragments ++ q.fragments⟩

def add (p : Pattern) (text : Text) : Pattern := p.append (ofText text)

/-- So many copies of a pattern at the end. -/
def repeated (p q : Pattern) : Nat → Pattern
  | 0 => p
  | n + 1 => (p.append q).repeated q n

/-- Fragments put in front. -/
def inFront (p : Pattern) (text : Text) : Pattern := (ofText text).append p

def withVoice (p : Pattern) (voice : Nat) : Pattern := p.inFront ('V' :: Text.ofNat voice)

def withInstrument (p : Pattern) (name : Text) : Pattern := p.inFront ("I[".toList ++ name ++ [']'])

def withTempo (p : Pattern) (bpm : Nat) : Pattern := p.inFront ('T' :: Text.ofNat bpm)

def tokens (p : Pattern) : List Token := p.fragments.map Token.classify

def push (p : Pattern) (fragment : Text) : Pattern := ⟨p.fragments ++ [fragment]⟩

/-- Text added to the last fragment, or a fragment of its own where there is none. -/
def extend (p : Pattern) (joint : Char) (text : Text) : Pattern :=
  match p.fragments.getLast? with
  | some last => ⟨p.fragments.dropLast ++ [last ++ joint :: text]⟩
  | none => p.push text

end Pattern

/-- Writes events as notation, knowing the track it is on. -/
structure Writer where
  pattern : Pattern := {}
  track : Nat := 0

namespace Writer

variable {R : Type} [Scalar R]

/-- A sign and a text, which stands in parentheses when it holds white space. -/
def captionText (sign : Char) (text : Text) : Text :=
  if text.any Text.isBlank then [sign, '('] ++ text ++ [')'] else sign :: text

def instrumentText (program : Nat) : Text :=
  match Symbols.instrumentNames[program]? with
  | some name => "I[".toList ++ name ++ [']']
  | none => 'I' :: Text.ofNat program

def callText (name : Text) (params : List Text) : Text :=
  [':'] ++ name ++ ['('] ++ Text.join [','] params ++ [')']

/-- The fragment of an event that is neither a note nor a chord; some events are not written. A
marker carries its bookmark, which is not written again. -/
def fragment? : Event R → Option Text
  | .track n => some ('V' :: Text.ofNat n)
  | .layer n => some ('L' :: Text.ofNat n)
  | .instrument n => some (instrumentText n)
  | .tempo n => some ('T' :: Text.ofNat n)
  | .keySignature fifths mode => some ("KEY:".toList ++ (Key.ofSignature fifths mode).text)
  | .timeSignature beats power => some ("TIME:".toList ++ (Meter.ofPower beats power).text)
  | .barLine n => some ('|' :: if n = 0 then [] else Text.ofNat n)
  | .bookmarkRequest name => some ("@#".toList ++ name)
  | .timeRequest time => some ('@' :: Scalar.text time)
  | .pitchWheel low high => some (callText ['P', 'W'] [Text.ofNat (Event.wheelValue low high)])
  | .channelPressure p => some (callText ['C', 'P'] [Text.ofNat p])
  | .polyPressure key p => some (callText ['P', 'P'] [Text.ofNat key, Text.ofNat p])
  | .systemExclusive bytes => some (callText ['S', 'X'] (bytes.map fun b => Text.ofNat b.toNat))
  | .controller number value => some (callText ['C', 'E'] [Text.ofNat number, Text.ofNat value])
  | .lyric text => some (captionText '&' text)
  | .marker text => some (captionText '!' text)
  | .call name params => some (callText name [params])
  | _ => none

/-- A note or chord, joined to the last fragment as its lead note says. -/
def writeNote (w : Writer) (text : Text) (lead : Note R) : Writer :=
  if lead.isHarmonic then { w with pattern := w.pattern.extend '+' text }
  else if lead.isMelodic then { w with pattern := w.pattern.extend '_' text }
  else { w with pattern := w.pattern.push text }

def noteText (w : Writer) (n : Note R) : Text :=
  if w.track = Symbols.percussionTrack then n.percussionText else n.text

def hear (w : Writer) (event : Event R) : Writer :=
  match event with
  | .note n => w.writeNote (w.noteText n) n
  | .chord c => w.writeNote c.text c.root
  | _ =>
    let w := match event with
      | .track n => { w with track := n }
      | _ => w
    match fragment? event with
    | some f => { w with pattern := w.pattern.push f }
    | none => w

end Writer

end ScoreText
