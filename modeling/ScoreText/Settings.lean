import ScoreText.Error
import ScoreText.Number.Scalar
import ScoreText.Theory.Tone

/-!
Settings for reading notation and for playing it, and which of them are sound.
-/

set_option autoImplicit false

namespace ScoreText

/-- What a note takes that does not spell it out. -/
structure NoteSettings (R : Type) where
  octave : Nat
  /-- The octave of a chord root written without one. -/
  chordOctave : Nat
  length : R
  attack : Nat
  decay : Nat
  /-- Whether bare note letters follow the key in force. -/
  followsKey : Bool

structure ReadingSettings (R : Type) where
  /-- Whether a fragment that nothing claims is an error. -/
  strict : Bool
  notes : NoteSettings R

structure PlayingSettings where
  deviceName : Option Text
  inputDevice : Option Text
  /-- The only input channel heard; without one, all are. -/
  channelFilter : Option Nat
  /-- Ticks in a quarter note. -/
  resolution : Nat
  /-- Beats a minute. -/
  tempo : Nat

structure Settings (R : Type) where
  reading : ReadingSettings R
  playing : PlayingSettings

def defaultResolution : Nat := 128

def defaultTempo : Nat := 120

def NoteSettings.standard {R : Type} [Scalar R] : NoteSettings R where
  octave := 5
  chordOctave := 4
  length := ((1 : Nat) : R) / ((4 : Nat) : R)
  attack := 64
  decay := 64
  followsKey := true

def ReadingSettings.standard {R : Type} [Scalar R] : ReadingSettings R where
  strict := false
  notes := .standard

def PlayingSettings.standard : PlayingSettings where
  deviceName := none
  inputDevice := none
  channelFilter := none
  resolution := defaultResolution
  tempo := defaultTempo

def Settings.standard {R : Type} [Scalar R] : Settings R := ⟨.standard, .standard⟩

/-- The first fault of the settings. -/
def Settings.fault? {R : Type} (s : Settings R) : Option SettingFault :=
  if s.playing.resolution = 0 then some .resolution
  else if s.playing.tempo = 0 then some .tempo
  else if s.playing.channelFilter.any (15 < ·) then some .channelFilter
  else if maxData < s.reading.notes.attack ∨ maxData < s.reading.notes.decay then some .velocities
  else if 10 < s.reading.notes.octave ∨ 10 < s.reading.notes.chordOctave then some .octaves
  else none

end ScoreText
