import ScoreText.Settings
import ScoreText.Yaml.Document

/-!
Reading settings from a document. What is not written keeps its default and unknown keys do not
count, but a key that recurs, or a value of the wrong kind, makes the document unreadable.
-/

set_option autoImplicit false

namespace ScoreText

variable {R : Type} [Scalar R]

def NoteSettings.ofYaml? (node : Yaml.Node) : Option (NoteSettings R) := do
  let entries ← node.entries?
  let usual : NoteSettings R := .standard
  return {
    octave := ← Yaml.valueOr entries "default_octave" Yaml.Node.byte? usual.octave
    chordOctave :=
      ← Yaml.valueOr entries "default_chord_octave" Yaml.Node.byte? usual.chordOctave
    length := ← Yaml.valueOr entries "default_duration" Yaml.Node.number? usual.length
    attack := ← Yaml.valueOr entries "default_on_velocity" Yaml.Node.byte? usual.attack
    decay := ← Yaml.valueOr entries "default_off_velocity" Yaml.Node.byte? usual.decay
    followsKey := ← Yaml.valueOr entries "adjust_for_key" Yaml.Node.bool? usual.followsKey }

def ReadingSettings.ofYaml? (node : Yaml.Node) : Option (ReadingSettings R) := do
  let entries ← node.entries?
  return {
    strict := ← Yaml.valueOr entries "strict" Yaml.Node.bool? false
    notes := ← Yaml.valueOr entries "notes" NoteSettings.ofYaml? .standard }

def PlayingSettings.ofYaml? (node : Yaml.Node) : Option PlayingSettings := do
  let entries ← node.entries?
  let usual := PlayingSettings.standard
  let name := Yaml.Node.optional? Yaml.Node.text?
  return {
    deviceName := ← Yaml.valueOr entries "device_name" name usual.deviceName
    inputDevice := ← Yaml.valueOr entries "input_device" name usual.inputDevice
    channelFilter :=
      ← Yaml.valueOr entries "channel_filter" (Yaml.Node.optional? Yaml.Node.byte?)
        usual.channelFilter
    resolution := ← Yaml.valueOr entries "resolution" Yaml.Node.word? usual.resolution
    tempo := ← Yaml.valueOr entries "tempo" Yaml.Node.word? usual.tempo }

def Settings.ofYaml? (node : Yaml.Node) : Option (Settings R) := do
  let entries ← node.entries?
  return {
    reading := ← Yaml.valueOr entries "parser" ReadingSettings.ofYaml? .standard
    playing := ← Yaml.valueOr entries "player" PlayingSettings.ofYaml? .standard }

/-- Why settings cannot be used. -/
inductive SettingsError where
  | unreadable
  | unsound (fault : SettingFault)
  deriving DecidableEq, Repr

/-- The settings that a text gives, if they are sound. -/
def Settings.ofText (text : Text) : Except SettingsError (Settings R) :=
  match (Yaml.ofText? text).bind Settings.ofYaml? with
  | none => .error .unreadable
  | some settings =>
    match settings.fault? with
    | some fault => .error (.unsound fault)
    | none => .ok settings

/-- The settings of a text, or the standard ones where there is no text or it cannot be used. -/
def Settings.ofTextOrStandard (text : Option Text) : Settings R :=
  match text.map Settings.ofText with
  | some (.ok settings) => settings
  | _ => .standard

end ScoreText
