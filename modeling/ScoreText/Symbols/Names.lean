import ScoreText.Text.Basic

/-!
The names that every notation may use: programs, percussion notes, tempos and controllers.
-/

set_option autoImplicit false

namespace ScoreText

namespace Symbols

/-- The track whose notes are percussion. -/
def percussionTrack : Nat := 9

/-- Program names, by program number. -/
def instrumentNames : List Text := List.map String.toList [
  "PIANO", "BRIGHT_ACOUSTIC", "ELECTRIC_GRAND", "HONKEY_TONK", "ELECTRIC_PIANO", "ELECTRIC_PIANO_2",
  "HARPSICHORD", "CLAVINET", "CELESTA", "GLOCKENSPIEL", "MUSIC_BOX", "VIBRAPHONE", "MARIMBA",
  "XYLOPHONE", "TUBULAR_BELLS", "DULCIMER", "DRAWBAR_ORGAN", "PERCUSSIVE_ORGAN", "ROCK_ORGAN",
  "CHURCH_ORGAN", "REED_ORGAN", "ACCORDIAN", "HARMONICA", "TANGO_ACCORDIAN", "GUITAR",
  "STEEL_STRING_GUITAR", "ELECTRIC_JAZZ_GUITAR", "ELECTRIC_CLEAN_GUITAR", "ELECTRIC_MUTED_GUITAR",
  "OVERDRIVEN_GUITAR", "DISTORTION_GUITAR", "GUITAR_HARMONICS", "ACOUSTIC_BASS",
  "ELECTRIC_BASS_FINGER", "ELECTRIC_BASS_PICK", "FRETLESS_BASS", "SLAP_BASS_1", "SLAP_BASS_2",
  "SYNTH_BASS_1", "SYNTH_BASS_2", "VIOLIN", "VIOLA", "CELLO", "CONTRABASS", "TREMOLO_STRINGS",
  "PIZZICATO_STRINGS", "ORCHESTRAL_STRINGS", "TIMPANI", "STRING_ENSEMBLE_1", "STRING_ENSEMBLE_2",
  "SYNTH_STRINGS_1", "SYNTH_STRINGS_2", "CHOIR_AAHS", "VOICE_OOHS", "SYNTH_VOICE", "ORCHESTRA_HIT",
  "TRUMPET", "TROMBONE", "TUBA", "MUTED_TRUMPET", "FRENCH_HORN", "BRASS_SECTION", "SYNTHBRASS_1",
  "SYNTHBRASS_2", "SOPRANO_SAX", "ALTO_SAX", "TENOR_SAX", "BARITONE_SAX", "OBOE", "ENGLISH_HORN",
  "BASSOON", "CLARINET", "PICCOLO", "FLUTE", "RECORDER", "PAN_FLUTE", "BLOWN_BOTTLE", "SKAKUHACHI",
  "WHISTLE", "OCARINA", "SQUARE", "SAWTOOTH", "CALLIOPE", "CHIFF", "CHARANG", "VOICE", "FIFTHS",
  "BASSLEAD", "NEW_AGE", "WARM", "POLYSYNTH", "CHOIR", "BOWED", "METALLIC", "HALO", "SWEEP", "RAIN",
  "SOUNDTRACK", "CRYSTAL", "ATMOSPHERE", "BRIGHTNESS", "GOBLIN", "ECHOES", "SCI-FI", "SITAR",
  "BANJO", "SHAMISEN", "KOTO", "KALIMBA", "BAGPIPE", "FIDDLE", "SHANAI", "TINKLE_BELL", "AGOGO",
  "STEEL_DRUMS", "WOODBLOCK", "TAIKO_DRUM", "MELODIC_TOM", "SYNTH_DRUM", "REVERSE_CYMBAL",
  "GUITAR_FRET_NOISE", "BREATH_NOISE", "SEASHORE", "BIRD_TWEET", "TELEPHONE_RING", "HELICOPTER",
  "APPLAUSE", "GUNSHOT"]

/-- Other spellings of some programs. -/
def instrumentAliases : List (Text × Int) := List.map (fun (n, v) => (String.toList n, v)) [
  ("ACOUSTIC_GRAND", 0), ("BRIGHT_ACOUSTIC_PIANO", 1), ("ELECTRIC_GRAND_PIANO", 2),
  ("HONKY_TONK", 3), ("NYLON_STRING_GUITAR", 24), ("ELECTRIC_BASS", 33), ("STRINGS", 48),
  ("SYNTH_CALLIOPE", 82), ("SYNTH_CHARANG", 84)]

/-- The lowest note with a percussion name. -/
def lowestPercussion : Nat := 35

/-- Percussion names, from the lowest note upwards. -/
def percussionNames : List Text := List.map String.toList [
  "ACOUSTIC_BASS_DRUM", "BASS_DRUM", "SIDE_STICK", "ACOUSTIC_SNARE", "HAND_CLAP", "ELECTRIC_SNARE",
  "LO_FLOOR_TOM", "CLOSED_HI_HAT", "HIGH_FLOOR_TOM", "PEDAL_HI_HAT", "LO_TOM", "OPEN_HI_HAT",
  "LO_MID_TOM", "HI_MID_TOM", "CRASH_CYMBAL_1", "HI_TOM", "RIDE_CYMBAL_1", "CHINESE_CYMBAL",
  "RIDE_BELL", "TAMBOURINE", "SPLASH_CYMBAL", "COWBELL", "CRASH_CYMBAL_2", "VIBRASLAP",
  "RIDE_CYMBAL_2", "HI_BONGO", "LO_BONGO", "MUTE_HI_CONGA", "OPEN_HI_CONGA", "LO_CONGA",
  "HI_TIMBALE", "LO_TIMBALE", "HI_AGOGO", "LO_AGOGO", "CABASA", "MARACAS", "SHORT_WHISTLE",
  "LONG_WHISTLE", "SHORT_GUIRO", "LONG_GUIRO", "CLAVES", "HI_WOOD_BLOCK", "LO_WOOD_BLOCK",
  "MUTE_CUICA", "OPEN_CUICA", "MUTE_TRIANGLE", "OPEN_TRIANGLE"]

/-- Named tempos in beats a minute. -/
def tempoNames : List (Text × Int) := List.map (fun (n, v) => (String.toList n, v)) [
  ("GRAVE", 40), ("LARGO", 45), ("LARGHETTO", 50), ("LENTO", 55), ("ADAGIO", 60), ("ADAGIETTO", 65),
  ("ANDANTE", 70), ("ANDANTINO", 80), ("MODERATO", 95), ("ALLEGRETTO", 110), ("ALLEGRO", 120),
  ("VIVACE", 145), ("PRESTO", 180), ("PRESTISSIMO", 220)]

/-- Controllers and their values. A number above 127 stands for a pair: the coarse controller times
128, plus the fine one. -/
def controllerNames : List (Text × Int) := List.map (fun (n, v) => (String.toList n, v)) [
  ("BANK_SELECT_COARSE", 0), ("MOD_WHEEL_COARSE", 1), ("BREATH_COARSE", 2),
  ("FOOT_PEDAL_COARSE", 4), ("PORTAMENTO_TIME_COARSE", 5), ("DATA_ENTRY_COARSE", 6),
  ("VOLUME_COARSE", 7), ("BALANCE_COARSE", 8), ("PAN_POSITION_COARSE", 10),
  ("EXPRESSION_COARSE", 11), ("EFFECT_CONTROL_1_COARSE", 12), ("EFFECT_CONTROL_2_COARSE", 13),
  ("BANK_SELECT_FINE", 32), ("MOD_WHEEL_FINE", 33), ("BREATH_FINE", 34), ("FOOT_PEDAL_FINE", 36),
  ("PORTAMENTO_TIME_FINE", 37), ("DATA_ENTRY_FINE", 38), ("VOLUME_FINE", 39), ("BALANCE_FINE", 40),
  ("PAN_POSITION_FINE", 42), ("EXPRESSION_FINE", 43), ("EFFECT_CONTROL_1_FINE", 44),
  ("EFFECT_CONTROL_2_FINE", 45), ("HOLD_PEDAL", 64), ("HOLD", 64), ("PORTAMENTO", 65),
  ("SUSTENUTO_PEDAL", 66), ("SUSTENUTO", 66), ("SOFT_PEDAL", 67), ("SOFT", 67),
  ("LEGATO_PEDAL", 68), ("LEGATO", 68), ("HOLD_2_PEDAL", 69), ("HOLD_2", 69),
  ("SOUND_VARIATION", 70), ("VARIATION", 70), ("SOUND_TIMBRE", 71), ("TIMBRE", 71),
  ("SOUND_RELEASE_TIME", 72), ("RELEASE_TIME", 72), ("SOUND_ATTACK_TIME", 73), ("ATTACK_TIME", 73),
  ("SOUND_BRIGHTNESS", 74), ("BRIGHTNESS_CONTROL", 74), ("EFFECTS_LEVEL", 91),
  ("TREMULO_LEVEL", 92), ("CHORUS_LEVEL", 93), ("CELESTE_LEVEL", 94), ("PHASER_LEVEL", 95),
  ("DATA_BUTTON_INCREMENT", 96), ("DATA_BUTTON_DECREMENT", 97), ("ALL_SOUND_OFF", 120),
  ("RESET_ALL_CONTROLLERS", 121), ("LOCAL_CONTROL", 122), ("ALL_NOTES_OFF", 123),
  ("OMNI_MODE_OFF", 124), ("OMNI_MODE_ON", 125), ("MONO_OPERATION", 126), ("POLY_OPERATION", 127),
  ("MOD_WHEEL", 161), ("BREATH", 290), ("FOOT_PEDAL", 548), ("PORTAMENTO_TIME", 677),
  ("DATA_ENTRY", 806), ("VOLUME", 935), ("BALANCE", 1064), ("PAN_POSITION", 1322),
  ("EXPRESSION", 1451), ("ON", 127), ("OFF", 0), ("DEFAULT", 64)]

/-- The name of a percussion note. -/
def percussionName? (note : Nat) : Option Text :=
  if note < lowestPercussion then none else percussionNames[note - lowestPercussion]?

end Symbols

end ScoreText
