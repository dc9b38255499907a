import ScoreText.CommandLine.Basic

/-!
The program: arguments and the settings file go in, lines come out.
-/

set_option autoImplicit false

namespace ScoreText

/-- The text of the settings file in the home directory, if it can be read. -/
def settingsText : IO (Option Text) := do
  let some home ← IO.getEnv "HOME" | return none
  try
    return some (← IO.FS.readFile (home ++ "/.staccato/config.yaml")).toList
  catch _ =>
    return none

end ScoreText

def main (args : List String) : IO UInt32 := do
  let result := ScoreText.CommandLine.run Float (args.map String.toList) (← ScoreText.settingsText)
  for line in result.out do
    IO.println (String.ofList line)
  if result.code = 2 then
    IO.eprintln "usage: staccato [--strict] [-v] dump|tokens NOTATION"
  match result.failure with
  | some message => IO.eprintln (String.ofList message)
  | none => pure ()
  return result.code.toUInt32
