import RailAtlas.CommandLine.Report
import RailAtlas.Service.SettingsText

/-!
# The program

Reads arguments and settings, answers the command on standard output, and reports failures on
standard error.
-/

open RailAtlas

/-- Settings from a file, or the standard ones. -/
def loadSettings (path : Option String) : IO (Except SettingsError Settings) := do
  match path with
  | none => return .ok .standard
  | some path =>
    match ← (IO.FS.readBinFile path).toBaseIO with
    | .error _ => return .error .unreadable
    | .ok bytes => return Settings.ofBytes bytes

/-- The wording of a failure to get settings from a file. -/
def settingsMessage : SettingsError → String
  | .unreadable => "the file cannot be read"
  | .malformed => "the file does not hold settings"
  | .invalid fault => fault.message

/-- Answer a command line. The exit code is 2 if it does not spell a command, and 1 if the command
fails. -/
def main (args : List String) : IO UInt32 := do
  match Invocation.parse? args with
  | none =>
    IO.eprintln "usage: railworld-cli [-v] [-c FILE] info|populate|view|run [OPTIONS]"
    return 2
  | some invocation =>
    match ← loadSettings invocation.settingsPath with
    | .error cause =>
      IO.eprintln s!"Error: {settingsMessage cause}"
      return 1
    | .ok settings =>
      let word ← IO.rand 0 (Nat.pow 2 64 - 1)
      match invocation.command.answer settings (.start (UInt64.ofNat word)) with
      | .error cause =>
        IO.eprintln s!"Error: {cause.message}"
        return 1
      | .ok lines =>
        for line in lines do
          IO.println line
        return 0
