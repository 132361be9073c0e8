import Polyphony.CommandLine.Program

/-! # The executable

The files are those of the system, and the settings are looked for in the home folder.
-/
namespace Polyphony.CommandLine

def FileError.ofSystem : IO.Error → FileError
  | .noFileOrDirectory _ _ _ => .notFound
  | .alreadyExists _ _ _ => .alreadyThere
  | .inappropriateType _ _ details =>
    if details = "Is a directory" then .isFolder else .notFolder
  | .permissionDenied _ code details => .system details code.toNat
  | e => .system (toString e) 0

def attempt (action : IO α) : IO (Except FileError α) := do
  try return .ok (← action)
  catch e => return .error (.ofSystem e)

def Files.system : Files IO where
  read path := attempt (IO.FS.readBinFile path)
  makeFolder path := attempt (IO.FS.createDir path)
  isFolder path := do
    match ← attempt (IO.FS.realPath path) with
    | .ok place => place.isDir
    | .error _ => return false
  put path bytes := attempt (IO.FS.writeBinFile path bytes)

end Polyphony.CommandLine

def main (args : List String) : IO UInt32 := do
  let home := (← IO.getEnv "HOME").getD "."
  let answer ← Polyphony.CommandLine.Program.run Polyphony.CommandLine.Files.system home args
  IO.print answer.output
  IO.eprint answer.errors
  return answer.code.toUInt32
