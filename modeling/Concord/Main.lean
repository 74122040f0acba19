import Concord.Command.Program
import Concord.Command.Usage

/-! The files of the machine as surroundings of the program, and its output on the standard streams.
-/
namespace Concord.Command

def readText (path : String) : IO (Except ReadFailure String) := do
  let place := (← IO.currentDir) / path
  if ← place.isDir then return .error .isDirectory
  if !(← place.pathExists) then return .error .missing
  try
    let bytes ← IO.FS.readBinFile place
    match String.fromUTF8? bytes with
    | some text => return .ok text
    | none => return .error .notText
  catch e => return .error (.other (toString e))

def isPresent (path : String) : IO Bool := do
  ((← IO.currentDir) / path).pathExists

/-- The files below a directory that lies at most `depth` levels above them. Links are not
followed. -/
def walk (exclude : List String) : (depth : Nat) → (path relative : String) → IO (List FoundFile)
  | 0, _, _ => return []
  | depth + 1, path, relative => do
    let entries ← try ((← IO.currentDir) / path).readDir catch _ => pure #[]
    let found ← entries.toList.mapM fun e => do
      let below := path ++ "/" ++ e.fileName
      let name := if relative.isEmpty then e.fileName else relative ++ "/" ++ e.fileName
      match ← (do return some (← e.path.symlinkMetadata).type : IO _).catchExceptions
          fun _ => pure none with
      | some .dir =>
        if exclude.contains e.fileName then return [] else walk exclude depth below name
      | some .file => return [⟨below, name⟩]
      | _ => return []
    return found.flatten

def filesBelow (root : String) (exclude : List String) : IO (List FoundFile) := do
  let place := (← IO.currentDir) / root
  if ← place.isDir then walk exclude 4096 root ""
  else if ← place.pathExists then return [⟨root, ""⟩]
  else return []

def machine : IO (Access IO) := do
  let home ← IO.getEnv "HOME"
  return {
    read := readText
    present := isPresent
    filesBelow
    homeConfiguration := home.map (· ++ "/.config/contract-checkr/config.toml") }

def execute (args : List String) : IO UInt32 := do
  match Arguments.parse args with
  | .error e =>
    if e.exitCode = 0 then IO.print e.message else IO.eprint e.message
    return e.exitCode.toUInt32
  | .ok a =>
    let o ← run (← machine) a
    IO.print o.stdout
    IO.eprint o.stderr
    return o.exitCode.toUInt32

end Concord.Command

def main (args : List String) : IO UInt32 := Concord.Command.execute args
