import Concord.Check
import Concord.Command.Arguments
import Concord.Report.Document
import Concord.Report.Terminal

/-! From arguments and files to what is printed and the status at the end: zero if all is well, one
if there are violations or the configuration is refused, two if the manifest is. -/
namespace Concord.Command

structure Output where
  exitCode : Nat
  stdout : String
  stderr : String
  deriving DecidableEq, Repr

def projectConfiguration (root : String) : String := root ++ "/.contract-checkr/config.toml"

inductive ConfigurationFailure
  | unreadable (path : String) (e : ReadFailure)
  | refused (path : String) (e : ConfigurationError)
  deriving DecidableEq, Repr

def ConfigurationFailure.message : ConfigurationFailure → String
  | .unreadable path e => s!"failed to read config {path}: {e.message}"
  | .refused path .malformed => s!"failed to parse config {path}"
  | .refused _ e => e.message

section

variable {m : Type → Type} [Monad m]

def readConfiguration (files : Access m) (path : String) :
    m (Except ConfigurationFailure Configuration) := do
  match ← files.read path with
  | .error e => return .error (.unreadable path e)
  | .ok text =>
    match Configuration.parse text with
    | .error e => return .error (.refused path e)
    | .ok c => return .ok c

/-- Finds the configuration: the one that is named, that of the project, that of the user, or the
standard one. -/
def loadConfiguration (files : Access m) (a : Arguments) :
    m (Except ConfigurationFailure Configuration) := do
  match a.config with
  | some path => readConfiguration files path
  | none =>
    let own := projectConfiguration a.path
    if ← files.present own then readConfiguration files own
    else
      match files.homeConfiguration with
      | none => return .ok Configuration.standard
      | some home =>
        if ← files.present home then readConfiguration files home
        else return .ok Configuration.standard

def unlines (lines : List String) : String := String.join (lines.map (· ++ "\n"))

def render (a : Arguments) (r : Report) : String :=
  match a.report with
  | .terminal => unlines (r.lines a.verbose)
  | .json => unlines [r.toJson.pretty]

/-- Runs the program. Without a manifest there is nothing to check. -/
def run (files : Access m) (a : Arguments) : m Output := do
  match a.manifest with
  | none => return ⟨0, "", ""⟩
  | some manifest =>
    match ← loadConfiguration files a with
    | .error e => return ⟨1, "", unlines ["Error: " ++ e.message]⟩
    | .ok c =>
      match ← check files c ⟨a.path, manifest, a.rule, a.excludeLanguages, a.jobs⟩ with
      | .error (.manifest e) => return ⟨2, "", unlines ["error: " ++ e.message]⟩
      | .error e => return ⟨1, "", unlines ["Error: " ++ e.message]⟩
      | .ok r => return ⟨if r.hasViolations then 1 else 0, render a r, ""⟩

end

end Concord.Command
