import Concord.Language
import Concord.Number.Natural
import Concord.Rule

/-! Arguments are read from left to right. The value of an option is examined only when the next
option or path has been recognised, so an argument that is not known is reported first. -/
namespace Concord.Command

inductive ReportFormat
  | terminal
  | json
  deriving DecidableEq, Repr, Inhabited

namespace ReportFormat

def key : ReportFormat → String
  | .terminal => "terminal"
  | .json => "json"

def ofKey? (key : String) : Option ReportFormat := [terminal, json].find? (·.key == key)

end ReportFormat

structure Arguments where
  path : String
  manifest : Option String
  rule : Option Rule
  config : Option String
  report : ReportFormat
  excludeLanguages : List Language
  jobs : Option Nat
  verbose : Bool
  quiet : Bool
  deriving DecidableEq, Repr

/-- Why arguments are not followed. Help and version are asked for, all else is a mistake. -/
inductive ArgumentError
  | valueValidation
  | invalidValue
  | unknownArgument
  | argumentConflict
  | tooManyValues
  | displayHelp
  | displayVersion
  deriving DecidableEq, Repr

def ArgumentError.exitCode : ArgumentError → Nat
  | .displayHelp => 0
  | .displayVersion => 0
  | _ => 2

inductive ValueOption
  | manifest
  | rule
  | config
  | report
  | excludeLanguage
  | jobs
  deriving DecidableEq, Repr

def ValueOption.ofName? : String → Option ValueOption
  | "manifest" => some .manifest
  | "rule" => some .rule
  | "config" => some .config
  | "report" => some .report
  | "exclude-lang" => some .excludeLanguage
  | "jobs" => some .jobs
  | _ => none

inductive Flag
  | verbose
  | quiet
  | help
  | version
  deriving DecidableEq, Repr

namespace Flag

def ofName? : String → Option Flag
  | "verbose" => some .verbose
  | "quiet" => some .quiet
  | "help" => some .help
  | "version" => some .version
  | _ => none

def ofLetter? : Char → Option Flag
  | 'v' => some .verbose
  | 'q' => some .quiet
  | 'h' => some .help
  | 'V' => some .version
  | _ => none

end Flag

structure Given where
  path : Option String
  manifest : Option String
  rule : Option Rule
  config : Option String
  report : Option ReportFormat
  excludeLanguages : List Language
  jobs : Option Nat
  verbose : Bool
  quiet : Bool

inductive Pending
  | path (value : String)
  | option (o : ValueOption) (value : Option String)

namespace Given

def nothing : Given := ⟨none, none, none, none, none, [], none, false, false⟩

def nonempty (value : String) : Except ArgumentError String :=
  if value.isEmpty then .error .invalidValue else .ok value

def once {α : Type} (before : Option α) (value : Except ArgumentError α) : Except ArgumentError (Option α) :=
  if before.isSome then .error .argumentConflict else value.map some

def orElse {α : Type} (e : ArgumentError) (value : Option α) : Except ArgumentError α :=
  match value with
  | some a => .ok a
  | none => .error e

def record (g : Given) (o : ValueOption) (value : String) : Except ArgumentError Given :=
  match o with
  | .manifest => (once g.manifest (nonempty value)).map fun manifest => { g with manifest }
  | .config => (once g.config (nonempty value)).map fun config => { g with config }
  | .rule =>
    (once g.rule (orElse .valueValidation (Rule.ofId? value))).map fun rule => { g with rule }
  | .report =>
    (once g.report (orElse .invalidValue (ReportFormat.ofKey? value))).map fun report =>
      { g with report }
  | .excludeLanguage =>
    (orElse .invalidValue (Language.ofKey? value)).map fun l =>
      { g with excludeLanguages := g.excludeLanguages ++ [l] }
  | .jobs =>
    let jobs := readNat? (Nat.pow 2 64 - 1) value.toList
    (once g.jobs (orElse .valueValidation jobs)).map fun jobs => { g with jobs }

def raise (g : Given) : Flag → Except ArgumentError Given
  | .verbose => if g.verbose then .error .argumentConflict else .ok { g with verbose := true }
  | .quiet => if g.quiet then .error .argumentConflict else .ok { g with quiet := true }
  | .help => .error .displayHelp
  | .version => .error .displayVersion

def settle (g : Given) : Option Pending → Except ArgumentError Given
  | none => .ok g
  | some (.path value) => (nonempty value).map fun path => { g with path := some path }
  | some (.option _ none) => .error .invalidValue
  | some (.option o (some value)) => g.record o value

def raiseAll (g : Given) (pending : Option Pending) : List Char → Except ArgumentError Given
  | [] => g.settle pending
  | c :: rest =>
    match Flag.ofLetter? c with
    | none => .error .unknownArgument
    | some flag => do
      let g ← g.settle pending
      let g ← g.raise flag
      g.raiseAll none rest

def finish (g : Given) : Except ArgumentError Arguments :=
  if g.verbose && g.quiet then .error .argumentConflict
  else .ok {
    path := g.path.getD "."
    manifest := g.manifest
    rule := g.rule
    config := g.config
    report := g.report.getD .terminal
    excludeLanguages := g.excludeLanguages
    jobs := g.jobs
    verbose := g.verbose
    quiet := g.quiet }

end Given

inductive Form
  /-- `--`: all that follows are paths. -/
  | divider
  | long (name : String) (value : Option String)
  | short (letters : List Char)
  | plain

def Form.of (argument : String) : Form :=
  match argument.toList with
  | ['-', '-'] => .divider
  | '-' :: '-' :: rest =>
    match Text.cutWhere? (· == '=') rest with
    | some (name, value) => .long (String.ofList name) (some (String.ofList value))
    | none => .long (String.ofList rest) none
  | '-' :: c :: rest => .short (c :: rest)
  | _ => .plain

def takePath (g : Given) (pending : Option Pending) (value : String) :
    Except ArgumentError (Given × Option Pending) :=
  let taken := g.path.isSome || match pending with
    | some (.path _) => true
    | _ => false
  if taken then .error .unknownArgument
  else (g.settle pending).map (·, some (.path value))

def takeLong (g : Given) (pending : Option Pending) (name : String) (value : Option String) :
    Except ArgumentError (Given × Option Pending) :=
  match ValueOption.ofName? name with
  | some o => do
    let g ← g.settle pending
    match value with
    | some value => (g.record o value).map (·, none)
    | none => .ok (g, some (.option o none))
  | none =>
    match Flag.ofName? name, value with
    | none, _ => .error .unknownArgument
    | some _, some _ => .error .tooManyValues
    | some flag, none => do
      let g ← g.settle pending
      (g.raise flag).map (·, none)

/-- Takes in the arguments one after the other; `onlyPaths` holds after the divider. -/
def takeAll (g : Given) (pending : Option Pending) (onlyPaths : Bool) :
    List String → Except ArgumentError Given
  | [] => g.settle pending
  | a :: rest =>
    if onlyPaths then do
      let (g, pending) ← takePath g pending a
      takeAll g pending true rest
    else
      match Form.of a with
      | .divider => takeAll g pending true rest
      | .long name value => do
        let (g, pending) ← takeLong g pending name value
        takeAll g pending false rest
      | .short letters => do
        let g ← g.raiseAll pending letters
        takeAll g none false rest
      | .plain =>
        match pending with
        | some (.option o none) => takeAll g (some (.option o (some a))) false rest
        | pending => do
          let (g, pending) ← takePath g pending a
          takeAll g pending false rest

def Arguments.parse (args : List String) : Except ArgumentError Arguments := do
  let g ← takeAll .nothing none false args
  g.finish

end Concord.Command
