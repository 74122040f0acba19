import Concord.Rule
import Concord.Toml.Document

/-! Limits of a run, the directories of services, and what to do with the violations of each rule.
-/
namespace Concord

open Toml (Value)

inductive RuleAction
  | error
  | warn
  | off
  deriving DecidableEq, Repr, Inhabited

namespace RuleAction

def key : RuleAction → String
  | .error => "error"
  | .warn => "warn"
  | .off => "off"

def ofKey? (key : String) : Option RuleAction := [error, warn, off].find? (·.key == key)

/-- An action by its name, or as the one entry of a table that holds nothing. -/
def ofValue? : Value → Option RuleAction
  | .string name => ofKey? name
  | .table [(name, v)] => if v.isEmpty then ofKey? name else none
  | _ => none

def apply : RuleAction → Option Severity
  | .error => some .error
  | .warn => some .warning
  | .off => none

end RuleAction

structure Configuration where
  /-- How deep references of the manifest and types of the code are followed. -/
  maxDepth : Nat
  /-- How many files are read at a time; zero leaves it to the machine. -/
  jobs : Nat
  exclude : List String
  services : List (String × String)
  rules : List (String × RuleAction)
  deriving Repr

inductive ConfigurationError
  | malformed
  | unknownRule (id : String)
  deriving DecidableEq, Repr

namespace Configuration

def standardExclude : List String :=
  ["node_modules", "target", "vendor", "dist", "build", ".git", ".venv", "__pycache__"]

def standard : Configuration := ⟨8, 0, standardExclude, [], []⟩

def field {α : Type} (read : Value → Option α) (otherwise : α) : Option Value → Option α
  | none => some otherwise
  | some v => read v

/-- The limits of a run, as a table or as an array in the order of the fields. -/
def withLimits (c : Configuration) (v : Value) : Option Configuration := do
  let (maxDepth, jobs, exclude) ← match v with
    | .array items => some (items[0]?, items[1]?, items[2]?)
    | v => v.entries?.map fun es =>
        (es.lookup "max_depth", es.lookup "jobs", es.lookup "exclude")
  let maxDepth ← field Value.count? c.maxDepth maxDepth
  let jobs ← field Value.count? c.jobs jobs
  let exclude ← field Value.strings? c.exclude exclude
  some { c with maxDepth, jobs, exclude }

def tableOf {α : Type} (read : Value → Option α) (v : Value) : Option (List (String × α)) :=
  v.entries?.bind fun es => es.mapM fun e => (read e.2).map (e.1, ·)

/-- Takes the settings from the entries of a document. Unknown ones are passed over. -/
def ofEntries? (es : List (String × Value)) : Option Configuration := do
  let c ← field (withLimits standard) standard (es.lookup "engine")
  let services ← field (tableOf Value.string?) [] (es.lookup "services")
  let rules ← field (tableOf RuleAction.ofValue?) [] (es.lookup "rules")
  some { c with services, rules }

def unknownRule? (c : Configuration) : Option String :=
  (c.rules.find? fun r => (Rule.ofId? r.1).isNone).map (·.1)

def parse (text : String) : Except ConfigurationError Configuration :=
  match (Toml.read? text).bind ofEntries? with
  | none => .error .malformed
  | some c =>
    match c.unknownRule? with
    | some id => .error (.unknownRule id)
    | none => .ok c

def action? (c : Configuration) (rule : Rule) : Option RuleAction :=
  (c.rules.find? fun r => Rule.ofId? r.1 = some rule).map (·.2)

def severity? (c : Configuration) (rule : Rule) (severity : Severity) : Option Severity :=
  match c.action? rule with
  | none => some severity
  | some action => action.apply

end Configuration

/-- What is said about a configuration that is refused; empty where nothing more is known than that
it cannot be read. -/
def ConfigurationError.message : ConfigurationError → String
  | .malformed => ""
  | .unknownRule id => s!"{Rule.unknownMessage id} in [rules]"

end Concord
