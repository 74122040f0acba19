import Concord.Text.Basic
import Concord.Text.Case

/-! # Source languages -/
namespace Concord

inductive Language
  | go
  | typeScript
  | python
  | java
  deriving DecidableEq, Repr, Inhabited

namespace Language

def all : List Language := [.go, .typeScript, .python, .java]

def ofManifest? (raw : String) : Option Language :=
  match String.ofList (Text.asciiLower (Text.trim raw.toList)) with
  | "go" | "golang" => some .go
  | "typescript" | "ts" | "javascript" | "js" | "node" => some .typeScript
  | "python" | "py" => some .python
  | "java" | "kotlin" => some .java
  | _ => none

def display : Language → String
  | .go => "Go"
  | .typeScript => "TypeScript"
  | .python => "Python"
  | .java => "Java"

def key : Language → String
  | .go => "go"
  | .typeScript => "typescript"
  | .python => "python"
  | .java => "java"

def ofKey? (key : String) : Option Language := all.find? (·.key == key)

end Language

end Concord
