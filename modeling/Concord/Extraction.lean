import Concord.Observation.Go
import Concord.Observation.Java
import Concord.Observation.Python
import Concord.Observation.TypeScript

/-! The language of a file, whether it is test code, and its declarations and boundaries. -/
namespace Concord

open Text

namespace Language

def extensions : Language → List String
  | .go => ["go"]
  | .typeScript => ["ts", "tsx", "js", "jsx", "mjs"]
  | .python => ["py"]
  | .java => ["java"]

def lexis : Language → Lexis
  | .go => .go
  | .typeScript => .typeScript
  | .python => .python
  | .java => .java

/-- The name of the file a path leads to: its last part that is not empty or a dot; none if that
part goes up. -/
def fileName? (path : List Char) : Option (List Char) :=
  (((split '/' path).filter fun c => !c.isEmpty && c != ['.']).getLast?).filter (· != ['.', '.'])

/-- What follows the last dot of a file name, unless the name starts there. -/
def extension? (path : List Char) : Option (List Char) :=
  (fileName? path).bind fun name =>
    match splitWhere (· == '.') name with
    | [_] => none
    | [[], _] => none
    | pieces => pieces.getLast?

def ofPath? (languages : List Language) (path : String) : Option Language :=
  (extension? path.toList).bind fun e => languages.find? (·.extensions.contains (String.ofList e))

def testDirectories : List String := ["__tests__", "tests", "test", "testdata"]

def inTestDirectory (path : List Char) : Bool :=
  ((split '/' path).dropLast).any fun c => testDirectories.contains (String.ofList c)

def isTestFile (language : Language) (path : String) : Bool :=
  let path := path.toList
  let name := lastPiece (· == '/') path
  let named := match language with
    | .go => endsWith "_test.go" name
    | .typeScript => Text.contains ".test." name || Text.contains ".spec." name
    | .python =>
      startsWith "test_" name && endsWith ".py" name || endsWith "_test.py" name ||
        name == "conftest.py".toList
    | .java => endsWith "Test.java" name || endsWith "Tests.java" name || endsWith "IT.java" name
  named || inTestDirectory path

end Language

inductive ExtractionError
  | parse (e : ParseError)
  | cut (c : BadCut)
  deriving DecidableEq, Repr

def Source.declarations (s : Source) : Language → Except BadCut (List TypeDecl)
  | .go => .ok (Go.declarations s)
  | .typeScript => TypeScript.declarations s
  | .python => Python.declarations s
  | .java => .ok (Java.declarations s)

def Source.routines (s : Source) : Language → List Routine
  | .go => Go.routines s
  | .typeScript => TypeScript.routines s
  | .python => Python.routines s
  | .java => Java.routines s

/-- The boundaries of a source, before what does not hang on the language is attached. -/
def Source.observations (s : Source) (rs : List Routine) :
    Language → Except BadCut (List Observation)
  | .go => .ok (Go.observations s rs)
  | .typeScript => TypeScript.observations s rs
  | .python => .ok (Python.observations s rs)
  | .java => .ok (Java.observations s rs)

def Source.extraction (s : Source) (language : Language) (path : String) :
    Except BadCut FileExtraction := do
  let types ← s.declarations language
  let isTest := language.isTestFile path
  let routines := s.routines language
  let observations ← s.observations routines language
  return {
    path
    language
    isTest
    types
    observations := Observation.completeAll s routines isTest observations }

def extract (language : Language) (path content : String) : Except ExtractionError FileExtraction :=
  match Source.read language.lexis path content with
  | .error e => .error (.parse e)
  | .ok s =>
    match s.extraction language path with
    | .error c => .error (.cut c)
    | .ok file => .ok file

def typeExpr (language : Language) (text : String) : TypeExpr :=
  match language with
  | .go => Go.typeExpr text.toList
  | .typeScript => TypeScript.typeExpr text.toList
  | .python => Python.typeExpr text.toList
  | .java => Java.typeExpr text.toList

end Concord
