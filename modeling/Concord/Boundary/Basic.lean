import Concord.Evidence.Basic
import Concord.Language
import Concord.Shape.TypeExpr

/-! The places in code where a payload of a contract is sent or received. -/
namespace Concord

inductive Role
  | producer
  | consumer
  deriving DecidableEq, Repr, Inhabited

namespace Role

def display : Role → String
  | .producer => "producer"
  | .consumer => "consumer"

def rank : Role → Nat
  | .producer => 0
  | .consumer => 1

def opposite : Role → Role
  | .producer => .consumer
  | .consumer => .producer

end Role

inductive Side
  | client
  | server
  deriving DecidableEq, Repr, Inhabited

namespace Side

def display : Side → String
  | .client => "client"
  | .server => "server"

def rank : Side → Nat
  | .client => 0
  | .server => 1

def opposite : Side → Side
  | .client => .server
  | .server => .client

end Side

structure Hint where
  contract : Option String
  endpoint : Option String
  role : Option Role
  service : Option String
  location : Location
  deriving DecidableEq, Repr, Inhabited

structure Observation where
  side : Side
  method : Option String
  /-- The path with `{}` for the parts that are filled in, if it is known. -/
  path : Option String
  hint : Option Hint
  request : Option PayloadSource
  response : Option PayloadSource
  headersRead : List String
  headersWritten : List String
  statusCodes : List StatusBranch
  evidence : List Evidence
  inTest : Bool
  location : Location
  span : Span
  routine : Option Span
  deriving Repr, Inhabited

def Observation.at (side : Side) (location : Location) (span : Span) : Observation where
  side
  method := none
  path := none
  hint := none
  request := none
  response := none
  headersRead := []
  headersWritten := []
  statusCodes := []
  evidence := []
  inTest := false
  location
  span
  routine := none

structure Routine where
  name : String
  span : Span
  isTest : Bool
  deriving DecidableEq, Repr, Inhabited

def Routine.at? (routines : List Routine) (offset : Nat) : Option Routine :=
  match routines.filter (·.span.contains offset) with
  | [] => none
  | r :: rs =>
    let size := fun (r : Routine) => r.span.stop - r.span.start
    some (rs.foldl (fun best x => if size x < size best then x else best) r)

def Routine.dropSameSpans : List Routine → List Routine
  | [] => []
  | [r] => [r]
  | a :: b :: rest =>
    if a.span = b.span then dropSameSpans (a :: rest) else a :: dropSameSpans (b :: rest)

structure FileExtraction where
  path : String
  language : Language
  isTest : Bool
  types : List TypeDecl
  observations : List Observation
  deriving Repr, Inhabited

end Concord
