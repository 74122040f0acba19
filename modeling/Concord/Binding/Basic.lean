import Concord.Boundary.Basic
import Concord.Evidence.Status

/-! All that one side of one service does at one endpoint, gathered from the code. -/
namespace Concord

inductive PayloadKind
  | request
  | response
  deriving DecidableEq, Repr, Inhabited

def PayloadKind.display : PayloadKind → String
  | .request => "request"
  | .response => "response"

/-- What observations are gathered by. Test code and production code never share a key. -/
structure BindingKey where
  contract : String
  /-- Method and path as the manifest declares them. -/
  endpoint : String
  service : String
  role : Role
  side : Side
  inTest : Bool
  deriving DecidableEq, Repr, Inhabited

def BindingKey.compare (a b : BindingKey) : Ordering :=
  (Ord.compare a.contract b.contract).then <|
    (Ord.compare a.endpoint b.endpoint).then <|
      (Ord.compare a.service b.service).then <|
        (Ord.compare a.role.rank b.role.rank).then <|
          (Ord.compare a.side.rank b.side.rank).then (Ord.compare a.inTest.toNat b.inTest.toNat)

structure Binding where
  key : BindingKey
  request : Option Shape
  response : Option Shape
  statusCodes : List StatusBranch
  headersRead : List String
  headersWritten : List String
  evidence : List Evidence
  location : Location
  locations : List Location
  deriving Repr, Inhabited

namespace Binding

/-- Whether this side writes a payload: clients write requests, servers write responses. -/
def supplies (b : Binding) (payload : PayloadKind) : Bool :=
  match payload, b.key.side with
  | .request, .client => true
  | .response, .server => true
  | _, _ => false

def shape? (b : Binding) : PayloadKind → Option Shape
  | .request => b.request
  | .response => b.response

def describe (b : Binding) : String := s!"{b.key.service} ({b.key.side.display})"

def mergeShape : Option Shape → Option Shape → Option Shape
  | some mine, some theirs => some (mine.merge theirs)
  | none, theirs => theirs
  | mine, none => mine

/-- Takes in a piece of evidence: one entry a field and kind, of which the closest one stays. -/
def addEvidence (mine : List Evidence) (e : Evidence) : List Evidence :=
  Keyed.upsert (fun m => m.kind = e.kind && m.field == e.field)
    (fun m => if m.scope.rank < e.scope.rank then e else m) e mine

def sortedLocations (places : List Location) : List Location :=
  Text.dropRepeats (places.mergeSort Location.le)

def absorb (a b : Binding) : Binding where
  key := a.key
  request := mergeShape a.request b.request
  response := mergeShape a.response b.response
  statusCodes := Status.distinct (a.statusCodes ++ b.statusCodes)
  headersRead := Text.sortedUnique (a.headersRead ++ b.headersRead)
  headersWritten := Text.sortedUnique (a.headersWritten ++ b.headersWritten)
  evidence := b.evidence.foldl addEvidence a.evidence
  location := if b.location.compare a.location = .lt then b.location else a.location
  locations := sortedLocations (a.locations ++ b.locations)

/-- Puts a binding into a list by ascending key, united with the one of its key. -/
def insert (b : Binding) : List Binding → List Binding
  | [] => [b]
  | a :: rest =>
    match b.key.compare a.key with
    | .lt => b :: a :: rest
    | .eq => a.absorb b :: rest
    | .gt => a :: insert b rest

end Binding

end Concord
