import Concord.Location
import Concord.Quantity.Unit

/-! What code near a boundary tells about the values that cross it. -/
namespace Concord

inductive CaseTransform
  | lower
  | upper
  deriving DecidableEq, Repr, Inhabited

def CaseTransform.apply (t : CaseTransform) (value : String) : String :=
  match t with
  | .lower => String.ofList (Text.lower value.toList)
  | .upper => String.ofList (Text.upper value.toList)

inductive EvidenceKind
  | scale (conversion : Conversion)
  | render (decimals : Nat)
  | case (transform : CaseTransform)
  | enumLiteral (value : String)
  | signature
  | timestampCheck
  deriving DecidableEq, Repr, Inhabited

inductive EvidenceScope
  | file
  | unit
  | call
  deriving DecidableEq, Repr, Inhabited

def EvidenceScope.rank : EvidenceScope → Nat
  | .file => 0
  | .unit => 1
  | .call => 2

def EvidenceScope.display : EvidenceScope → String
  | .file => "file"
  | .unit => "unit"
  | .call => "call"

structure Evidence where
  kind : EvidenceKind
  field : Option String
  scope : EvidenceScope
  location : Location
  text : String
  deriving DecidableEq, Repr, Inhabited

def Evidence.atBoundary (e : Evidence) : Bool := e.scope != .file

structure Hit where
  offset : Nat
  kind : EvidenceKind
  field : Option String
  text : String
  deriving DecidableEq, Repr, Inhabited

inductive StatusMatch
  | code (n : Nat)
  /-- A check that covers every code from 200 to 299. -/
  | success
  deriving DecidableEq, Repr, Inhabited

def StatusMatch.compare : StatusMatch → StatusMatch → Ordering
  | .code a, .code b => Ord.compare a b
  | .code _, .success => .lt
  | .success, .code _ => .gt
  | .success, .success => .eq

structure StatusBranch where
  code : StatusMatch
  location : Location
  deriving DecidableEq, Repr, Inhabited

/-- The field that an expression refers to: its last name, without a leading `get`. -/
def subjectField? (expr : List Char) : Option String :=
  let rec dropCalls : (fuel : Nat) → List Char → List Char
    | 0, t => t
    | fuel + 1, t =>
      match Text.dropEnd? "()" t with
      | some t => dropCalls fuel t
      | none => t
  let expr := dropCalls expr.length (Text.trim expr)
  let parts := Text.splitWhere (fun c => c == '.' || c == '[' || Text.isBlank c) expr
  (parts.reverse.find? (!·.isEmpty)).bind fun last =>
    match Text.trimWhere (fun c => c == '"' || c == '\'' || c == ']' || c == ')') last with
    | [] => none
    | 'g' :: 'e' :: 't' :: c :: rest =>
      if Text.isUpper c then some (String.ofList (Text.lowerChar c ++ rest))
      else some (String.ofList ('g' :: 'e' :: 't' :: c :: rest))
    | last => some (String.ofList last)

end Concord
