import Concord.Manifest.Schema
import Concord.Route

/-! An observed path matches a declared one exactly, or with values in the place of parameters.
Exact matches win, and a match counts only if no other is as good. -/
namespace Concord

open Route

inductive MatchQuality
  /-- A value stands where a parameter is declared. -/
  | templated
  | exact
  deriving DecidableEq, Repr

def MatchQuality.rank : MatchQuality → Nat
  | .templated => 0
  | .exact => 1

def MatchQuality.of? : (observed declared : List Segment) → Option MatchQuality
  | [], [] => some .exact
  | .literal a :: os, .literal b :: ds => if a == b then of? os ds else none
  | .param :: os, .param :: ds => of? os ds
  | .literal _ :: os, .param :: ds => (of? os ds).map fun _ => .templated
  | _, _ => none

structure Candidate where
  contract : Contract
  endpoint : Endpoint
  deriving Repr

def Candidate.describe (c : Candidate) : String := c.contract.id ++ " " ++ c.endpoint.id

inductive Unbound
  | noOwner (path : String)
  | undeclaredService (service : String)
  | noPath
  | noMatch (request : String)
  | severalMatches (request : String) (candidates : List Candidate)
  | notParty (service contract : String)
  deriving Repr

def Unbound.message : Unbound → String
  | .noOwner path => s!"{path} belongs to no declared service"
  | .undeclaredService service => s!"service '{service}' is not declared in the manifest"
  | .noPath => "no path could be recovered for this call site"
  | .noMatch request => s!"no declared endpoint matches {request}"
  | .severalMatches request candidates =>
    s!"{request} matches " ++ ", ".intercalate (candidates.map (·.describe))
  | .notParty service contract => s!"service '{service}' is not a party to contract '{contract}'"

def Endpoint.isNamed (e : Endpoint) (id : String) : Bool :=
  let (method, path) := (Text.cutWhere? (· == ' ') id.toList).getD ([], id.toList)
  Text.asciiSame method e.method.toList && segments (String.ofList path) == segments e.path

/-- The ways to read an observed path: as it is, without the base path of a service that serves the
contract, and without leading parameters. -/
def Manifest.pathVariants (m : Manifest) (contract : Contract) (path : String) :
    List (List Segment) :=
  let full := segments path
  let stripped := (contract.servicesIn contract.serverRole).filterMap fun id =>
    ((m.service? id).bind (·.basePath?)).bind fun base =>
      let base := segments base
      if base.length < full.length && base.isPrefixOf full then some (full.drop base.length) else none
  let rest := full.dropWhile (· == .param)
  full :: stripped ++ if rest.length < full.length then [rest] else []

def Endpoint.quality? (e : Endpoint) (variants : List (List Segment)) : Option MatchQuality :=
  let qualities := variants.filterMap fun v => MatchQuality.of? v (segments e.path)
  if qualities.contains .exact then some .exact
  else if qualities.isEmpty then none
  else some .templated

def Manifest.candidates (m : Manifest) (contracts : List Contract) (method : Option String)
    (path : String) : List (MatchQuality × Candidate) :=
  contracts.flatMap fun c =>
    let variants := m.pathVariants c path
    (c.endpoints.filter fun e =>
      method.all fun m => Text.asciiSame m.toList e.method.toList).filterMap fun e =>
        (e.quality? variants).map (·, ⟨c, e⟩)

structure RunningBest where
  quality : Option MatchQuality
  candidates : List Candidate

def RunningBest.add (b : RunningBest) (c : MatchQuality × Candidate) : RunningBest :=
  match b.quality with
  | none => ⟨c.1, [c.2]⟩
  | some best =>
    if c.1.rank < best.rank then b
    else if c.1 = best then { b with candidates := b.candidates ++ [c.2] }
    else ⟨c.1, [c.2]⟩

def bestCandidates (candidates : List (MatchQuality × Candidate)) : List Candidate :=
  (candidates.foldl .add ⟨none, []⟩ : RunningBest).candidates

def Manifest.bestEndpoint (m : Manifest) (contracts : List Contract) (o : Observation) :
    Except Unbound Candidate :=
  match o.path with
  | none => .error .noPath
  | some path =>
    let request := o.method.getD "*" ++ " " ++ path
    match bestCandidates (m.candidates contracts o.method path) with
    | [] => .error (.noMatch request)
    | [c] => .ok c
    | several => .error (.severalMatches request several)

end Concord
