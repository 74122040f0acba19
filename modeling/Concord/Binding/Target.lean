import Concord.Binding.Match
import Concord.Finding.Basic

/-! What an observation of a service is about. A hint at the observation wins over its method and
path, and a hint that names what the manifest does not declare is a finding. -/
namespace Concord

inductive Contradiction
  | unknownContract (contract endpoint : String)
  | unknownEndpoint (contract endpoint : String)
  | notParty (service contract endpoint : String)
  | foreignEndpoint (service endpoint : String)
  deriving DecidableEq, Repr

namespace Contradiction

def contract : Contradiction → String
  | .unknownContract contract _ => contract
  | .unknownEndpoint contract _ => contract
  | .notParty _ contract _ => contract
  | .foreignEndpoint _ _ => ""

def endpoint : Contradiction → String
  | .unknownContract _ endpoint => endpoint
  | .unknownEndpoint _ endpoint => endpoint
  | .notParty _ _ endpoint => endpoint
  | .foreignEndpoint _ endpoint => endpoint

def message : Contradiction → String
  | .unknownContract contract _ =>
    s!"contract-bind names contract '{contract}', which the manifest does not declare"
  | .unknownEndpoint contract endpoint => s!"contract '{contract}' declares no endpoint '{endpoint}'"
  | .notParty service contract _ => s!"service '{service}' is not a party to contract '{contract}'"
  | .foreignEndpoint service endpoint =>
    s!"contract-bind names endpoint '{endpoint}', which no contract of '{service}' declares"

def mismatch (c : Contradiction) (location : Location) : Mismatch where
  contract := c.contract
  endpoint := c.endpoint
  field := ""
  kind := .conformance
  expected := "declared in the manifest"
  observed := c.message
  rule := .manifestConformance
  severity := .error
  location

end Contradiction

inductive Target
  | bound (candidate : Candidate) (role : Role)
  | contradicts (c : Contradiction)
  | unbound (u : Unbound)
  deriving Repr

/-- The role of a service on a side. One that has both roles serves in the role of the server and
calls in the other. -/
def Contract.roleOn? (c : Contract) (service : String) (side : Side) : Option Role :=
  match c.rolesOf service with
  | [] => none
  | [role] => some role
  | _ =>
    match side with
    | .server => some c.serverRole
    | .client => some c.serverRole.opposite

namespace Manifest

def hintedTarget (m : Manifest) (o : Observation) (service : String) (role : Option Role)
    (contractId : String) (endpointId : Option String) : Target :=
  match m.contract? contractId with
  | none => .contradicts (.unknownContract contractId (endpointId.getD ""))
  | some contract =>
    let bind := fun (endpoint : Endpoint) =>
      match role.or (contract.roleOn? service o.side) with
      | some role => Target.bound ⟨contract, endpoint⟩ role
      | none => .contradicts (.notParty service contractId endpoint.id)
    match endpointId with
    | some id =>
      match contract.endpoints.find? (·.isNamed id) with
      | some endpoint => bind endpoint
      | none => .contradicts (.unknownEndpoint contractId id)
    | none =>
      match m.bestEndpoint [contract] o with
      | .ok candidate => bind candidate.endpoint
      | .error u => .unbound u

def openTarget (m : Manifest) (o : Observation) (service : String) (role : Option Role)
    (endpointId : Option String) : Target :=
  let contracts := m.contracts.filter fun c => !(c.rolesOf service).isEmpty
  let bind := fun (candidate : Candidate) =>
    match role.or (candidate.contract.roleOn? service o.side) with
    | some role => Target.bound candidate role
    | none => .unbound (.notParty service candidate.contract.id)
  match endpointId with
  | some id =>
    let named := contracts.flatMap fun c => (c.endpoints.filter (·.isNamed id)).map (Candidate.mk c ·)
    match named with
    | [] => .contradicts (.foreignEndpoint service id)
    | [candidate] => bind candidate
    | several => .unbound (.severalMatches id several)
  | none =>
    match m.bestEndpoint contracts o with
    | .ok candidate => bind candidate
    | .error u => .unbound u

def target (m : Manifest) (o : Observation) (service : String) : Target :=
  let role := o.hint.bind (·.role)
  let endpointId := o.hint.bind (·.endpoint)
  match o.hint.bind (·.contract) with
  | some contractId => m.hintedTarget o service role contractId endpointId
  | none => m.openTarget o service role endpointId

end Manifest

end Concord
