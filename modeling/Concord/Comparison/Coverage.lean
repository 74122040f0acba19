import Concord.Binding.Basic
import Concord.Finding.Basic
import Concord.Manifest.Schema

/-! Whether clients handle the declared status codes, both sides have tests, and signatures are
checked. -/
namespace Concord.Comparison

def firstLocation? : List Location → Option Location
  | [] => none
  | l :: ls => some (ls.foldl (fun best l => if l.compare best = .lt then l else best) l)

/-- The status codes an endpoint declares; without a list of them, those with a response. -/
def declaredCodes (e : Endpoint) : List Nat :=
  if e.statusCodes.isEmpty then e.responses.map (·.1) else e.statusCodes

def statusMismatch (contract : Contract) (endpoint : Endpoint) (code : Nat) (severity : Severity)
    (observed : String) (location : Location) : Mismatch where
  contract := contract.id
  endpoint := endpoint.id
  field := toString code
  kind := .status
  expected := ", ".intercalate ((declaredCodes endpoint).map toString)
  observed
  rule := .statusCodeHandling
  severity
  location

/-- The declared codes that no client handles, if there is a client at all. -/
def unhandledCodes (contract : Contract) (endpoint : Endpoint) (bindings : List Binding) :
    List Mismatch :=
  let clients := bindings.filter (·.key.side = .client)
  match firstLocation? (clients.map (·.location)) with
  | none => []
  | some first =>
    let branches := clients.flatMap (·.statusCodes)
    ((declaredCodes endpoint).filter fun code => !branches.any (Status.covers ·.code code)).map
      fun code =>
        statusMismatch contract endpoint code .error
          s!"{code} is declared but no client branches on it" first

structure CodeUse where
  binding : Binding
  code : Nat
  location : Location

/-- The status codes that are used though they are not declared, once a service, side and code. -/
def undeclaredCodes (contract : Contract) (endpoint : Endpoint) (bindings : List Binding) :
    List Mismatch :=
  let declared := declaredCodes endpoint
  let uses := bindings.flatMap fun b => b.statusCodes.filterMap fun s =>
    match s.code with
    | .code c => if declared.contains c then none else some ⟨b, c, s.location⟩
    | .success => none
  (Keyed.firsts (fun (u : CodeUse) => (u.binding.key.service, u.binding.key.side, u.code)) uses).map
    fun u =>
      let action := match u.binding.key.side with
        | .client => "branches on"
        | .server => "writes"
      statusMismatch contract endpoint u.code .warning
        s!"{u.binding.describe} {action} undeclared {u.code}" u.location

/-- The findings on status codes; none if the endpoint declares no code. `bindings` are the
production bindings of the endpoint. -/
def statusMismatches (contract : Contract) (endpoint : Endpoint) (bindings : List Binding) :
    List Mismatch :=
  if (declaredCodes endpoint).isEmpty then []
  else
    unhandledCodes contract endpoint bindings ++ undeclaredCodes contract endpoint bindings

def parties (contract : Contract) : List (String × Role) :=
  Keyed.firsts (·.1)
    ((contract.producer, Role.producer) :: contract.consumers.map fun c => (c, Role.consumer))

/-- The parties without a test of an endpoint that is bound at all. -/
def dualTestMismatches (manifest : Manifest) (contract : Contract) (endpoint : Endpoint)
    (bindings : List Binding) : List Mismatch :=
  if bindings.isEmpty then []
  else
    let untested := (parties contract).filter fun (service, _) =>
      !bindings.any fun b => b.key.inTest && b.key.service == service
    untested.map fun (service, role) => {
      contract := contract.id
      endpoint := endpoint.id
      field := ""
      kind := .dualTest
      expected := "a test on both sides"
      observed := s!"no test exercises the {role.display} side ({service})"
      rule := .dualTest
      severity := .error
      location :=
        match firstLocation? ((bindings.filter (·.key.service == service)).map (·.location)) with
        | some l => l
        | none => manifest.locate [contract.id, endpoint.path] }

def handlers (bindings : List Binding) : List Binding :=
  bindings.filter fun b => !b.key.inTest && b.key.role = .consumer && b.key.side = .server

def verifies (b : Binding) : Bool := b.evidence.any (·.kind = .signature)

def firstBinding? : List Binding → Option Binding
  | [] => none
  | b :: bs =>
    some (bs.foldl (fun best b => if b.location.compare best.location = .lt then b else best) b)

/-- A contract that asks for verification, and no handler of which checks a signature. -/
def verificationMismatch? (contract : Contract) (bindings : List Binding) : Option Mismatch :=
  contract.verification.bind fun v =>
    if (handlers bindings).any verifies then none
    else (firstBinding? (handlers bindings)).map fun handler => {
      contract := contract.id
      endpoint := handler.key.endpoint
      field := v.header
      kind := .conformance
      expected := s!"{v.method} signature in {v.header}"
      observed := s!"{handler.describe} never verifies a signature"
      rule := .manifestConformance
      severity := .error
      location := handler.location }

end Concord.Comparison
