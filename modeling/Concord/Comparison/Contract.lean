import Concord.Comparison.Coverage
import Concord.Comparison.Walk

/-! # Comparing a contract with the code -/
namespace Concord.Comparison

/-- The findings on one endpoint, `bound` being its bindings in tests and in production. -/
def endpointMismatches (manifest : Manifest) (contract : Contract) (endpoint : Endpoint)
    (bound : List Binding) : List Mismatch :=
  let production := bound.filter (!·.key.inTest)
  compareEndpoint manifest.conventions contract endpoint production ++
    statusMismatches contract endpoint production ++
    dualTestMismatches manifest contract endpoint bound

def contractMismatches (manifest : Manifest) (contract : Contract) (bindings : List Binding) :
    List Mismatch :=
  contract.endpoints.flatMap (fun endpoint =>
    endpointMismatches manifest contract endpoint
      (bindings.filter (·.key.endpoint == endpoint.id))) ++
    (verificationMismatch? contract bindings).toList

end Concord.Comparison
