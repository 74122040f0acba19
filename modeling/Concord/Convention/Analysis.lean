import Concord.Convention.Casing
import Concord.Convention.Unit
import Concord.Convention.Verification

/-! # Checks across contracts -/
namespace Concord.Convention

def mismatches (m : Manifest) (bindings : List Binding) : List Mismatch :=
  casingMismatches m bindings ++ unitMismatches m ++ verificationGaps m bindings

end Concord.Convention
