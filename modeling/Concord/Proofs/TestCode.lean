import Concord.Proofs.Accounting
import Concord.Proofs.Production
import Concord.Proofs.Reports

/-! What the files of tests add to a project is kept apart from production code: their observations
go into bindings of their own. Two ways remain by which they are seen: the types that they declare
are visible to the whole service, and a hint in a test may contradict the manifest. -/
namespace Concord

section Outcomes

variable {m : Manifest} {maxDepth : Nat} {tables tables' : List (String × TypeTable)}

end Outcomes

section Bind

variable {m : Manifest} {roots : List Root} {maxDepth : Nat} {files files' : List FileExtraction}

end Bind

end Concord
