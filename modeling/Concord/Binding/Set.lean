import Concord.Binding.Basic
import Concord.Binding.Owner
import Concord.Binding.Target
import Concord.Shape.Resolve

/-! Every observation goes one way: into the binding of its key, into a finding, into a diagnostic,
or nowhere because its file belongs to no service, which is said once a file. -/
namespace Concord

inductive Outcome
  | bound (b : Binding)
  | contradicts (m : Mismatch)
  | unbound (d : Diagnostic)
  /-- An earlier observation of the file says that it belongs to no service. -/
  | skipped
  deriving Repr

structure BindingSet where
  /-- By ascending key, each key once. -/
  bindings : List Binding
  mismatches : List Mismatch
  diagnostics : List Diagnostic
  deriving Repr, Inhabited

def Unbound.diagnostic (u : Unbound) (location : Location) : Diagnostic :=
  ⟨.ambiguousBinding, location, u.message⟩

namespace BindingSet

def empty : BindingSet := ⟨[], [], []⟩

def add (s : BindingSet) : Outcome → BindingSet
  | .bound b => { s with bindings := b.insert s.bindings }
  | .contradicts m => { s with mismatches := s.mismatches ++ [m] }
  | .unbound d => { s with diagnostics := s.diagnostics ++ [d] }
  | .skipped => s

def ofOutcomes (outcomes : List Outcome) : BindingSet := outcomes.foldl add empty

end BindingSet

structure OwnedFile where
  file : FileExtraction
  owner : Option String

def typeTables (files : List OwnedFile) : List (String × TypeTable) :=
  (files.filterMap (·.owner)).eraseDups.map fun service =>
    (service, TypeTable.ofList
      ((files.filter (·.owner == some service)).flatMap (·.file.types)))

def Binding.ofObservation (key : BindingKey) (o : Observation) (table : TypeTable)
    (maxDepth : Nat) : Binding where
  key
  request := o.request.map (Shape.resolve table maxDepth)
  response := o.response.map (Shape.resolve table maxDepth)
  statusCodes := o.statusCodes
  headersRead := o.headersRead
  headersWritten := o.headersWritten
  evidence := o.evidence
  location := o.location
  locations := [o.location]

def Manifest.outcome (m : Manifest) (maxDepth : Nat) (tables : List (String × TypeTable))
    (o : Observation) (service : String) : Outcome :=
  if (m.service? service).isNone then
    .unbound ((Unbound.undeclaredService service).diagnostic o.location)
  else
    match m.target o service with
    | .bound ⟨contract, endpoint⟩ role =>
      .bound (Binding.ofObservation ⟨contract.id, endpoint.id, service, role, o.side, o.inTest⟩ o
        ((tables.lookup service).getD TypeTable.empty) maxDepth)
    | .contradicts c => .contradicts (c.mismatch o.location)
    | .unbound u => .unbound (u.diagnostic o.location)

/-- What becomes of the observations of a file; `reported` says whether the file is known to belong
to no service. A hint that names a service wins over the owner of the file. -/
def Manifest.fileOutcomes (m : Manifest) (maxDepth : Nat) (tables : List (String × TypeTable))
    (f : OwnedFile) (reported : Bool) : List Observation → List Outcome
  | [] => []
  | o :: rest =>
    match (o.hint.bind (·.service)).or f.owner with
    | some service =>
      m.outcome maxDepth tables o service :: m.fileOutcomes maxDepth tables f reported rest
    | none =>
      (if reported then .skipped
      else .unbound ((Unbound.noOwner f.file.path).diagnostic o.location)) ::
        m.fileOutcomes maxDepth tables f true rest

def Manifest.outcomes (m : Manifest) (roots : List Root) (maxDepth : Nat)
    (files : List FileExtraction) : List Outcome :=
  let owned := files.map fun f => OwnedFile.mk f (m.owner? roots f)
  let tables := typeTables owned
  owned.flatMap fun f => m.fileOutcomes maxDepth tables f false f.file.observations

/-- Binds the observations of all files, which are in the order of their paths. -/
def Manifest.bind (m : Manifest) (roots : List Root) (maxDepth : Nat) (files : List FileExtraction) :
    BindingSet :=
  .ofOutcomes (m.outcomes roots maxDepth files)

end Concord
