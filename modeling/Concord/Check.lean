import Concord.Binding.Set
import Concord.Comparison.Contract
import Concord.Convention.Analysis
import Concord.Manifest.Build
import Concord.Project.Source
import Concord.Report.Basic

/-! The report is a function of the manifest, the configuration and what the files contribute. It
depends neither on the order of the files nor on how many are read at a time. -/
namespace Concord

def BindingSet.findings (s : BindingSet) (m : Manifest) : List Mismatch :=
  m.contracts.flatMap (fun c =>
    Comparison.contractMismatches m c (s.bindings.filter (·.key.contract == c.id))) ++
    s.mismatches ++ Convention.mismatches m s.bindings

def usableFiles (contributions : List Contribution) : List FileExtraction :=
  (contributions.filterMap fun c =>
    match c with
    | .ok file => some file
    | .error _ => none).mergeSort fun a b => compare a.path b.path != .gt

def unusableFiles (contributions : List Contribution) : List Diagnostic :=
  contributions.filterMap fun c =>
    match c with
    | .ok _ => none
    | .error d => some d

/-- The report on what the files of a project contribute, on one rule only if one is given. -/
def Report.of (m : Manifest) (c : Configuration) (only : Option Rule)
    (contributions : List Contribution) : Report :=
  let bound := m.bind (m.roots c.services) c.maxDepth (usableFiles contributions)
  { violations := violationsOf c only (bound.findings m)
    diagnostics := sortedDiagnostics (unusableFiles contributions ++ bound.diagnostics) }

structure CheckRequest where
  root : String
  manifest : String
  only : Option Rule
  excludeLanguages : List Language
  /-- How many files are read at a time; none or zero leaves it to the configuration. -/
  jobs : Option Nat
  deriving Repr

inductive CheckError
  | manifest (e : ManifestError)
  | extraction (c : BadCut)
  deriving DecidableEq, Repr

def CheckError.message : CheckError → String
  | .manifest e => e.message
  | .extraction _ => "extraction task failed"

def standardJobs : Nat := 4

def CheckRequest.batchSize (r : CheckRequest) (c : Configuration) : Nat :=
  (r.jobs.filter (0 < ·)).getD (if 0 < c.jobs then c.jobs else standardJobs)

def loadManifest {m : Type → Type} [Monad m] (files : Access m) (path : String) (maxDepth : Nat) :
    m (Except ManifestError Manifest) := do
  match ← files.read path with
  | .error e => return .error (.read path e.message)
  | .ok text => return Manifest.parse text path maxDepth

def gather {m : Type → Type} [Monad m] (files : Access m) (size : Nat)
    (candidates : List SourceCandidate) : m (Except BadCut (List Contribution)) := do
  let read ← (batches size candidates).mapM fun batch => batch.mapM fun c => do
    return c.contribution (← files.read c.path)
  return read.flatten.mapM fun c => c

def check {m : Type → Type} [Monad m] (files : Access m) (c : Configuration) (r : CheckRequest) :
    m (Except CheckError Report) := do
  match ← loadManifest files r.manifest c.maxDepth with
  | .error e => return .error (.manifest e)
  | .ok manifest =>
    let languages := Language.all.filter (!r.excludeLanguages.contains ·)
    let candidates := discover languages (← files.filesBelow r.root c.exclude)
    match ← gather files (r.batchSize c) candidates with
    | .error cut => return .error (.extraction cut)
    | .ok contributions => return .ok (Report.of manifest c r.only contributions)

end Concord
