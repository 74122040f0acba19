import Concord.Extraction
import Concord.Finding.Basic
import Concord.Project.Access

/-! # Source files of a project -/
namespace Concord

structure SourceCandidate where
  path : String
  relative : String
  language : Language
  deriving DecidableEq, Repr

def discover (languages : List Language) (found : List FoundFile) : List SourceCandidate :=
  (found.filterMap fun f =>
    (Language.ofPath? languages f.path).map (SourceCandidate.mk f.path f.relative ·)).mergeSort
      fun a b => compare a.relative b.relative != .gt

def countByLanguage (candidates : List SourceCandidate) : List (Language × Nat) :=
  (Language.all.map fun l => (l, candidates.countP (·.language = l))).filter (0 < ·.2)

/-- What a file contributes to a check: its boundaries, or why it is left out. -/
abbrev Contribution := Except Diagnostic FileExtraction

def SourceCandidate.contribution (c : SourceCandidate) (content : Except ReadFailure String) :
    Except BadCut Contribution :=
  match content with
  | .error e => .ok (.error ⟨.unreadableFile, ⟨c.relative, 1, 1⟩, e.message⟩)
  | .ok text =>
    match extract c.language c.relative text with
    | .ok file => .ok (.ok file)
    | .error (.parse e) => .ok (.error ⟨.sourceParse, ⟨e.path, e.line, 1⟩, e.cause.message⟩)
    | .error (.cut c) => .error c

def batches {α : Type} (size : Nat) : List α → List (List α)
  | [] => []
  | a :: rest => (a :: rest.take (size - 1)) :: batches size (rest.drop (size - 1))
termination_by xs => xs.length
decreasing_by rw [List.length_drop, List.length_cons]; omega

end Concord
