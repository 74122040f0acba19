import Concord.Comparison.Basic

/-! Two services define a type of one name with different members. A walk meets the type wherever it
is used, so a drift carries what it is about, and is reported once. -/
namespace Concord.Comparison

structure DriftSubject where
  typeName : String
  first : String
  second : String
  deriving DecidableEq, Repr

structure Finding where
  mismatch : Mismatch
  drift : Option DriftSubject
  deriving DecidableEq, Repr

namespace Finding

def plain (m : Mismatch) : Finding := ⟨m, none⟩

/-- The mismatches of a walk: of the drifts of one subject only the first stays. `seen` holds the
subjects of those before. -/
def reportedFrom (seen : List DriftSubject) : List Finding → List Mismatch
  | [] => []
  | ⟨m, none⟩ :: rest => m :: reportedFrom seen rest
  | ⟨m, some subject⟩ :: rest =>
    if seen.contains subject then reportedFrom seen rest
    else m :: reportedFrom (subject :: seen) rest

def reported (findings : List Finding) : List Mismatch := reportedFrom [] findings

end Finding

def memberNames (s : Shape) : List String := Text.sortedUnique (s.children.map (·.name))

def onlyClause (p : Participant) (mine theirs : List String) : List String :=
  match mine.filter (!theirs.contains ·) with
  | [] => []
  | only => [s!"only {p.service} has " ++ ", ".intercalate only]

/-- The drift between two participants: both define a type of one name, and its members differ. -/
def driftBetween? (x : Exchange) (path : String) (a b : Participant) : Option Finding :=
  if a.service == b.service then none
  else
    match a.shape.typeName, b.shape.typeName with
    | some t, some u =>
      let mine := memberNames a.shape
      let theirs := memberNames b.shape
      if t != u || a.shape.confidence != .declared || b.shape.confidence != .declared ||
          mine == theirs then none
      else
        let clauses := onlyClause a mine theirs ++ onlyClause b theirs mine
        let ordered := compare a.service b.service = .lt
        some {
          mismatch := x.error .drift .sharedTypeSync (if path.isEmpty then t else path) b.location
            s!"one definition of {t}"
            (s!"{t} differs between {a.service} and {b.service}: " ++ "; ".intercalate clauses)
          drift := some (if ordered then ⟨t, a.service, b.service⟩ else ⟨t, b.service, a.service⟩) }
    | _, _ => none

def drifts (x : Exchange) (path : String) : List Participant → List Finding
  | [] => []
  | p :: rest => rest.filterMap (driftBetween? x path p) ++ drifts x path rest

end Concord.Comparison
