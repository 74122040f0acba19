import Concord.Text.Basic

/-! What a check asks of its surroundings. The checks themselves are functions of what is read, so
the same program runs on a directory and on a tree of files in memory. -/
namespace Concord

inductive ReadFailure
  | missing
  | notDirectory
  | isDirectory
  | notText
  | other (reason : String)
  deriving DecidableEq, Repr

def ReadFailure.message : ReadFailure → String
  | .missing => "No such file or directory (os error 2)"
  | .notDirectory => "Not a directory (os error 20)"
  | .isDirectory => "Is a directory (os error 21)"
  | .notText => "stream did not contain valid UTF-8"
  | .other reason => reason

structure FoundFile where
  path : String
  /-- The path from the directory on; empty if the file itself stands in the place of one. -/
  relative : String
  deriving DecidableEq, Repr

structure Access (m : Type → Type) where
  read : (path : String) → m (Except ReadFailure String)
  present : (path : String) → m Bool
  /-- The files below a directory, without those below directories with one of the names in
  `exclude`. -/
  filesBelow : (root : String) → (exclude : List String) → m (List FoundFile)
  homeConfiguration : Option String

end Concord
