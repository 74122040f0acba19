/-! # Lists with one entry a key -/
namespace Concord.Keyed

variable {α κ : Type}

/-- Changes the first element that satisfies `p`; adds `fresh` at the end if there is none. -/
def upsert (p : α → Bool) (change : α → α) (fresh : α) : List α → List α
  | [] => [fresh]
  | a :: rest => if p a then change a :: rest else a :: upsert p change fresh rest

variable [BEq κ]

/-- The first element of each key that is not among `seen`. -/
def firstsFrom (key : α → κ) (seen : List κ) : List α → List α
  | [] => []
  | a :: rest =>
    if seen.contains (key a) then firstsFrom key seen rest
    else a :: firstsFrom key (key a :: seen) rest

def firsts (key : α → κ) (xs : List α) : List α := firstsFrom key [] xs

end Concord.Keyed
