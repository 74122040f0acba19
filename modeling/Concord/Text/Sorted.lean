/-! # Sorted lists of names -/
namespace Concord.Text

def sorted (names : List String) : List String := names.mergeSort fun a b => compare a b != .gt

def dropRepeats {α : Type} [BEq α] : List α → List α
  | [] => []
  | [a] => [a]
  | a :: b :: rest => if a == b then dropRepeats (a :: rest) else a :: dropRepeats (b :: rest)

def sortedUnique (names : List String) : List String := dropRepeats (sorted names)

end Concord.Text
