import Concord.Text.Class

/-! Text is handled as a list of characters. Positions are counted in UTF-8 bytes, as everywhere in
the project. -/
namespace Concord.Text

def byteSize (t : List Char) : Nat := t.foldl (fun n c => n + c.utf8Size) 0

def trimStart (t : List Char) : List Char := t.dropWhile isBlank

def dropEndWhile (p : Char → Bool) (t : List Char) : List Char := (t.reverse.dropWhile p).reverse

def trimEnd (t : List Char) : List Char := dropEndWhile isBlank t

def trim (t : List Char) : List Char := trimEnd (trimStart t)

def trimWhere (p : Char → Bool) (t : List Char) : List Char := dropEndWhile p (t.dropWhile p)

def afterLead? : (lead t : List Char) → Option (List Char)
  | [], t => some t
  | _ :: _, [] => none
  | a :: lead, b :: t => if a == b then afterLead? lead t else none

def startsWith (lead : String) (t : List Char) : Bool := lead.toList.isPrefixOf t

def dropStart? (lead : String) (t : List Char) : Option (List Char) := afterLead? lead.toList t

def endsWith (tail : String) (t : List Char) : Bool := tail.toList.reverse.isPrefixOf t.reverse

def dropEnd? (tail : String) (t : List Char) : Option (List Char) :=
  (afterLead? tail.toList.reverse t.reverse).map List.reverse

def dropEnd (tail : String) (t : List Char) : List Char := (dropEnd? tail t).getD t

def cut? (needle : List Char) : List Char → Option (List Char × List Char)
  | [] => if needle.isEmpty then some ([], []) else none
  | c :: t =>
    match afterLead? needle (c :: t) with
    | some rest => some ([], rest)
    | none => (cut? needle t).map fun p => (c :: p.1, p.2)

def cutWhere? (p : Char → Bool) : List Char → Option (List Char × List Char)
  | [] => none
  | c :: t => if p c then some ([], t) else (cutWhere? p t).map fun q => (c :: q.1, q.2)

def contains (needle : String) (t : List Char) : Bool := (cut? needle.toList t).isSome

def find? (needle : List Char) (t : List Char) : Option Nat := (cut? needle t).map fun p => byteSize p.1

/-- The pieces between the characters that satisfy `p`; always at least one. -/
def splitWhere (p : Char → Bool) : List Char → List (List Char)
  | [] => [[]]
  | c :: t =>
    if p c then [] :: splitWhere p t
    else
      match splitWhere p t with
      | piece :: pieces => (c :: piece) :: pieces
      | [] => [[c]]

def split (sep : Char) (t : List Char) : List (List Char) := splitWhere (· == sep) t

def words (t : List Char) : List (List Char) := (splitWhere isBlank t).filter (!·.isEmpty)

def lastPiece (p : Char → Bool) (t : List Char) : List Char := (splitWhere p t).getLastD []

/-- The lines of a text, without their ends: a newline, with or without a carriage return before
it. A final newline starts no further line. -/
def lines (t : List Char) : List (List Char) :=
  let pieces := split '\n' t
  let last := pieces.getLastD []
  pieces.dropLast.map (dropEnd "\r") ++ if last.isEmpty then [] else [last]

def replaceChar (c : Char) (image : List Char) (t : List Char) : List Char :=
  t.flatMap fun d => if d == c then image else [d]

def takeBytes : Nat → List Char → List Char
  | _, [] => []
  | n, c :: t => if c.utf8Size ≤ n then c :: takeBytes (n - c.utf8Size) t else []

def dropBytes : Nat → List Char → List Char
  | _, [] => []
  | n, c :: t => if c.utf8Size ≤ n then dropBytes (n - c.utf8Size) t else c :: t

end Concord.Text
