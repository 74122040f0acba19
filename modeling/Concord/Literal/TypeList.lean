import Concord.Literal.Quoted

/-! # Lists inside type expressions -/
namespace Concord.Literal

/-- The pieces of a type expression between separators outside quotes and brackets, angle brackets
included. The second half of an arrow is no bracket. -/
def typePieces (sep : Char) (quote : Option Char) (depth : Int) (prior : Char) :
    List Char → List (List Char)
  | [] => [[]]
  | c :: rest =>
    let keep := fun (pieces : List (List Char)) =>
      match pieces with
      | p :: ps => (c :: p) :: ps
      | [] => [[c]]
    match quote with
    | some q => keep (typePieces sep (if c == q then none else some q) depth c rest)
    | none =>
      if isQuote c then keep (typePieces sep (some c) depth c rest)
      else if c == '(' || c == '[' || c == '{' || c == '<' then
        keep (typePieces sep none (depth + 1) c rest)
      else if c == '>' && prior == '=' then keep (typePieces sep none depth c rest)
      else if c == ')' || c == ']' || c == '}' || c == '>' then
        keep (typePieces sep none (depth - 1) c rest)
      else if c == sep && depth == 0 then [] :: typePieces sep none depth c rest
      else keep (typePieces sep none depth c rest)

/-- The pieces of a type expression, trimmed, the empty ones left out. -/
def typeList (sep : Char) (text : List Char) : List (List Char) :=
  ((typePieces sep none 0 ' ' text).map Text.trim).filter (!·.isEmpty)

/-- A name with its arguments in brackets: `Name<A, B>`. A bare name has none. -/
def generic (opening closing : Char) (text : List Char) : List Char × List (List Char) :=
  let text := Text.trim text
  match Text.cutWhere? (· == opening) text with
  | some (name, rest) =>
    if !name.isEmpty && text.getLast? == some closing then
      (Text.trim name, typeList ',' rest.dropLast)
    else (text, [])
  | none => (text, [])

end Concord.Literal
