import Concord.Literal.Quoted
import Concord.Text.Pattern

/-! The path that a URL expression builds, with `{}` for every part that is filled in. -/
namespace Concord.Literal

open Text Pattern

def wrapperCall : Pattern := all [
  textStart,
  any [
    lit "fmt.Sprintf", lit "String.format", lit "format", lit "url.JoinPath", lit "path.join",
    lit "urljoin", lit "URI.create", all [lit "new", blanks1, lit "URL"]],
  blanks, char '(']

/-- What stands before the first comma outside quotes and brackets. -/
def firstArgumentFrom (quote : Option Char) (depth : Int) : List Char → List Char
  | [] => []
  | c :: rest =>
    match quote with
    | some q => c :: firstArgumentFrom (if c == q then none else some q) depth rest
    | none =>
      if isQuote c then c :: firstArgumentFrom (some c) depth rest
      else if c == '(' || c == '[' || c == '{' then c :: firstArgumentFrom none (depth + 1) rest
      else if c == ')' || c == ']' || c == '}' then c :: firstArgumentFrom none (depth - 1) rest
      else if c == ',' && depth == 0 then []
      else c :: firstArgumentFrom none depth rest

def firstArgument (args : List Char) : List Char := firstArgumentFrom none 0 args

def unwrapped (expr : List Char) : List Char :=
  match wrapperCall.find? expr with
  | some m => if endsWith ")" expr then firstArgument (dropBytes m.stop expr).dropLast else expr
  | none => expr

def hole : List Char := ['{', '}']

def isVerb (c : Char) : Bool := c == 's' || c == 'd' || c == 'v' || c == 'q'

mutual

/-- The template of an expression outside quotes; none if it has no literal. `plus` tells whether a
plus has been seen since the last literal, `seen` whether there was one. -/
def outside (plus seen : Bool) : List Char → Option (List Char)
  | [] => if seen then some (if plus then hole else []) else none
  | c :: rest =>
    if isQuote c then (inside c 0 rest).map fun t => (if plus then hole else []) ++ t
    else outside (plus || c == '+') seen rest

/-- The template of an expression inside a literal, `depth` braces deep in a part to be filled in. -/
def inside (quote : Char) (depth : Nat) : List Char → Option (List Char)
  | [] => some []
  | c :: rest =>
    if c == '\\' then
      match rest with
      | [] => some []
      | _ :: rest => inside quote depth rest
    else if c == '$' && quote == '`' && rest.head? == some '{' then inside quote depth rest
    else if c == '{' then
      (inside quote (depth + 1) rest).map fun t => (if depth == 0 then hole else []) ++ t
    else if c == '}' && 0 < depth then inside quote (depth - 1) rest
    else
      match c, depth, rest with
      | '%', 0, v :: rest =>
        if isVerb v then (inside quote depth rest).map (hole ++ ·)
        else (inside quote depth (v :: rest)).map ('%' :: ·)
      | c, 0, rest =>
        if c == quote then outside false true rest else (inside quote depth rest).map (c :: ·)
      | _, _, rest => inside quote depth rest

end

def dropTrailingSlashes : List Char → List Char
  | [] => []
  | c :: rest => c :: dropEndWhile (· == '/') rest

/-- The path of a URL: without scheme and host, from the first slash up to a query or fragment, and
without a trailing slash. -/
def urlPath? (url : List Char) : Option (List Char) :=
  let path := match cut? [':', '/', '/'] url with
    | some (_, rest) => if rest.contains '/' then rest.dropWhile (· != '/') else ['/']
    | none => url
  if path.contains '/' then
    let path := path.dropWhile (· != '/')
    some (dropTrailingSlashes (path.takeWhile fun c => c != '?' && c != '#'))
  else none

/-- The path template of a URL expression: concatenation, interpolation and format verbs become
holes, and a leading base URL is left out. None if no path starting with a slash can be told. -/
def pathTemplate? (expr : List Char) : Option (List Char) :=
  (outside false false (unwrapped (trim expr))).bind urlPath?

end Concord.Literal
