import Concord.Toml.Blank

/-! Texts in double quotes have escapes, those in single quotes have none. Three quotes enclose a
text of several lines, which may itself hold one or two of them in a row. -/
namespace Concord.Toml

open Text

def hexValue? (c : Char) : Option Nat :=
  if isAsciiDigit c then some (c.toNat - '0'.toNat)
  else if 'a' ≤ c && c ≤ 'f' then some (c.toNat - 'a'.toNat + 10)
  else if 'A' ≤ c && c ≤ 'F' then some (c.toNat - 'A'.toNat + 10)
  else none

def codePoint? (digits : List Char) : Option Char :=
  (digits.mapM hexValue?).bind fun ds =>
    let n := ds.foldl (fun n d => 16 * n + d) 0
    if h : n.isValidChar then some (Char.ofNatAux n h) else none

/-- The character of an escape, and what follows the escape. The text starts after the backslash. -/
def escape? : List Char → Option (Char × List Char)
  | 'b' :: t => some ('\x08', t)
  | 'f' :: t => some ('\x0c', t)
  | 'n' :: t => some ('\n', t)
  | 'r' :: t => some ('\r', t)
  | 't' :: t => some ('\t', t)
  | '\\' :: t => some ('\\', t)
  | '"' :: t => some ('"', t)
  | 'u' :: t => if t.length < 4 then none else (codePoint? (t.take 4)).map (·, t.drop 4)
  | 'U' :: t => if t.length < 8 then none else (codePoint? (t.take 8)).map (·, t.drop 8)
  | _ => none

def basicFrom : (fuel : Nat) → (acc : List Char) → List Char → Option (List Char × List Char)
  | 0, _, _ => none
  | _ + 1, acc, '"' :: t => some (acc.reverse, t)
  | fuel + 1, acc, '\\' :: t => (escape? t).bind fun (c, t) => basicFrom fuel (c :: acc) t
  | fuel + 1, acc, c :: t => if isPrintable c then basicFrom fuel (c :: acc) t else none
  | _ + 1, _, [] => none

def basic? : List Char → Option (List Char × List Char)
  | '"' :: t => basicFrom (t.length + 1) [] t
  | _ => none

def literal? : List Char → Option (List Char × List Char)
  | '\'' :: t =>
    match t.dropWhile fun c => isPrintable c && c != '\'' with
    | '\'' :: rest => some (t.takeWhile fun c => isPrintable c && c != '\'', rest)
    | _ => none
  | _ => none

/-- The end of a text of several lines: three quotes close it, and up to two before them belong to
it. None if the text goes on. -/
def closing? (quote : Char) (t : List Char) : Option (List Char × List Char) :=
  let run := t.takeWhile (· == quote)
  if run.length < 3 then none
  else
    let inside := min 2 (run.length - 3)
    some (List.replicate inside quote, t.drop (inside + 3))

def multilineFrom (quote : Char) : (fuel : Nat) → (acc : List Char) → List Char →
    Option (List Char × List Char)
  | 0, _, _ => none
  | fuel + 1, acc, t =>
    match closing? quote t with
    | some (inside, rest) => some (acc.reverse ++ inside, rest)
    | none =>
      match newline? t with
      | some t => multilineFrom quote fuel ('\n' :: acc) t
      | none =>
        match t with
        | [] => none
        | '\\' :: t =>
          if quote == '\'' then multilineFrom quote fuel ('\\' :: acc) t
          else
            match newline? (dropSpace t) with
            | some t => multilineFrom quote fuel acc (dropNewlines t.length t)
            | none => (escape? t).bind fun (c, t) => multilineFrom quote fuel (c :: acc) t
        | c :: t => if isPrintable c then multilineFrom quote fuel (c :: acc) t else none

/-- A text of several lines, from after its opening quotes on, and what follows it. The end of a line
right after the quotes does not count. -/
def multiline? (quote : Char) (t : List Char) : Option (List Char × List Char) :=
  let t := (newline? t).getD t
  multilineFrom quote (t.length + 1) [] t

def quoted? : List Char → Option (List Char × List Char)
  | '"' :: '"' :: '"' :: t => multiline? '"' t
  | '\'' :: '\'' :: '\'' :: t => multiline? '\'' t
  | '"' :: t => basic? ('"' :: t)
  | t => literal? t

end Concord.Toml
