import Concord.Source.Lexis

/-! A text is cut into comments, literals and plain bytes. Each token holds the bytes it covers, so
the tokens of a text concatenate to it, and it has two views of the same length: `code` hides
comments, `skeleton` hides comments and the contents of literals. -/
namespace Concord.Source

inductive Token
  | comment (opening body closing : List UInt8)
  | literal (opening body closing : List UInt8)
  | plain (byte : UInt8)
  deriving DecidableEq, Repr

namespace Token

def text : Token → List UInt8
  | .comment o b c => o ++ b ++ c
  | .literal o b c => o ++ b ++ c
  | .plain b => [b]

def code : Token → List UInt8
  | .comment o b c => (o ++ b ++ c).map Byte.hide
  | .literal o b c => o ++ b ++ c
  | .plain b => [b]

/-- The token with its text hidden if it is a comment, and its contents if it is a literal. -/
def skeleton : Token → List UInt8
  | .comment o b c => (o ++ b ++ c).map Byte.hide
  | .literal o b c => o ++ b.map Byte.hide ++ c
  | .plain b => [b]

def size (t : Token) : Nat := t.text.length

end Token

inductive Open
  | comment
  | literal
  deriving DecidableEq, Repr

def upTo? (mark : List UInt8) : List UInt8 → Option (List UInt8)
  | [] => if mark.isEmpty then some [] else none
  | b :: rest => if mark.isPrefixOf (b :: rest) then some [] else (upTo? mark rest).map (b :: ·)

/-- The contents of a literal that ends at the next `mark`; a backslash takes the byte after it
along. -/
def escapedBody? (mark : List UInt8) : List UInt8 → Option (List UInt8)
  | [] => none
  | b :: rest =>
    if b == Byte.backslash then
      match rest with
      | [] => none
      | c :: rest => (escapedBody? mark rest).map fun body => b :: c :: body
    else if mark.isPrefixOf (b :: rest) then some []
    else (escapedBody? mark rest).map (b :: ·)

def quotedBody? (quote : UInt8) (raw multiline : Bool) : List UInt8 → Option (List UInt8)
  | [] => none
  | b :: rest =>
    if b == Byte.backslash && !raw then
      match rest with
      | [] => none
      | c :: rest => (quotedBody? quote raw multiline rest).map fun body => b :: c :: body
    else if b == quote then some []
    else if b == Byte.newline && !multiline then none
    else (quotedBody? quote raw multiline rest).map (b :: ·)

/-- The contents of a slash literal that ends on its line. A slash inside a bracketed class does
not end it. -/
def slashBody? (inClass : Bool) : List UInt8 → Option (List UInt8)
  | [] => none
  | b :: rest =>
    if b == Byte.newline then none
    else if b == Byte.backslash then
      match rest with
      | [] => none
      | c :: rest => (slashBody? inClass rest).map fun body => b :: c :: body
    else if b == Byte.openBracket then (slashBody? true rest).map (b :: ·)
    else if b == Byte.closeBracket then (slashBody? false rest).map (b :: ·)
    else if b == Byte.slash && !inClass then some []
    else (slashBody? inClass rest).map (b :: ·)

/-- The bytes after which a slash opens a literal: those that cannot end an operand. -/
def beforeSlash : List UInt8 :=
  ['(', ',', '=', ':', '[', '!', '&', '|', '?', '{', '}', ';', '+', '-', '*', '%', '<', '>', '~',
    '^'].map Byte.ofChar

/-- Whether a slash after the significant byte `last` opens a literal. -/
def slashOpens (last : Option UInt8) : Bool := last.all beforeSlash.contains

/-- The last significant byte of a view, or `last` if it has none. -/
def lastSignificant (last : Option UInt8) (view : List UInt8) : Option UInt8 :=
  view.foldl (fun l b => if Byte.isBlank b then l else some b) last

def tripleQuote? (lx : Lexis) : List UInt8 → Option (List UInt8)
  | a :: b :: c :: _ =>
    if lx.tripleQuotes && a == b && b == c && (a == Byte.doubleQuote || a == Byte.singleQuote) then
      some [a, b, c]
    else none
  | _ => none

def commentAt (lx : Lexis) (bytes : List UInt8) : Option (Except Open Token) :=
  let lc := lx.lineComment
  if !lc.isEmpty && lc.isPrefixOf bytes then
    some (.ok (.comment lc ((bytes.drop lc.length).takeWhile (· != Byte.newline)) []))
  else
    match lx.blockComment with
    | some (o, c) =>
      if o.isPrefixOf bytes then
        match upTo? c (bytes.drop o.length) with
        | some body => some (.ok (.comment o body c))
        | none => some (.error .comment)
      else none
    | none => none

def literalAt (lx : Lexis) (last : Option UInt8) (b : UInt8) (rest : List UInt8) :
    Option (Except Open Token) :=
  match tripleQuote? lx (b :: rest) with
  | some q =>
    match escapedBody? q (rest.drop 2) with
    | some body => some (.ok (.literal q body q))
    | none => some (.error .literal)
  | none =>
    let slashed :=
      if lx.slashLiterals && b == Byte.slash && slashOpens last then
        (slashBody? false rest).filter (!·.isEmpty)
      else none
    match slashed with
    | some body => some (.ok (.literal [b] body [b]))
    | none =>
      if lx.quotes.contains b then
        let raw := lx.rawQuotes.contains b
        match quotedBody? b raw (raw || lx.multilineQuotes.contains b) rest with
        | some body => some (.ok (.literal [b] body [b]))
        | none => some (.error .literal)
      else none

/-- The token at the start of a text, where `last` is the significant byte before it. -/
def tokenAt (lx : Lexis) (last : Option UInt8) (b : UInt8) (rest : List UInt8) :
    Except Open Token :=
  match commentAt lx (b :: rest) with
  | some r => r
  | none =>
    match literalAt lx last b rest with
    | some r => r
    | none => .ok (.plain b)

/-- The tokens of a text up to its end or up to a comment or literal that is never closed; in the
latter case what was left open. -/
def tokens (lx : Lexis) (last : Option UInt8) : List UInt8 → List Token × Option Open
  | [] => ([], none)
  | b :: rest =>
    match tokenAt lx last b rest with
    | .error e => ([], some e)
    | .ok t =>
      let (ts, e) := tokens lx (lastSignificant last t.skeleton) (rest.drop (t.size - 1))
      (t :: ts, e)
termination_by bytes => bytes.length
decreasing_by rw [List.length_drop, List.length_cons]; omega

end Concord.Source
