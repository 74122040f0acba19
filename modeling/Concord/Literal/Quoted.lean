import Concord.Text.Basic

/-! # Quoted literals -/
namespace Concord.Literal

def isQuote (c : Char) : Bool := c == '"' || c == '\'' || c == '`'

def isMark (c : Char) : Bool := c == 'f' || c == 'F' || c == 'r' || c == 'b' || c == 'u'

def dropMark : List Char → List Char
  | c :: q :: rest => if isMark c && (q == '"' || q == '\'') then q :: rest else c :: q :: rest
  | t => t

/-- The contents of a simple quoted literal. None for any other text, and for a literal that holds
its own quote or a part to be filled in. -/
def quoted? (text : List Char) : Option (List Char) :=
  let text := Text.trim text
  let interpolated := text.head? == some 'f' || text.head? == some 'F'
  match dropMark text with
  | q :: c :: rest =>
    let tail := c :: rest
    let inner := tail.dropLast
    if !isQuote q || tail.getLast? != some q then none
    else if inner.contains q || (q == '`' && Text.contains "$\x7b" inner) ||
        (interpolated && inner.contains '{') then none
    else some inner
  | _ => none

end Concord.Literal
