import Concord.Source.Byte

/-! What a language family writes comments and literals with. -/
namespace Concord

structure Lexis where
  lineComment : List UInt8
  blockComment : Option (List UInt8 × List UInt8)
  quotes : List UInt8
  rawQuotes : List UInt8
  multilineQuotes : List UInt8
  /-- Whether a quote written three times opens a literal of its own kind. -/
  tripleQuotes : Bool
  slashLiterals : Bool
  deriving DecidableEq, Repr

namespace Lexis

open Byte

def go : Lexis where
  lineComment := [slash, slash]
  blockComment := some ([slash, star], [star, slash])
  quotes := [doubleQuote, singleQuote, backquote]
  rawQuotes := [backquote]
  multilineQuotes := []
  tripleQuotes := false
  slashLiterals := false

def typeScript : Lexis where
  lineComment := [slash, slash]
  blockComment := some ([slash, star], [star, slash])
  quotes := [doubleQuote, singleQuote, backquote]
  rawQuotes := []
  multilineQuotes := [backquote]
  tripleQuotes := false
  slashLiterals := true

def python : Lexis where
  lineComment := [hash]
  blockComment := none
  quotes := [doubleQuote, singleQuote]
  rawQuotes := []
  multilineQuotes := []
  tripleQuotes := true
  slashLiterals := false

def java : Lexis where
  lineComment := [slash, slash]
  blockComment := some ([slash, star], [star, slash])
  quotes := [doubleQuote, singleQuote]
  rawQuotes := []
  multilineQuotes := []
  tripleQuotes := true
  slashLiterals := false

end Lexis

end Concord
