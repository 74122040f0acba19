/-! All of them are ASCII, so they never occur inside another character. -/
namespace Concord.Byte

def newline : UInt8 := 0x0A
def space : UInt8 := 0x20
def doubleQuote : UInt8 := 0x22
def hash : UInt8 := 0x23
def singleQuote : UInt8 := 0x27
def openParen : UInt8 := 0x28
def closeParen : UInt8 := 0x29
def star : UInt8 := 0x2A
def comma : UInt8 := 0x2C
def slash : UInt8 := 0x2F
def colon : UInt8 := 0x3A
def semicolon : UInt8 := 0x3B
def less : UInt8 := 0x3C
def equals : UInt8 := 0x3D
def greater : UInt8 := 0x3E
def openBracket : UInt8 := 0x5B
def backslash : UInt8 := 0x5C
def closeBracket : UInt8 := 0x5D
def backquote : UInt8 := 0x60
def openBrace : UInt8 := 0x7B
def closeBrace : UInt8 := 0x7D

def ofChar (c : Char) : UInt8 := c.toNat.toUInt8

def toChar (b : UInt8) : Char := Char.ofNat b.toNat

def isBlank (b : UInt8) : Bool := b == 0x09 || b == 0x0A || b == 0x0C || b == 0x0D || b == 0x20

def isOpener (b : UInt8) : Bool := b == openParen || b == openBracket || b == openBrace

def isCloser (b : UInt8) : Bool := b == closeParen || b == closeBracket || b == closeBrace

def closerOf? (b : UInt8) : Option UInt8 :=
  if b == openParen then some closeParen
  else if b == openBracket then some closeBracket
  else if b == openBrace then some closeBrace
  else none

def depthStep (b : UInt8) : Int := if isOpener b then 1 else if isCloser b then -1 else 0

def total (weight : UInt8 → Int) (bs : List UInt8) : Int := bs.foldr (fun b n => weight b + n) 0

/-- A byte as it is shown where its text is hidden: newlines stay, all else is a space. -/
def hide (b : UInt8) : UInt8 := if b == newline then b else space

end Concord.Byte
