/-! Texts are written as bytes and read back. Reading is total: a byte that starts no character
becomes the replacement character, so a text that was written is read back unchanged. -/
namespace Concord.Text

def encode (t : List Char) : List UInt8 := t.flatMap String.utf8EncodeChar

def isTail (b : UInt8) : Bool := b.toNat / 64 == 2

def tailBits (b : UInt8) : Nat := b.toNat % 64

/-- The first character of a byte sequence and the bytes after it; none when the sequence is empty
or does not start with a character. -/
def decodeChar? : List UInt8 → Option (Char × List UInt8)
  | [] => none
  | a :: rest =>
    let n := a.toNat
    if n < 0x80 then some (Char.ofNat n, rest)
    else if 0xC2 ≤ n && n < 0xE0 then
      match rest with
      | b :: rest => if isTail b then some (Char.ofNat (n % 32 * 64 + tailBits b), rest) else none
      | _ => none
    else if 0xE0 ≤ n && n < 0xF0 then
      match rest with
      | b :: c :: rest =>
        let v := n % 16 * 4096 + tailBits b * 64 + tailBits c
        if isTail b && isTail c && 0x800 ≤ v && !(0xD800 ≤ v && v < 0xE000) then
          some (Char.ofNat v, rest)
        else none
      | _ => none
    else if 0xF0 ≤ n && n < 0xF5 then
      match rest with
      | b :: c :: d :: rest =>
        let v := n % 8 * 262144 + tailBits b * 4096 + tailBits c * 64 + tailBits d
        if isTail b && isTail c && isTail d && 0x10000 ≤ v && v < 0x110000 then
          some (Char.ofNat v, rest)
        else none
      | _ => none
    else none

theorem decodeChar?_shorter {bs rest : List UInt8} {c : Char}
    (h : decodeChar? bs = some (c, rest)) : rest.length < bs.length := by
  unfold decodeChar? at h
  grind

def decode? (bs : List UInt8) : Option (List Char) :=
  match h : decodeChar? bs with
  | some (c, rest) =>
    have := decodeChar?_shorter h
    (decode? rest).map (c :: ·)
  | none => if bs.isEmpty then some [] else none
termination_by bs.length

/-- The characters of a byte sequence; a byte that starts none is read as the replacement
character. -/
def decode (bs : List UInt8) : List Char :=
  match h : decodeChar? bs with
  | some (c, rest) =>
    have := decodeChar?_shorter h
    c :: decode rest
  | none =>
    match bs with
    | [] => []
    | _ :: rest => Char.ofNat 0xFFFD :: decode rest
termination_by bs.length

end Concord.Text
