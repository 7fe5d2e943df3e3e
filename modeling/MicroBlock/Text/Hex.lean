/-! Numbers and bytes in lower-case hexadecimal. -/

namespace MicroBlock.Text

def hexDigit (n : Nat) : Char :=
  if n < 10 then Char.ofNat (48 + n) else Char.ofNat (87 + n)

/-- The fewest hexadecimal digits that write `n`. -/
def hex (n : Nat) : String := String.ofList (Nat.toDigits 16 n)

/-- Hexadecimal digits, filled up with zeros on the left to `width`. -/
def hexPadded (width n : Nat) : String :=
  let digits := Nat.toDigits 16 n
  String.ofList (List.replicate (width - digits.length) '0' ++ digits)

def hexByte (b : UInt8) : List Char := [hexDigit (b.toNat / 16), hexDigit (b.toNat % 16)]

/-- Two digits a byte. -/
def hexBytes (bytes : List UInt8) : String := String.ofList (bytes.flatMap hexByte)

def hexValue? (c : Char) : Option Nat :=
  if '0' ≤ c ∧ c ≤ '9' then some (c.toNat - 48)
  else if 'a' ≤ c ∧ c ≤ 'f' then some (c.toNat - 87)
  else none

/-- Reads what `hexBytes` writes. -/
def bytesOfHex? : List Char → Option (List UInt8)
  | [] => some []
  | hi :: lo :: cs => do
    let hi ← hexValue? hi
    let lo ← hexValue? lo
    let rest ← bytesOfHex? cs
    return UInt8.ofNat (hi * 16 + lo) :: rest
  | [_] => none

end MicroBlock.Text
