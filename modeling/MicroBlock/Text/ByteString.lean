/-! Names and texts as they stand in a container: any bytes, usually but not always UTF-8. -/

namespace MicroBlock

/-- A text held as its bytes. -/
structure ByteString where
  bytes : List UInt8
  deriving DecidableEq

namespace ByteString

def ofString (s : String) : ByteString := ⟨s.toUTF8.toList⟩

instance : Coe String ByteString := ⟨ofString⟩
instance : Inhabited ByteString := ⟨⟨[]⟩⟩

/-- One step of reading a text: a character, or a byte that is part of none. -/
inductive Rune where
  | char (c : Char)
  | stray (b : UInt8)
  deriving DecidableEq

namespace Rune

/-- The number of bytes it was read from. -/
def size : Rune → Nat
  | char c => c.utf8Size
  | stray _ => 1

def isStray : Rune → Bool
  | char _ => false
  | stray _ => true

/-- The character it is shown as; a stray byte shows as the replacement character. -/
def shown : Rune → Char
  | char c => c
  | stray _ => Char.ofNat 0xfffd

/-- A text read before, as it is shown. -/
def text (rs : List Rune) : String := String.ofList (rs.map shown)

end Rune

def isContinuation (b : UInt8) : Bool := 0x80 ≤ b && b < 0xc0

/-- The first two bytes of a three-byte character: no overlong form, no surrogate. -/
def startsThree (a b : UInt8) : Bool :=
  (a == 0xe0 && 0xa0 ≤ b && b < 0xc0) || (0xe1 ≤ a && a < 0xed && isContinuation b) ||
  (a == 0xed && 0x80 ≤ b && b < 0xa0) || (0xee ≤ a && a < 0xf0 && isContinuation b)

/-- The first two bytes of a four-byte character: no overlong form, nothing past the last code point. -/
def startsFour (a b : UInt8) : Bool :=
  (a == 0xf0 && 0x90 ≤ b && b < 0xc0) || (0xf1 ≤ a && a < 0xf4 && isContinuation b) ||
  (a == 0xf4 && 0x80 ≤ b && b < 0x90)

/-- The character that starts with byte `a`, and how many of the following bytes belong to it. -/
def character? (a : UInt8) (rest : List UInt8) : Option (Char × Nat) :=
  let low (b : UInt8) : Nat := b.toNat % 64
  if a < 0x80 then some (Char.ofNat a.toNat, 0)
  else match rest with
    | b :: more =>
      if 0xc2 ≤ a && a < 0xe0 && isContinuation b then
        some (Char.ofNat ((a.toNat % 32) * 64 + low b), 1)
      else match more with
        | c :: more =>
          if startsThree a b && isContinuation c then
            some (Char.ofNat ((a.toNat % 16) * 4096 + low b * 64 + low c), 2)
          else match more with
            | d :: _ =>
              if startsFour a b && isContinuation c && isContinuation d then
                some (Char.ofNat ((a.toNat % 8) * 262144 + low b * 4096 + low c * 64 + low d), 3)
              else none
            | [] => none
        | [] => none
    | [] => none

/-- Reads the bytes as UTF-8. A byte that starts no well-formed character stands for itself. -/
def runes : List UInt8 → List Rune
  | [] => []
  | a :: rest =>
    match character? a rest with
    | some (c, used) => .char c :: runes (rest.drop used)
    | none => .stray a :: runes rest
termination_by bytes => bytes.length

/-- The text as it is shown. -/
def display (s : ByteString) : String := Rune.text (runes s.bytes)

instance : ToString ByteString := ⟨display⟩

end ByteString
end MicroBlock
