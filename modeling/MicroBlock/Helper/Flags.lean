/-! The flag functions. Each recovers its flag from the result and the second operand of an
operation; the first operand follows from them. Widths are 8, 16 or 32, and any other number is taken
as it comes. -/

namespace MicroBlock.Flags

def widthMask (width : UInt32) : UInt32 :=
  if 32 ≤ width then 0xffffffff else ((1 : UInt32) <<< width) - 1

/-- The top bit of a width; a shift of 32 or more places leaves nothing. -/
def signBit (width : UInt32) : UInt32 :=
  if 32 ≤ width - 1 then 0 else (1 : UInt32) <<< (width - 1)

def carryAdd (res op w : UInt32) : Bool := res &&& widthMask w < op &&& widthMask w

def carrySub (res op w : UInt32) : Bool := (res + op) &&& widthMask w < op &&& widthMask w

def overflowAdd (res op w : UInt32) : Bool :=
  (((res - op) ^^^ res) &&& (op ^^^ res)) &&& signBit w != 0

def overflowSub (res op w : UInt32) : Bool :=
  (((res + op) ^^^ op) &&& ((res + op) ^^^ res)) &&& signBit w != 0

def adjustAdd (res op : UInt32) : Bool := ((res - op) ^^^ op ^^^ res) &&& 0x10 != 0

def adjustSub (res op : UInt32) : Bool := ((res + op) ^^^ op ^^^ res) &&& 0x10 != 0

def isZero (res w : UInt32) : Bool := res &&& widthMask w == 0

def isNegative (res w : UInt32) : Bool := res &&& signBit w != 0

/-- The number of ones in the low byte. -/
def lowOnes (v : UInt32) : Nat := ((List.range 8).filter v.toNat.testBit).length

/-- Even parity of the low byte. -/
def parity (res : UInt32) : Bool := lowOnes res % 2 == 0

end MicroBlock.Flags
