import MicroBlock.Cpu.Fault

/-! The word functions behind the arithmetic helpers. -/

namespace MicroBlock.Arithmetic

/-- Shift counts use their low five bits. -/
def shl (a c : UInt32) : UInt32 := a <<< (c &&& 31)

def shr (a c : UInt32) : UInt32 := a >>> (c &&& 31)

/-- Shift right that repeats the sign bit. -/
def sar (a c : UInt32) : UInt32 := (a.toInt32 >>> (c &&& 31).toInt32).toUInt32

def signExtend8 (a : UInt32) : UInt32 := a.toUInt8.toInt8.toInt32.toUInt32

def signExtend16 (a : UInt32) : UInt32 := a.toUInt16.toInt16.toInt32.toUInt32

def highByte (a : UInt32) : UInt32 := (a >>> 8) &&& 0xff

/-- Replaces the low half. -/
def mergeHalf (old v : UInt32) : UInt32 := (old &&& 0xffff0000) ||| (v &&& 0xffff)

/-- Replaces the lowest byte. -/
def mergeLow (old v : UInt32) : UInt32 := (old &&& 0xffffff00) ||| (v &&& 0xff)

/-- Replaces the second byte. -/
def mergeHigh (old v : UInt32) : UInt32 := (old &&& 0xffff00ff) ||| ((v &&& (0xff : UInt32)) <<< (8 : UInt32))

def mulWide (a b : UInt32) : UInt64 := a.toUInt64 * b.toUInt64

def concat (hi lo : UInt32) : UInt64 := (hi.toUInt64 <<< 32) ||| lo.toUInt64

/-- Quotient and remainder of a long by a word. A zero divisor and a quotient of more than 32 bits
    are a divide error. -/
def divide (dividend : UInt64) (divisor : UInt32) : Except Fault (UInt32 × UInt32) :=
  if divisor = 0 then .error .divideError
  else
    let q := dividend / divisor.toUInt64
    if 0xffffffff < q then .error .divideError
    else .ok (q.toUInt32, (dividend % divisor.toUInt64).toUInt32)

end MicroBlock.Arithmetic
