import MicroBlock.Cpu.Fault

/-! Segment and descriptor-table caches, and the linear addresses that accesses through them reach. -/

namespace MicroBlock

structure Segment where
  selector : UInt16 := 0
  base : UInt32 := 0
  limit : UInt32 := 0
  dpl : UInt32 := 0
  present : Bool := false
  writable : Bool := false
  code : Bool := false
  /-- Loaded into SS: a limit violation is a stack fault. -/
  stack : Bool := false
  /-- A null selector in a data segment register. -/
  null : Bool := false
  deriving DecidableEq

namespace Segment

/-- The cache that real and virtual-8086 mode load for a selector. -/
def real (selector : UInt16) : Segment :=
  { selector, base := selector.toUInt32 <<< 4, limit := 0xffff, present := true, writable := true }

def describe (s : Segment) : String :=
  Text.hexPadded 4 s.selector.toNat ++ "[base=" ++ Text.hexPadded 8 s.base.toNat ++
    " limit=" ++ Text.hexPadded 8 s.limit.toNat ++ "]"

/-- The linear address of an access of `size` bytes at `offset`, or the fault it raises. The last
    byte of the access must not pass the limit; sizes count modulo 2^64. -/
def linear (s : Segment) (offset : UInt32) (size : UInt64) (write : Bool) : Except Fault UInt32 :=
  if s.null then .error (.generalProtection 0)
  else if !s.present then .error (.segmentNotPresent s.selector)
  else if write && !s.writable then .error (.generalProtection 0)
  else if s.limit.toUInt64 < offset.toUInt64 + size - 1 then
    .error (if s.stack then .stackFault 0 else .generalProtection 0)
  else .ok (s.base + offset)

/-- The linear address through a register that may hold no segment at all. -/
def linear? (s : Option Segment) (offset : UInt32) (size : UInt64) (write : Bool) :
    Except Fault UInt32 :=
  match s with
  | none => .error (.generalProtection 0)
  | some s => s.linear offset size write

/-- Unpacks an eight-byte descriptor. A granular limit counts pages. -/
def ofDescriptor (selector : UInt16) (lo hi : UInt32) : Segment :=
  let limit := (lo &&& 0xffff) ||| (hi &&& 0x000f0000)
  let code := hi &&& 0x800 != 0
  { selector
    base := (lo >>> 16) ||| ((hi &&& 0xff) <<< 16) ||| (hi &&& 0xff000000)
    limit := if hi &&& 0x800000 != 0 then (limit <<< 12) ||| 0xfff else limit
    dpl := (hi >>> 13) &&& 3
    present := hi &&& 0x8000 != 0
    code
    writable := !code && hi &&& 0x200 != 0 }

end Segment
end MicroBlock
