import MicroBlock.Cpu.Mode
import MicroBlock.Text.Hex

/-! Guest exceptions and their delivery. A fault is ordinary control flow of the emulated processor. -/

namespace MicroBlock

structure Fault where
  vector : UInt8
  code : UInt32 := 0
  hasCode : Bool := false
  /-- The faulting linear address of a page fault. -/
  address : UInt32 := 0
  deriving DecidableEq

namespace Fault

def divideError : Fault := { vector := 0 }

def generalProtection (code : UInt32) : Fault := { vector := 13, code, hasCode := true }

def stackFault (code : UInt32) : Fault := { vector := 12, code, hasCode := true }

/-- The error code is the selector without its privilege bits. -/
def segmentNotPresent (selector : UInt16) : Fault :=
  { vector := 11, code := selector.toUInt32 &&& 0xfffffffc, hasCode := true }

def pageFault (address : UInt32) (write : Bool) : Fault :=
  { vector := 14, code := if write then 2 else 0, hasCode := true, address }

def vectorName (v : UInt8) : String :=
  if v = 0 then "#DE"
  else if v = 6 then "#UD"
  else if v = 11 then "#NP"
  else if v = 12 then "#SS"
  else if v = 13 then "#GP"
  else if v = 14 then "#PF"
  else "#" ++ toString v.toNat

/-- A page fault tells its address, and any other fault its code if it has one. -/
def message (f : Fault) : String :=
  if f.vector = 14 then
    vectorName f.vector ++ " at 0x" ++ Text.hexPadded 8 f.address.toNat ++
      " (code 0x" ++ Text.hex f.code.toNat ++ ")"
  else if f.hasCode then vectorName f.vector ++ " (code 0x" ++ Text.hex f.code.toNat ++ ")"
  else vectorName f.vector

end Fault

/-- A fault that reached the processor, with the mode that routed it and the EIP of that moment.
    Code that asks for the pending fault outside any handler delivers no fault. -/
structure Delivery where
  mode : ModeNumber
  fault : Option Fault
  eip : UInt32
  deriving DecidableEq

/-- What becomes of a routed fault: it is queued, dropped, or turned away. -/
inductive Router where
  | queue | absent | reject
  deriving DecidableEq

/-- Why a fault was not routed. -/
inductive Rejection where
  | fault (f : Fault) (mode : ModeNumber)
  /-- A fault was turned away where there was none. -/
  | nothing
  deriving DecidableEq

/-- The words for a rejection; one of nothing has none. -/
def Rejection.message : Rejection → String
  | fault f mode => "router rejects " ++ f.message ++ " in " ++ mode.name ++ " mode"
  | nothing => ""

end MicroBlock
