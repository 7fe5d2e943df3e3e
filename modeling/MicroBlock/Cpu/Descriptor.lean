import MicroBlock.Cpu.Machine

/-! Protected-mode loads of a data or stack segment from the descriptor tables. -/

namespace MicroBlock.Machine

/-- The descriptor table a selector points into. -/
def tableOf (m : Machine) (selector : UInt16) : Option Segment :=
  m.tables.get (if selector &&& 4 != 0 then .ldtr else .gdtr)

/-- The two words of the descriptor that a selector names. -/
def descriptorWords (m : Machine) (selector : UInt16) : Except Fault (UInt32 × UInt32) :=
  let offset := (selector &&& 0xfff8).toUInt32
  let code := selector.toUInt32 &&& 0xfffffffc
  match m.tableOf selector with
  | none => .error (.generalProtection code)
  | some table =>
    if table.limit < offset + 7 then .error (.generalProtection code)
    else
      match m.memory.read (table.base + offset) .dword with
      | .error f => .error f
      | .ok lo =>
        match m.memory.read (table.base + offset + 4) .dword with
        | .error f => .error f
        | .ok hi => .ok (lo, hi)

/-- A stack segment must be writable and of exactly the current privilege. -/
def admitStack (m : Machine) (selector : UInt16) (seg : Segment) : Except Fault Segment :=
  let code := selector.toUInt32 &&& 0xfffffffc
  if selector.toUInt32 &&& 3 ≠ m.cpl ∨ seg.dpl ≠ m.cpl ∨ seg.writable = false then
    .error (.generalProtection code)
  else if seg.present = false then .error (.stackFault code)
  else .ok { seg with stack := true }

/-- A data segment must be readable, and no more privileged than the selector and the processor
    unless it is conforming code. -/
def admitData (m : Machine) (selector : UInt16) (hi : UInt32) (seg : Segment) : Except Fault Segment :=
  let code := selector.toUInt32 &&& 0xfffffffc
  let conforming := seg.code && hi &&& 0x400 != 0
  if seg.code && hi &&& 0x200 == 0 then .error (.generalProtection code)
  else if (seg.dpl < selector.toUInt32 &&& 3 ∨ seg.dpl < m.cpl) ∧ conforming = false then
    .error (.generalProtection code)
  else if seg.present = false then .error (.segmentNotPresent selector)
  else .ok seg

/-- Loads a segment for SS (`stack`) or for a data register. A null selector is allowed for data
    only, and a system descriptor for neither. -/
def loadSegment (m : Machine) (selector : UInt16) (stack : Bool) : Except Fault Segment :=
  if selector &&& 0xfffc = 0 then
    if stack then .error (.generalProtection 0) else .ok { selector, null := true }
  else
    match m.descriptorWords selector with
    | .error f => .error f
    | .ok (lo, hi) =>
      let seg := Segment.ofDescriptor selector lo hi
      if hi &&& 0x1000 = 0 then .error (.generalProtection (selector.toUInt32 &&& 0xfffffffc))
      else if stack then m.admitStack selector seg
      else m.admitData selector hi seg

end MicroBlock.Machine
