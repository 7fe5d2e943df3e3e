import MicroBlock.Helper.Arithmetic
import MicroBlock.Helper.Basic
import MicroBlock.Helper.Flags
import MicroBlock.Microcode.Op

/-! The built-in helpers: arithmetic, flags, and accesses to the processor. -/

namespace MicroBlock

inductive Builtin where
  | add32 | sub32 | and32 | or32 | xor32 | shl32 | shr32 | sar32
  | not32 | neg32 | inc32 | dec32
  | sext8 | sext16 | mask8 | mask16 | hi8 | merge16 | merge8lo | merge8hi
  | mul64u | concat64 | lo32 | hi32 | divq32 | divr32
  | cfAdd | cfSub | ofAdd | ofSub | afAdd | afSub | zf | sf | pf
  | ofInc | ofDec | afInc | afDec | not1 | nonzero
  | branch | retire
  | read (w : Width) | write (w : Width)
  | selector | realSegment (stack : Bool) | protectedSegment (stack : Bool)
  | portIn (w : PortWidth) (checked : Bool) | portOut (w : PortWidth) (checked : Bool)
  | ifChecked
  | route (m : Mode)
  deriving DecidableEq

namespace Builtin

def all : List Builtin :=
  [add32, sub32, and32, or32, xor32, shl32, shr32, sar32, not32, neg32, inc32, dec32,
   sext8, sext16, mask8, mask16, hi8, merge16, merge8lo, merge8hi,
   mul64u, concat64, lo32, hi32, divq32, divr32,
   cfAdd, cfSub, ofAdd, ofSub, afAdd, afSub, zf, sf, pf, ofInc, ofDec, afInc, afDec, not1, nonzero,
   branch, retire,
   read .byte, read .word, read .dword, write .byte, write .word, write .dword,
   selector, realSegment false, realSegment true, protectedSegment false, protectedSegment true,
   portIn .byte false, portIn .dword false, portOut .byte false, portOut .dword false,
   portIn .byte true, portIn .dword true, portOut .byte true, portOut .dword true,
   ifChecked, route .real, route .protected_, route .vm86]

def name : Builtin → String
  | add32 => "add32" | sub32 => "sub32" | and32 => "and32" | or32 => "or32" | xor32 => "xor32"
  | shl32 => "shl32" | shr32 => "shr32" | sar32 => "sar32"
  | not32 => "not32" | neg32 => "neg32" | inc32 => "inc32" | dec32 => "dec32"
  | sext8 => "sext8" | sext16 => "sext16" | mask8 => "mask8" | mask16 => "mask16" | hi8 => "hi8"
  | merge16 => "merge16" | merge8lo => "merge8lo" | merge8hi => "merge8hi"
  | mul64u => "mul64u" | concat64 => "concat64" | lo32 => "lo32" | hi32 => "hi32"
  | divq32 => "divq32" | divr32 => "divr32"
  | cfAdd => "cf_add" | cfSub => "cf_sub" | ofAdd => "of_add" | ofSub => "of_sub"
  | afAdd => "af_add" | afSub => "af_sub" | zf => "zf" | sf => "sf" | pf => "pf"
  | ofInc => "of_inc" | ofDec => "of_dec" | afInc => "af_inc" | afDec => "af_dec"
  | not1 => "not1" | nonzero => "nonzero" | branch => "branch" | retire => "retire"
  | read .byte => "read8" | read .word => "read16" | read .dword => "read32"
  | write .byte => "write8" | write .word => "write16" | write .dword => "write32"
  | selector => "selector"
  | realSegment false => "real_segment" | realSegment true => "real_stack_segment"
  | protectedSegment false => "protected_segment" | protectedSegment true => "protected_stack_segment"
  | portIn .byte false => "in8" | portIn .dword false => "in32"
  | portIn .byte true => "in8_checked" | portIn .dword true => "in32_checked"
  | portOut .byte false => "out8" | portOut .dword false => "out32"
  | portOut .byte true => "out8_checked" | portOut .dword true => "out32_checked"
  | ifChecked => "if_checked"
  | route .real => "route_real_fault"
  | route .protected_ => "route_protected_fault"
  | route .vm86 => "route_vm86_fault"

def arity : Builtin → Int
  | not32 | neg32 | inc32 | dec32 | sext8 | sext16 | mask8 | mask16 | hi8 | lo32 | hi32 => 1
  | pf | ofInc | ofDec | afInc | afDec | not1 | nonzero | retire | selector | realSegment _ => 1
  | cfAdd | cfSub | ofAdd | ofSub | afAdd | afSub | branch | read _ | ifChecked => 3
  | write _ => 4
  | portIn _ checked => if checked then 4 else 2
  | portOut _ checked => if checked then 5 else 3
  | _ => 2

def result : Builtin → Kind
  | mul64u | concat64 => .long
  | realSegment _ | protectedSegment _ => .ref
  | retire | write _ | portOut _ _ | route _ => .void
  | _ => .int

/-! ### Argument access -/

/-- The value at a place among the arguments. -/
def arg (args : List Value) (i : Nat) : Except Failure Value :=
  match args[i]? with
  | some v => .ok v
  | none => .error .crash

def word (args : List Value) (i : Nat) : Except Failure UInt32 := (arg args i).map Value.toUInt32

/-- The first argument must be the processor. -/
def cpu (name : String) (args : List Value) : Except Failure Unit := do
  match ← arg args 0 with
  | .cpu => return ()
  | _ => throw (.error (.notCpu name))

def ofFault {α : Type} : Except Fault α → Except Failure α
  | .ok a => .ok a
  | .error f => .error (.fault f)

/-- Port accesses and changes of the interrupt flag need a privilege of at least IOPL. -/
def privileged (cpl iopl : UInt32) : Except Failure Unit :=
  if iopl < cpl then .error (.fault (.generalProtection 0)) else .ok ()

/-! ### Bodies by shape -/

def unary (f : UInt32 → UInt32) : Body := fun args m => do
  return (.ofUInt32 (f (← word args 0)), m)

def binary (f : UInt32 → UInt32 → UInt32) : Body := fun args m => do
  return (.ofUInt32 (f (← word args 0) (← word args 1)), m)

def test1 (f : UInt32 → Bool) : Body := fun args m => do
  return (.ofBool (f (← word args 0)), m)

def test2 (f : UInt32 → UInt32 → Bool) : Body := fun args m => do
  return (.ofBool (f (← word args 0) (← word args 1)), m)

def test3 (f : UInt32 → UInt32 → UInt32 → Bool) : Body := fun args m => do
  return (.ofBool (f (← word args 0) (← word args 1) (← word args 2)), m)

def divideBody (pick : UInt32 × UInt32 → UInt32) : Body := fun args m => do
  let dividend := (← arg args 0).toUInt64
  let r ← ofFault (Arithmetic.divide dividend (← word args 1))
  return (.ofUInt32 (pick r), m)

def branchBody : Body := fun args m => do
  if (← word args 0) != 0 then return (← arg args 2, m) else return (← arg args 1, m)

def retireBody (name : String) : Body := fun args m => do
  cpu name args
  return (.zero, { m with retired := m.retired + 1 })

def readBody (name : String) (w : Width) : Body := fun args m => do
  cpu name args
  let seg := (← arg args 1).segment?
  let a ← ofFault (Segment.linear? seg (← word args 2) w.bytes.toUInt64 false)
  return (.ofUInt32 (← ofFault (m.memory.read a w)), m)

def writeBody (name : String) (w : Width) : Body := fun args m => do
  cpu name args
  let seg := (← arg args 1).segment?
  let a ← ofFault (Segment.linear? seg (← word args 2) w.bytes.toUInt64 true)
  let memory ← ofFault (m.memory.write a w (← word args 3))
  return (.zero, { m with memory })

def selectorBody : Body := fun args m => do
  match (← arg args 0).segment? with
  | none => return (.zero, m)
  | some s => return (.ofUInt32 s.selector.toUInt32, m)

def realSegmentBody (stack : Bool) : Body := fun args m => do
  return (.segment (some { Segment.real (← word args 0).toUInt16 with stack }), m)

def protectedSegmentBody (name : String) (stack : Bool) : Body := fun args m => do
  cpu name args
  let s ← ofFault (m.loadSegment (← word args 1).toUInt16 stack)
  return (.segment (some s), m)

/-- Without a port bus every line reads as one. -/
def portInBody (name : String) (w : PortWidth) (checked : Bool) : Body := fun args m => do
  cpu name args
  if checked then privileged (← word args 2) (← word args 3)
  match m.ports with
  | none => return (.ofUInt32 w.width.mask, m)
  | some p =>
    let (v, p) := p.input (← word args 1).toUInt16 w.width.bytes
    return (.ofUInt32 v, { m with ports := some p })

def portOutBody (name : String) (w : PortWidth) (checked : Bool) : Body := fun args m => do
  cpu name args
  if checked then privileged (← word args 3) (← word args 4)
  match m.ports with
  | none => return (.zero, m)
  | some p =>
    let port := (← word args 1).toUInt16
    let v := (← word args 2) &&& w.width.mask
    return (.zero, { m with ports := some (p.output port w.width.bytes v) })

def ifCheckedBody : Body := fun args m => do
  privileged (← word args 0) (← word args 1)
  return (.ofUInt32 ((← word args 2) &&& 1), m)

def routeBody (name : String) (mode : Mode) : Body := fun args m => do
  cpu name args
  match ← arg args 1 with
  | .fault f =>
    match m.route mode f with
    | .ok m => return (.zero, m)
    | .error .nothing => throw .crash
    | .error e => throw (.error (.rejected e))
  | _ => throw (.error (.noPendingFault name))

def body (b : Builtin) : Body :=
  match b with
  | add32 => binary (· + ·)
  | sub32 => binary (· - ·)
  | and32 => binary (· &&& ·)
  | or32 => binary (· ||| ·)
  | xor32 => binary (· ^^^ ·)
  | shl32 => binary Arithmetic.shl
  | shr32 => binary Arithmetic.shr
  | sar32 => binary Arithmetic.sar
  | not32 => unary (~~~ ·)
  | neg32 => unary (- ·)
  | inc32 => unary (· + 1)
  | dec32 => unary (· - 1)
  | sext8 => unary Arithmetic.signExtend8
  | sext16 => unary Arithmetic.signExtend16
  | mask8 => unary (· &&& 0xff)
  | mask16 => unary (· &&& 0xffff)
  | hi8 => unary Arithmetic.highByte
  | merge16 => binary Arithmetic.mergeHalf
  | merge8lo => binary Arithmetic.mergeLow
  | merge8hi => binary Arithmetic.mergeHigh
  | mul64u => fun args m => do return (.word (Arithmetic.mulWide (← word args 0) (← word args 1)), m)
  | concat64 => fun args m => do return (.word (Arithmetic.concat (← word args 0) (← word args 1)), m)
  | lo32 => unary id
  | hi32 => fun args m => do return (.ofUInt32 ((← arg args 0).toUInt64 >>> 32).toUInt32, m)
  | divq32 => divideBody Prod.fst
  | divr32 => divideBody Prod.snd
  | cfAdd => test3 Flags.carryAdd
  | cfSub => test3 Flags.carrySub
  | ofAdd => test3 Flags.overflowAdd
  | ofSub => test3 Flags.overflowSub
  | afAdd => test3 fun res op _ => Flags.adjustAdd res op
  | afSub => test3 fun res op _ => Flags.adjustSub res op
  | zf => test2 Flags.isZero
  | sf => test2 Flags.isNegative
  | pf => test1 Flags.parity
  | ofInc => test1 (· == 0x80000000)
  | ofDec => test1 (· == 0x7fffffff)
  | afInc => test1 fun res => res &&& 0xf == 0
  | afDec => test1 fun res => res &&& 0xf == 0xf
  | not1 => test1 fun v => v &&& 1 == 0
  | nonzero => test1 (· != 0)
  | branch => branchBody
  | retire => retireBody b.name
  | read w => readBody b.name w
  | write w => writeBody b.name w
  | selector => selectorBody
  | realSegment stack => realSegmentBody stack
  | protectedSegment stack => protectedSegmentBody b.name stack
  | portIn w checked => portInBody b.name w checked
  | portOut w checked => portOutBody b.name w checked
  | ifChecked => ifCheckedBody
  | route mode => routeBody b.name mode

def helper (b : Builtin) : Helper := ⟨b.name, b.arity, b.result, b.body⟩

end Builtin

/-- The registry of the built-in helpers. -/
def Registry.builtin : Registry := ⟨Builtin.all.map Builtin.helper⟩

end MicroBlock
