import MicroBlock.Fragment.Table
import MicroBlock.Helper.Builtin

/-! The built-in lowering tables: for every mode and op, the fragments that compute the elements the
op changes. -/

namespace MicroBlock

namespace Mode

/-- Real and virtual-8086 mode keep the stack pointer and jump targets to 16 bits. -/
def wraps16 : Mode → Bool
  | protected_ => false
  | _ => true

/-- Protected and virtual-8086 mode check privilege before port accesses and changes of IF. -/
def checksPrivilege : Mode → Bool
  | real => false
  | _ => true

end Mode

namespace ModeNumber

/-- The helper that the exception handlers of a mode call. A number outside the modes is treated as
    real mode. -/
def routeHelper (n : ModeNumber) : String := (Builtin.route (n.mode?.getD .real)).name

end ModeNumber

namespace Lowering

/-- A fragment under the name that its parts spell. -/
def fragment (cls : EffectClass) (op : Op) (target : Element) (inputs : List Element)
    (steps : List Step) : Fragment :=
  { cls, op, target, inputs, name := Signature.name ⟨cls, op, target, inputs⟩, steps }

def call (b : Builtin) : Step := .call b.name

def const (v : Int) : Step := .literal (.const v)

def imm : Step := .literal .immediate

def x86Length : Step := .literal .x86Length

/-- A fragment that applies one helper to all of its inputs. -/
def applied (cls : EffectClass) (op : Op) (target : Element) (inputs : List Element) (b : Builtin) :
    Fragment :=
  fragment cls op target inputs ((List.range inputs.length).map (fun i => .input i) ++ [call b])

/-- A fragment that hands its one input on. -/
def copied (op : Op) (target source : Element) : Fragment :=
  fragment .pure op target [source] [.input 0]

def constant (op : Op) (target : Element) (v : Int) : Fragment := fragment .pure op target [] [const v]

def immediate (op : Op) (target : Element) : Width → Fragment
  | .byte => fragment .pure op target [] [imm, call .mask8]
  | .word => fragment .pure op target [] [imm, call .mask16]
  | .dword => fragment .pure op target [] [imm]

def load (op : Op) (target : Element) (w : Width) : Fragment :=
  applied .fault op target [.cpu, .seg0, .addr0] (.read w)

def store (op : Op) (source : Element) (w : Width) : Fragment :=
  applied .fault op (.marker .memoryWrite) [.cpu, .seg0, .addr0, source] (.write w)

def addrImmediate (op : Op) (w : Width) : Fragment :=
  fragment .pure op .addr0 [.addr0] <|
    match w with
    | .byte => [.input 0, imm, call .sext8, call .add32]
    | .word => [.input 0, imm, call .sext16, call .add32]
    | .dword => [.input 0, imm, call .add32]

def aluHelper : Alu → Builtin
  | .add => .add32 | .sub => .sub32 | .and_ => .and32 | .or_ => .or32 | .xor => .xor32
  | .shl => .shl32 | .shr => .shr32 | .sar => .sar32

def unaryHelper : Unary → Builtin
  | .not_ => .not32 | .neg => .neg32 | .inc => .inc32 | .dec => .dec32

/-- A flag of the result alone, for a width. -/
def resultFlag (op : Op) (f : Flag) (w : Width) (b : Builtin) : Fragment :=
  fragment .pure op (.flag f) [.reg0] [.input 0, const w.bits, call b]

/-- A flag of the result and the second operand, for a width. -/
def operandFlag (op : Op) (f : Flag) (w : Width) (b : Builtin) : Fragment :=
  fragment .pure op (.flag f) [.reg0, .reg1] [.input 0, .input 1, const w.bits, call b]

def appliedFlag (op : Op) (f : Flag) (b : Builtin) : Fragment := applied .pure op (.flag f) [.reg0] b

def arithmeticFlags (op : Op) (w : Width) (carry adjust overflow : Builtin) : List Fragment :=
  [operandFlag op .cf w carry, appliedFlag op .pf .pf, operandFlag op .af w adjust,
   resultFlag op .zf w .zf, resultFlag op .sf w .sf, operandFlag op .of w overflow]

def bitwiseFlags (op : Op) (w : Width) : List Fragment :=
  [constant op (.flag .cf) 0, appliedFlag op .pf .pf, constant op (.flag .af) 0,
   resultFlag op .zf w .zf, resultFlag op .sf w .sf, constant op (.flag .of) 0]

def stepFlags (op : Op) (adjust overflow : Builtin) : List Fragment :=
  [appliedFlag op .pf .pf, appliedFlag op .af adjust, resultFlag op .zf .dword .zf,
   resultFlag op .sf .dword .sf, appliedFlag op .of overflow]

/-- The stack pointer moved by `delta`. A 16-bit stack pointer wraps inside SP and leaves the top half
    of ESP alone. -/
def movedStack (wraps : Bool) (op : Op) (delta : Int) : Fragment :=
  fragment .pure op (.gpr .esp) [.gpr .esp] <|
    if wraps then [.input 0, .input 0, const delta, call .add32, call .merge16]
    else [.input 0, const delta, call .add32]

def wrapped (wraps : Bool) (steps : List Step) : List Step :=
  if wraps then steps ++ [call .mask16] else steps

/-- Writes below the current top of the stack. -/
def push (wraps : Bool) (w : StackWidth) : List Fragment :=
  let size : Int := w.width.bytes
  [movedStack wraps (.push w) (-size),
   fragment .fault (.push w) (.marker .memoryWrite) [.cpu, .seg .ss, .gpr .esp, .reg0] <|
     [.input 0, .input 1] ++ wrapped wraps [.input 2, const (-size), call .add32] ++
       [.input 3, call (.write w.width)]]

def pop (wraps : Bool) (w : StackWidth) : List Fragment :=
  [movedStack wraps (.pop w) w.width.bytes,
   fragment .fault (.pop w) .reg0 [.cpu, .seg .ss, .gpr .esp] <|
     [.input 0, .input 1] ++ wrapped wraps [.input 2] ++ [call (.read w.width)]]

def jump8 (wraps : Bool) : Fragment :=
  fragment .pure .jump8 .eip [.eip, .reg0] <|
    wrapped wraps [.input 0, x86Length, call .add32, .input 1, call .sext8, call .add32]

def jump32 (wraps : Bool) : Fragment :=
  fragment .pure .jump32 .eip [.eip, .reg0] <|
    wrapped wraps [.input 0, x86Length, call .add32, .input 1, call .add32]

def jumpIf (wraps : Bool) (c : Cond) : Fragment :=
  fragment .pure (.jumpIf c) .eip [.eip, .reg0, .flag c.flag] <|
    wrapped wraps <|
      (if c.negated then [.input 2, call .not1] else [.input 2]) ++
        [.input 0, x86Length, call .add32, .dup, .input 1, call .sext8, call .add32, call .branch]

/-- Loading a segment register checks descriptors in protected mode only. -/
def storeSegment (m : Mode) (s : LoadableSeg) : Fragment :=
  let op := Op.store0Seg s
  let stack := s == .ss
  match m with
  | .protected_ => applied .fault op (.seg s.segReg) [.cpu, .reg0] (.protectedSegment stack)
  | _ => applied .pure op (.seg s.segReg) [.reg0] (.realSegment stack)

def portIn (checks : Bool) (w : PortWidth) : Fragment :=
  if checks then
    applied .fault (.portIn w) .reg0 [.cpu, .reg1, .cpl, .flag .iopl] (.portIn w true)
  else applied .effect (.portIn w) .reg0 [.cpu, .reg1] (.portIn w false)

def portOut (checks : Bool) (w : PortWidth) : Fragment :=
  if checks then
    applied .fault (.portOut w) (.marker .portWrite) [.cpu, .reg1, .reg0, .cpl, .flag .iopl]
      (.portOut w true)
  else
    applied .effect (.portOut w) (.marker .portWrite) [.cpu, .reg1, .reg0] (.portOut w false)

def setInterrupt (checks : Bool) (op : Op) (v : Int) : Fragment :=
  if checks then
    fragment .fault op (.flag .if_) [.cpl, .flag .iopl] [.input 0, .input 1, const v, call .ifChecked]
  else constant op (.flag .if_) v

/-- The fragments of an op in a mode, in element order. Returns and halts are left to a full decoder. -/
def targets (m : Mode) (op : Op) : List Fragment :=
  match op with
  | .load0 r => [copied op .reg0 (.gpr r)]
  | .load1 r => [copied op .reg1 (.gpr r)]
  | .store0 r => [copied op (.gpr r) .reg0]
  | .store1 r => [copied op (.gpr r) .reg1]
  | .load0Half r => [applied .pure op .reg0 [.gpr r] .mask16]
  | .store0Half r => [applied .pure op (.gpr r) [.gpr r, .reg0] .merge16]
  | .load0Byte r => [applied .pure op .reg0 [.gpr r.whole] (if r.isHigh then .hi8 else .mask8)]
  | .store0Byte r =>
    [applied .pure op (.gpr r.whole) [.gpr r.whole, .reg0] (if r.isHigh then .merge8hi else .merge8lo)]
  | .load1Cl => [applied .pure op .reg1 [.gpr .ecx] .mask8]
  | .load0Imm w => [immediate op .reg0 w]
  | .load1Imm w => [immediate op .reg1 w]
  | .useSeg s => [copied op .seg0 (.seg s)]
  | .load0Seg s => [applied .pure op .reg0 [.seg s] .selector]
  | .store0Seg s => [storeSegment m s]
  | .addrReset => [constant op .addr0 0]
  | .addrReg r => [applied .pure op .addr0 [.addr0, .gpr r] .add32]
  | .addrImm w => [addrImmediate op w]
  | .addrMask16 => [applied .pure op .addr0 [.addr0] .mask16]
  | .load0Mem w => [load op .reg0 w]
  | .load1Mem w => [load op .reg1 w]
  | .store0Mem w => [store op .reg0 w]
  | .store1Mem => [store op .reg1 .dword]
  | .alu a => [applied .pure op .reg0 [.reg0, .reg1] (aluHelper a)]
  | .unary u => [applied .pure op .reg0 [.reg0] (unaryHelper u)]
  | .signExtend8 => [applied .pure op .reg0 [.reg0] .sext8]
  | .signExtend16 => [applied .pure op .reg0 [.reg0] .sext16]
  | .addFlags w => arithmeticFlags op w .cfAdd .afAdd .ofAdd
  | .subFlags w => arithmeticFlags op w .cfSub .afSub .ofSub
  | .bitwiseFlags w => bitwiseFlags op w
  | .incFlags => stepFlags op .afInc .ofInc
  | .decFlags => stepFlags op .afDec .ofDec
  | .clc => [constant op (.flag .cf) 0]
  | .stc => [constant op (.flag .cf) 1]
  | .cmc => [applied .pure op (.flag .cf) [.flag .cf] .not1]
  | .cld => [constant op (.flag .df) 0]
  | .std => [constant op (.flag .df) 1]
  | .cli => [setInterrupt m.checksPrivilege op 0]
  | .sti => [setInterrupt m.checksPrivilege op 1]
  | .mul => [applied .pure op .long0 [.reg0, .reg1] .mul64u]
  | .mulFlags =>
    [fragment .pure op (.flag .cf) [.long0] [.input 0, call .hi32, call .nonzero],
     fragment .pure op (.flag .of) [.long0] [.input 0, call .hi32, call .nonzero]]
  | .loadPair => [applied .pure op .long0 [.gpr .edx, .gpr .eax] .concat64]
  | .storePair =>
    [applied .pure op (.gpr .eax) [.long0] .lo32, applied .pure op (.gpr .edx) [.long0] .hi32]
  | .div =>
    [applied .fault op .reg0 [.long0, .reg1] .divq32, applied .fault op .reg1 [.long0, .reg1] .divr32]
  | .push w => push m.wraps16 w
  | .pop w => pop m.wraps16 w
  | .portIn w => [portIn m.checksPrivilege w]
  | .portOut w => [portOut m.checksPrivilege w]
  | .eipUpdate => [fragment .pure op .eip [.eip] [.input 0, x86Length, call .add32]]
  | .jump8 => [jump8 m.wraps16]
  | .jump32 => [jump32 m.wraps16]
  | .jumpIf c => [jumpIf m.wraps16 c]
  | .retired => [applied .effect op (.marker .executeCount) [.cpu] .retire]
  | .ret16 | .ret32 | .halt => []

/-- The lowering table of a mode. -/
def table (m : Mode) : Table where
  name := m.name
  targets := targets m

end Lowering
end MicroBlock
