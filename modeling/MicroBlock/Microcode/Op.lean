import MicroBlock.Cpu.Element
import MicroBlock.Cpu.Width

/-! The microcode catalogue: what a decoded x86 instruction is made of.

An op is a family with its parameters. Words of a block name ops by their number in the catalogue,
and listings by name. -/

namespace MicroBlock

/-- The byte registers: the low and the high byte of the first four. -/
inductive ByteReg where
  | al | cl | dl | bl | ah | ch | dh | bh
  deriving DecidableEq

namespace ByteReg

def all : List ByteReg := [al, cl, dl, bl, ah, ch, dh, bh]

def index : ByteReg → Nat
  | al => 0 | cl => 1 | dl => 2 | bl => 3 | ah => 4 | ch => 5 | dh => 6 | bh => 7

def name : ByteReg → String
  | al => "AL" | cl => "CL" | dl => "DL" | bl => "BL" | ah => "AH" | ch => "CH" | dh => "DH" | bh => "BH"

/-- The register that holds the byte. -/
def whole : ByteReg → Gpr
  | al | ah => .eax
  | cl | ch => .ecx
  | dl | dh => .edx
  | bl | bh => .ebx

def isHigh : ByteReg → Bool
  | ah | ch | dh | bh => true
  | _ => false

end ByteReg

/-- The segment registers that an op can load: all but CS. -/
inductive LoadableSeg where
  | es | ss | ds | fs | gs
  deriving DecidableEq

namespace LoadableSeg

def all : List LoadableSeg := [es, ss, ds, fs, gs]

def index : LoadableSeg → Nat
  | es => 0 | ss => 1 | ds => 2 | fs => 3 | gs => 4

def segReg : LoadableSeg → SegReg
  | es => .es | ss => .ss | ds => .ds | fs => .fs | gs => .gs

end LoadableSeg

/-- Two-operand arithmetic on the working registers. -/
inductive Alu where
  | add | sub | and_ | or_ | xor | shl | shr | sar
  deriving DecidableEq

/-- One-operand arithmetic on the first working register. -/
inductive Unary where
  | not_ | neg | inc | dec
  deriving DecidableEq

/-- The conditions of the short jumps. -/
inductive Cond where
  | zero | notZero | carry | notCarry | sign | notSign
  deriving DecidableEq

/-- The widths of port accesses and stack operands, which come in two sizes each. -/
inductive PortWidth where
  | byte | dword
  deriving DecidableEq

inductive StackWidth where
  | word | dword
  deriving DecidableEq

namespace Alu

def all : List Alu := [add, sub, and_, or_, xor, shl, shr, sar]

def index : Alu → Nat
  | add => 0 | sub => 1 | and_ => 2 | or_ => 3 | xor => 4 | shl => 5 | shr => 6 | sar => 7

def name : Alu → String
  | add => "ADD" | sub => "SUB" | and_ => "AND" | or_ => "OR" | xor => "XOR" | shl => "SHL" | shr => "SHR"
  | sar => "SAR"

end Alu

namespace Unary

def all : List Unary := [not_, neg, inc, dec]

def index : Unary → Nat
  | not_ => 0 | neg => 1 | inc => 2 | dec => 3

def name : Unary → String
  | not_ => "NOT" | neg => "NEG" | inc => "INC" | dec => "DEC"

end Unary

namespace Cond

def all : List Cond := [zero, notZero, carry, notCarry, sign, notSign]

def index : Cond → Nat
  | zero => 0 | notZero => 1 | carry => 2 | notCarry => 3 | sign => 4 | notSign => 5

def name : Cond → String
  | zero => "JZ" | notZero => "JNZ" | carry => "JC" | notCarry => "JNC" | sign => "JS"
  | notSign => "JNS"

/-- The flag that decides, and whether the jump is taken on a clear flag. -/
def flag : Cond → Flag
  | zero | notZero => .zf
  | carry | notCarry => .cf
  | sign | notSign => .sf

def negated : Cond → Bool
  | notZero | notCarry | notSign => true
  | _ => false

end Cond

namespace Width

def index : Width → Nat
  | byte => 0 | word => 1 | dword => 2

/-- Letter of an immediate of this width. -/
def immName : Width → String
  | byte => "IB" | word => "IW" | dword => "ID"

def memName : Width → String
  | byte => "BYTE" | word => "WORD" | dword => "DWORD"

def operandName (w : Width) : String := "O" ++ toString w.bits

end Width

namespace PortWidth

def width : PortWidth → Width
  | byte => .byte
  | dword => .dword

def index : PortWidth → Nat
  | byte => 0 | dword => 1

end PortWidth

namespace StackWidth

def width : StackWidth → Width
  | word => .word
  | dword => .dword

def index : StackWidth → Nat
  | word => 0 | dword => 1

end StackWidth

inductive Op where
  | load0 (r : Gpr) | load1 (r : Gpr) | store0 (r : Gpr) | store1 (r : Gpr)
  | load0Half (r : Gpr) | store0Half (r : Gpr)
  | load0Byte (r : ByteReg) | store0Byte (r : ByteReg) | load1Cl
  | load0Imm (w : Width) | load1Imm (w : Width)
  /-- Selects the segment of the memory accesses that follow. -/
  | useSeg (s : SegReg)
  /-- Loads the selector of a segment register. -/
  | load0Seg (s : SegReg)
  | store0Seg (s : LoadableSeg)
  | addrReset | addrReg (r : Gpr) | addrImm (w : Width) | addrMask16
  | load0Mem (w : Width) | load1Mem (w : Width) | store0Mem (w : Width) | store1Mem
  | alu (a : Alu) | unary (u : Unary) | signExtend8 | signExtend16
  | addFlags (w : Width) | subFlags (w : Width) | bitwiseFlags (w : Width) | incFlags | decFlags
  | clc | stc | cmc | cld | std | cli | sti
  | mul | mulFlags | loadPair | storePair | div
  | push (w : StackWidth) | pop (w : StackWidth)
  | portIn (w : PortWidth) | portOut (w : PortWidth)
  | eipUpdate | jump8 | jump32 | jumpIf (c : Cond)
  | retired | ret16 | ret32 | halt
  deriving DecidableEq

namespace Op

/-- The catalogue, in number order. -/
def all : List Op :=
  Gpr.all.map load0 ++ Gpr.all.map load1 ++ Gpr.all.map store0 ++ Gpr.all.map store1 ++
  Gpr.all.map load0Half ++ Gpr.all.map store0Half ++
  ByteReg.all.map load0Byte ++ ByteReg.all.map store0Byte ++ [load1Cl] ++
  Width.all.map load0Imm ++ Width.all.map load1Imm ++
  SegReg.all.map useSeg ++ SegReg.all.map load0Seg ++ LoadableSeg.all.map store0Seg ++
  [addrReset] ++ Gpr.all.map addrReg ++ Width.all.map addrImm ++ [addrMask16] ++
  Width.all.map load0Mem ++ Width.all.map load1Mem ++ Width.all.map store0Mem ++ [store1Mem] ++
  Alu.all.map alu ++ Unary.all.map unary ++ [signExtend8, signExtend16] ++
  Width.all.map addFlags ++ Width.all.map subFlags ++ Width.all.map bitwiseFlags ++
  [incFlags, decFlags, clc, stc, cmc, cld, std, cli, sti] ++
  [mul, mulFlags, loadPair, storePair, div] ++
  [push .word, push .dword, pop .word, pop .dword] ++
  [portIn .byte, portIn .dword, portOut .byte, portOut .dword] ++
  [eipUpdate, jump8, jump32] ++ Cond.all.map jumpIf ++ [retired, ret16, ret32, halt]

/-- The number of ops in the catalogue. -/
def count : Nat := 169

def number : Op → Nat
  | load0 r => r.index
  | load1 r => 8 + r.index
  | store0 r => 16 + r.index
  | store1 r => 24 + r.index
  | load0Half r => 32 + r.index
  | store0Half r => 40 + r.index
  | load0Byte r => 48 + r.index
  | store0Byte r => 56 + r.index
  | load1Cl => 64
  | load0Imm w => 65 + w.index
  | load1Imm w => 68 + w.index
  | useSeg s => 71 + s.index
  | load0Seg s => 77 + s.index
  | store0Seg s => 83 + s.index
  | addrReset => 88
  | addrReg r => 89 + r.index
  | addrImm w => 97 + w.index
  | addrMask16 => 100
  | load0Mem w => 101 + w.index
  | load1Mem w => 104 + w.index
  | store0Mem w => 107 + w.index
  | store1Mem => 110
  | alu a => 111 + a.index
  | unary u => 119 + u.index
  | signExtend8 => 123
  | signExtend16 => 124
  | addFlags w => 125 + w.index
  | subFlags w => 128 + w.index
  | bitwiseFlags w => 131 + w.index
  | incFlags => 134
  | decFlags => 135
  | clc => 136
  | stc => 137
  | cmc => 138
  | cld => 139
  | std => 140
  | cli => 141
  | sti => 142
  | mul => 143
  | mulFlags => 144
  | loadPair => 145
  | storePair => 146
  | div => 147
  | push w => 148 + w.index
  | pop w => 150 + w.index
  | portIn w => 152 + w.index
  | portOut w => 154 + w.index
  | eipUpdate => 156
  | jump8 => 157
  | jump32 => 158
  | jumpIf c => 159 + c.index
  | retired => 165
  | ret16 => 166
  | ret32 => 167
  | halt => 168

def ofNumber? (n : Nat) : Option Op := all[n]?

/-- The op a microcode word names, if it is in the catalogue. -/
def ofWord? (w : Int32) : Option Op :=
  if w.toInt < 0 then none else ofNumber? w.toInt.toNat

/-- The word that names the op. -/
def word (op : Op) : Int32 := Int32.ofNat op.number

def name : Op → String
  | load0 r => "LOAD0_" ++ r.name
  | load1 r => "LOAD1_" ++ r.name
  | store0 r => "STORE0_" ++ r.name
  | store1 r => "STORE1_" ++ r.name
  | load0Half r => "LOAD0_" ++ r.halfName
  | store0Half r => "STORE0_" ++ r.halfName
  | load0Byte r => "LOAD0_" ++ r.name
  | store0Byte r => "STORE0_" ++ r.name
  | load1Cl => "LOAD1_CL"
  | load0Imm w => "LOAD0_" ++ w.immName
  | load1Imm w => "LOAD1_" ++ w.immName
  | useSeg s => "LOAD_SEG_" ++ s.name
  | load0Seg s => "LOAD0_" ++ s.name
  | store0Seg s => "STORE0_" ++ s.segReg.name
  | addrReset => "MEM_RESET"
  | addrReg r => "ADDR_" ++ r.name
  | addrImm w => "ADDR_" ++ w.immName
  | addrMask16 => "ADDR_MASK16"
  | load0Mem w => "LOAD0_MEM_" ++ w.memName
  | load1Mem w => "LOAD1_MEM_" ++ w.memName
  | store0Mem w => "STORE0_MEM_" ++ w.memName
  | store1Mem => "STORE1_MEM_DWORD"
  | alu a => a.name
  | unary u => u.name
  | signExtend8 => "SIGN_EXTEND_8_32"
  | signExtend16 => "SIGN_EXTEND_16_32"
  | addFlags w => "ADD_" ++ w.operandName ++ "_FLAGS"
  | subFlags w => "SUB_" ++ w.operandName ++ "_FLAGS"
  | bitwiseFlags w => "BITWISE_" ++ w.operandName ++ "_FLAGS"
  | incFlags => "INC_O32_FLAGS"
  | decFlags => "DEC_O32_FLAGS"
  | clc => "CLC"
  | stc => "STC"
  | cmc => "CMC"
  | cld => "CLD"
  | std => "STD"
  | cli => "CLI"
  | sti => "STI"
  | mul => "MUL_O32"
  | mulFlags => "MUL_O32_FLAGS"
  | loadPair => "LOAD_EDX_EAX"
  | storePair => "STORE_EDX_EAX"
  | div => "DIV_O32"
  | push w => "PUSH_" ++ w.width.operandName
  | pop w => "POP_" ++ w.width.operandName
  | portIn w => "IN_" ++ w.width.operandName
  | portOut w => "OUT_" ++ w.width.operandName
  | eipUpdate => "EIP_UPDATE"
  | jump8 => "JUMP_O8"
  | jump32 => "JUMP_O32"
  | jumpIf c => c.name ++ "_O8"
  | retired => "INSTRUCTION_RETIRED"
  | ret16 => "RET_O16"
  | ret32 => "RET_O32"
  | halt => "HALT"

/-- Every op with its name. -/
def byName : List (String × Op) := all.map fun op => (op.name, op)

def ofName? (s : String) : Option Op := byName.lookup s

/-- Whether the word after the op is its immediate. -/
def hasImmediate : Op → Bool
  | load0Imm _ | load1Imm _ | addrImm _ => true
  | _ => false

/-- The name of a word's op; a word outside the catalogue is invalid. -/
def describe : Option Op → String
  | some op => op.name
  | none => "INVALID"

end Op

/-- An op number, which may lie outside the catalogue. -/
structure OpNumber where
  val : UInt16
  deriving DecidableEq

namespace OpNumber

/-- The number that stands for every word outside the catalogue. -/
def invalid : OpNumber := ⟨0xffff⟩

def op? (n : OpNumber) : Option Op := Op.ofNumber? n.val.toNat

def ofOp : Option Op → OpNumber
  | some op => ⟨op.number.toUInt16⟩
  | none => invalid

def name (n : OpNumber) : String :=
  match n.op? with
  | some op => op.name
  | none => if n = invalid then "INVALID" else "OP_" ++ toString n.val.toNat

end OpNumber
end MicroBlock
