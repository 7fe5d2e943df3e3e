/-! The opcodes of compiled blocks. -/

namespace MicroBlock

inductive Opcode where
  | nop
  /-- Pushes its operand as a 32-bit int. -/
  | pushi
  /-- Pushes an entry of the constant pool. -/
  | ldc
  | dup
  | pop
  | iload | istore | lload | lstore | aload | astore
  /-- Pushes the live value of an element. -/
  | gete
  /-- Pops into a register. -/
  | sete
  | call
  /-- Pushes the fault that led into a handler. -/
  | fault
  /-- Pops the result of the method. -/
  | ret
  deriving DecidableEq

namespace Opcode

def all : List Opcode :=
  [nop, pushi, ldc, dup, pop, iload, istore, lload, lstore, aload, astore, gete, sete, call, fault, ret]

def code : Opcode → UInt8
  | nop => 0 | pushi => 1 | ldc => 2 | dup => 3 | pop => 4 | iload => 5 | istore => 6 | lload => 7
  | lstore => 8 | aload => 9 | astore => 10 | gete => 11 | sete => 12 | call => 13 | fault => 14
  | ret => 15

def ofCode? (c : UInt8) : Option Opcode := all[c.toNat]?

@[simp] theorem ofCode?_code (o : Opcode) : ofCode? o.code = some o := by cases o <;> rfl

def name : Opcode → String
  | nop => "NOP" | pushi => "PUSHI" | ldc => "LDC" | dup => "DUP" | pop => "POP" | iload => "ILOAD"
  | istore => "ISTORE" | lload => "LLOAD" | lstore => "LSTORE" | aload => "ALOAD"
  | astore => "ASTORE" | gete => "GETE" | sete => "SETE" | call => "CALL" | fault => "FAULT"
  | ret => "RETURN"

def ofName? (s : String) : Option Opcode := all.find? (·.name == s)

def hasOperand : Opcode → Bool
  | nop | dup | pop | fault | ret => false
  | _ => true

/-- Whether the operand names a slot. -/
def isSlotAccess : Opcode → Bool
  | iload | istore | lload | lstore | aload | astore => true
  | _ => false

/-- The change in stack depth, leaving out calls, whose effect depends on the helper. -/
def stackEffect : Opcode → Int
  | pushi | ldc | dup | iload | lload | aload | gete | fault => 1
  | pop | istore | lstore | astore | sete | ret => -1
  | nop | call => 0

end Opcode

/-- An opcode byte, which may be undefined. -/
structure OpcodeByte where
  val : UInt8
  deriving DecidableEq

namespace OpcodeByte

def opcode? (b : OpcodeByte) : Option Opcode := Opcode.ofCode? b.val

def name (b : OpcodeByte) : String :=
  match b.opcode? with
  | some o => o.name
  | none => "OPCODE_" ++ toString b.val.toNat

/-- An undefined opcode takes no operand. -/
def hasOperand (b : OpcodeByte) : Bool := b.opcode?.any Opcode.hasOperand

end OpcodeByte
end MicroBlock
