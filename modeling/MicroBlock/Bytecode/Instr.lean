import MicroBlock.Bytecode.Opcode
import MicroBlock.Bytecode.Operand
import MicroBlock.Cpu.Kind

/-! Instructions, and their form as bytes. -/

namespace MicroBlock

/-- What a slot holds. -/
inductive SlotClass where
  | int | long | ref
  deriving DecidableEq

namespace SlotClass

def kind : SlotClass → Kind
  | int => .int
  | long => .long
  | ref => .ref

def ofKind : Kind → SlotClass
  | .long => long
  | .ref => ref
  | _ => int

end SlotClass

inductive Instr where
  | nop
  | push (v : Int32)
  | const (i : Int32)
  | dup
  | pop
  | load (c : SlotClass) (i : Int32)
  | store (c : SlotClass) (i : Int32)
  | get (e : Int32)
  | set (e : Int32)
  | call (i : Int32)
  | fault
  | ret
  deriving DecidableEq

namespace Instr

def opcode : Instr → Opcode
  | nop => .nop
  | push _ => .pushi
  | const _ => .ldc
  | dup => .dup
  | pop => .pop
  | load .int _ => .iload
  | load .long _ => .lload
  | load .ref _ => .aload
  | store .int _ => .istore
  | store .long _ => .lstore
  | store .ref _ => .astore
  | get _ => .gete
  | set _ => .sete
  | call _ => .call
  | fault => .fault
  | ret => .ret

def operand? : Instr → Option Int32
  | push v | const v | load _ v | store _ v | get v | set v | call v => some v
  | _ => none

/-- The instruction of an opcode; the operand counts only where the opcode takes one. -/
def ofOpcode (o : Opcode) (v : Int32) : Instr :=
  match o with
  | .nop => nop
  | .pushi => push v
  | .ldc => const v
  | .dup => dup
  | .pop => pop
  | .iload => load .int v
  | .lload => load .long v
  | .aload => load .ref v
  | .istore => store .int v
  | .lstore => store .long v
  | .astore => store .ref v
  | .gete => get v
  | .sete => set v
  | .call => call v
  | .fault => fault
  | .ret => ret

def describe (i : Instr) : String :=
  match i.operand? with
  | some v => i.opcode.name ++ " " ++ toString v.toInt
  | none => i.opcode.name

def encode (i : Instr) : Bytes :=
  i.opcode.code :: (match i.operand? with | some v => Operand.encode v | none => [])

/-- The number of bytes the instruction takes. -/
def size (i : Instr) : Nat := i.encode.length

end Instr

/-- A request to write an instruction that has no form. -/
inductive EmitError where
  | operands (op : OpcodeByte) (n : Nat)
  | range (op : OpcodeByte) (v : Int32)
  deriving DecidableEq

def EmitError.message : EmitError → String
  | operands op n => "unit: " ++ op.name ++ " with " ++ toString n ++ " operands"
  | range op v => "unit: " ++ op.name ++ " operand " ++ toString v.toInt ++ " out of range"

namespace Code

/-- The bytes of an opcode with the operands given for it. An opcode takes at most one operand, and
    exactly one if it is defined to; an undefined opcode is written without any. -/
def emit (op : OpcodeByte) (args : List Int32) : Except EmitError Bytes :=
  match args with
  | [] => if op.hasOperand then .error (.operands op 0) else .ok [op.val]
  | [v] =>
    if op.hasOperand then
      if Operand.fits v.toInt then .ok (op.val :: Operand.encode v) else .error (.range op v)
    else .error (.operands op 1)
  | _ => .error (.operands op args.length)

/-- Where each of several parts begins once they are joined. -/
def offsets (parts : List Bytes) : List Nat :=
  (parts.foldl (fun (at_, found) p => (at_ + p.length, at_ :: found)) (0, [])).2.reverse

/-- The bytes of several opcodes with their operands, and the offset of each. -/
def emitAll (items : List (OpcodeByte × List Int32)) : Except EmitError (Bytes × List Nat) := do
  let parts ← items.mapM fun i => emit i.1 i.2
  return (parts.flatten, offsets parts)

/-- Writes an instruction whose operand has a form. -/
def emitInstr (i : Instr) : Except EmitError Bytes := emit ⟨i.opcode.code⟩ i.operand?.toList

/-- An instruction at its offset. -/
structure Placed where
  pc : Nat
  instr : Instr
  size : Nat
  deriving DecidableEq

inductive Error where
  | badOpcode (b : UInt8) (pc : Nat)
  | operand (op : Opcode) (pc : Nat) (e : ReadError)
  deriving DecidableEq

def Error.message : Error → String
  | badOpcode b pc => "bad opcode " ++ toString b.toNat ++ " at " ++ toString pc
  | operand op pc e => op.name ++ " at " ++ toString pc ++ ": " ++ e.message

/-- Reads one instruction and leaves the bytes after it. -/
def decodeOne (pc : Nat) (b : UInt8) (rest : Bytes) : Except Error (Placed × Bytes) :=
  match Opcode.ofCode? b with
  | none => .error (.badOpcode b pc)
  | some op =>
    if op.hasOperand then
      match Operand.decode rest with
      | .error e => .error (.operand op pc e)
      | .ok (v, rest') => .ok (⟨pc, Instr.ofOpcode op v, 1 + Operand.formSize rest⟩, rest')
    else .ok (⟨pc, Instr.ofOpcode op 0, 1⟩, rest)

theorem decodeOne_length {pc : Nat} {b : UInt8} {rest rest' : Bytes} {p : Placed}
    (h : decodeOne pc b rest = .ok (p, rest')) : rest'.length ≤ rest.length := by
  unfold decodeOne at h
  split at h
  · cases h
  · split at h
    · split at h
      · cases h
      · next v r hd =>
        cases h
        exact Nat.le_of_lt (Operand.decode_length hd)
    · cases h; exact Nat.le_refl _

/-- Reads the instructions from offset `pc` on; `done` holds those before, last first. -/
def decodeFrom (pc : Nat) (done : List Placed) (code : Bytes) : Except Error (List Placed) :=
  match code with
  | [] => .ok done.reverse
  | b :: rest =>
    match _h : decodeOne pc b rest with
    | .error e => .error e
    | .ok (p, rest') => decodeFrom (pc + p.size) (p :: done) rest'
termination_by code.length
decreasing_by
  have := decodeOne_length _h
  simp only [List.length_cons]
  omega

/-- The instructions of a method body. -/
def decode (code : Bytes) : Except Error (List Placed) := decodeFrom 0 [] code

end Code
end MicroBlock
