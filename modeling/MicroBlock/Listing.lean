import MicroBlock.Cpu.Machine
import MicroBlock.Microcode.Assembly
import MicroBlock.Yaml.Block

/-! Listings: a block and the machine that it runs on, read from a YAML document. -/

namespace MicroBlock

/-- An instruction as a listing gives it. -/
structure ListedInstruction where
  length : Int64
  ops : String
  deriving DecidableEq

structure Listing where
  mode : String
  instructions : List ListedInstruction
  registers : List (String × UInt32)
  eip : UInt32
  memorySize : Int64
  /-- Words by address. -/
  memory : List (UInt32 × UInt32)
  /-- Latched values by port. -/
  ports : List (UInt16 × UInt32)
  deriving DecidableEq

namespace Listing

def defaultMode : String := "real"

/-- One megabyte. -/
def defaultMemorySize : Int64 := 0x100000

/-! ### Reading -/

/-- The value of a field, null where there is none. -/
def field (es : List (Yaml.Scalar × Yaml.Node)) (name : String) : Yaml.Node :=
  ((es.find? fun e => e.1.text == name).map (·.2)).getD .null

def word? (n : Yaml.Node) : Option UInt32 := (n.below? UInt32.size).map UInt32.ofNat

/-- A mapping to words whose keys are read by `key?`. -/
def words? {α : Type} (key? : Yaml.Scalar → Option α) (n : Yaml.Node) : Option (List (α × UInt32)) := do
  let es ← n.entries?
  es.mapM fun (k, v) => do
    let k ← key? k
    let v ← word? v
    return (k, v)

def instruction? (n : Yaml.Node) : Option ListedInstruction := do
  let es ← n.entries?
  let length ← (field es "length").int64?
  let ops ← (field es "ops").text?
  return { length, ops }

def ofNode? (n : Yaml.Node) : Option Listing := do
  let es ← n.entries?
  let mode ← (field es "mode").text?
  let items ← (field es "instructions").items?
  let instructions ← items.mapM instruction?
  let registers ← words? (fun k => some k.text) (field es "registers")
  let eip ← word? (field es "eip")
  let size ← (field es "memory_size").int64?
  let memory ← words? (fun k => word? (.scalar k)) (field es "memory")
  let ports ← words? (fun k => (Yaml.Node.scalar k).below? UInt16.size |>.map UInt16.ofNat) (field es "ports")
  return {
    mode := if mode = "" then defaultMode else mode
    instructions
    registers
    eip
    memorySize := if size = 0 then defaultMemorySize else size
    memory
    ports }

/-- Reads a listing. A text that is no document, or holds something else where a field is to be, is
    none. -/
def read? (text : String) : Option Listing := (Yaml.read? text).bind ofNode?

/-! ### The block -/

/-- Why an instruction cannot be taken. -/
inductive BlockError where
  | badLength (index : Nat) (length : Int64)
  | tokens (index : Nat) (e : Assembly.TokenError)
  deriving DecidableEq

def BlockError.message : BlockError → Message
  | badLength i n => .plain ("instruction " ++ toString i ++ ": bad length " ++ toString n.toInt)
  | tokens i e => e.message.under ["instruction ", toString i]

/-- The instructions from number `i` on. -/
def blockFrom (i : Nat) : List ListedInstruction → Except BlockError Block
  | [] => .ok []
  | x :: xs =>
    if x.length ≤ 0 then .error (.badLength i x.length)
    else match Assembly.instruction x.length (Text.fields x.ops) with
      | .error e => .error (.tokens i e)
      | .ok y => (blockFrom (i + 1) xs).map (y :: ·)

def block (l : Listing) : Except BlockError Block := blockFrom 0 l.instructions

/-! ### The machine -/

/-- Why there is no machine for a listing. -/
inductive MachineError where
  | preset (name : String)
  | memory (address : UInt32) (f : Fault)
  /-- No memory has the size asked for. -/
  | memorySize
  deriving DecidableEq

def MachineError.message : MachineError → Message
  | preset name => .ofClause ["cannot preset ", .given (Text.quoted name)]
  | memory a f => (Message.plain f.message).under ["memory 0x", Text.hex a.toNat]
  | memorySize => .plain "runtime error: makeslice: len out of range"

/-- The registers that a listing may preset, which hold numbers. -/
def preset? (name : String) : Option Register :=
  ((Element.ofName? (Text.upperToAscii name)).bind Element.register?).filter fun r =>
    (Element.reg r).kind == .int

def setRegister (m : Machine) (r : String × UInt32) : Except MachineError Machine :=
  match preset? r.1 with
  | none => .error (.preset r.1)
  | some reg => .ok (m.set reg (.ofUInt32 r.2))

def setWord (m : Machine) (w : UInt32 × UInt32) : Except MachineError Machine :=
  match m.memory.write w.1 .dword w.2 with
  | .error f => .error (.memory w.1 f)
  | .ok memory => .ok { m with memory }

/-- A machine at the start of the block. Outside real and protected mode it runs at the lowest
    privilege. -/
def machine (l : Listing) (mode : Mode) : Except MachineError Machine := do
  let some memory := Memory.ofSize? l.memorySize.toInt | throw .memorySize
  let m := Machine.reset memory
  let m := { m with eip := l.eip, cpl := if mode = .vm86 then 3 else 0 }
  let m ← l.registers.foldlM setRegister m
  let m ← l.memory.foldlM setWord m
  return { m with ports := some (l.ports.foldl (fun p e => p.preset e.1 e.2) {}) }

end Listing
end MicroBlock
