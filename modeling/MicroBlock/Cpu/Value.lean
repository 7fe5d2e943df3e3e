import MicroBlock.Cpu.Segment
import MicroBlock.Text.ByteString

/-! What microcode computes with. -/

namespace MicroBlock

/-- A scalar, or a reference. A 32-bit scalar is zero-extended; only a long uses all 64 bits. -/
inductive Value where
  | word (n : UInt64)
  | segment (s : Option Segment)
  /-- The processor that the block runs on. -/
  | cpu
  | fault (f : Option Fault)
  | text (s : ByteString)
  | ints (a : List Int32)
  deriving DecidableEq

namespace Value

def zero : Value := .word 0

instance : Inhabited Value := ⟨zero⟩

def ofUInt32 (n : UInt32) : Value := .word n.toUInt64

def ofBool (b : Bool) : Value := ofUInt32 (if b then 1 else 0)

/-- All bits of a scalar; a reference has none. -/
def toUInt64 : Value → UInt64
  | .word n => n
  | _ => 0

/-- The low 32 bits of a scalar; a reference has none. -/
def toUInt32 (v : Value) : UInt32 := v.toUInt64.toUInt32

def segment? : Value → Option Segment
  | .segment s => s
  | _ => none

def isCpu : Value → Bool
  | .cpu => true
  | _ => false

/-- The value as a text. A text stands for itself, whatever its bytes. -/
def spelling : Value → ByteString
  | .word n => "0x" ++ Text.hex n.toNat
  | .segment none => "<nil segment>"
  | .segment (some s) => s.describe
  | .cpu => "cpu"
  | .fault none => "<nil>"
  | .fault (some f) => f.message
  | .text s => s
  | .ints a => "[" ++ String.intercalate " " (a.map fun n => toString n.toInt) ++ "]"

def describe (v : Value) : String := v.spelling.display

end Value
end MicroBlock
