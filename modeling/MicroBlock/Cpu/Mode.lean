import MicroBlock.Message
import MicroBlock.Text.Quoted

/-! Addressing modes, and mode numbers as callers give them. -/

namespace MicroBlock

/-- The addressing mode a block was decoded for. -/
inductive Mode where
  | real | protected_ | vm86
  deriving DecidableEq

namespace Mode

def number : Mode → UInt8
  | real => 0
  | protected_ => 1
  | vm86 => 2

def name : Mode → String
  | real => "real"
  | protected_ => "protected"
  | vm86 => "vm86"

def all : List Mode := [real, protected_, vm86]

/-- Modes are read by name; virtual-8086 mode has two names. -/
def ofName? (s : String) : Option Mode :=
  if s = "real" then some real
  else if s = "protected" then some protected_
  else if s = "vm86" ∨ s = "virtual8086" then some vm86
  else none

/-- What a text that names no mode is answered with. -/
def unknownMessage (s : String) : Message :=
  .ofClause ["unknown processor mode ", .given (Text.quoted s)]

end Mode

/-- A mode number, which may lie outside the three modes. -/
structure ModeNumber where
  val : UInt8
  deriving DecidableEq

namespace ModeNumber

def mode? (n : ModeNumber) : Option Mode :=
  if n.val = 0 then some .real
  else if n.val = 1 then some .protected_
  else if n.val = 2 then some .vm86
  else none

def name (n : ModeNumber) : String :=
  match n.mode? with
  | some m => m.name
  | none => "mode(" ++ toString n.val.toNat ++ ")"

end ModeNumber

instance : Coe Mode ModeNumber := ⟨fun m => ⟨m.number⟩⟩

end MicroBlock
