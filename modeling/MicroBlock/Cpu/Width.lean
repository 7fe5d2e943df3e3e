/-! Operand widths. -/

namespace MicroBlock

inductive Width where
  | byte | word | dword
  deriving DecidableEq

namespace Width

def all : List Width := [byte, word, dword]

def bytes : Width → Nat
  | byte => 1
  | word => 2
  | dword => 4

def bits (w : Width) : Nat := 8 * w.bytes

/-- The access width of a number of bytes. -/
def ofBytes? (n : Int) : Option Width :=
  if n = 1 then some byte
  else if n = 2 then some word
  else if n = 4 then some dword
  else none

/-- The values of this width. -/
def mask : Width → UInt32
  | byte => 0xff
  | word => 0xffff
  | dword => 0xffffffff

end Width
end MicroBlock
