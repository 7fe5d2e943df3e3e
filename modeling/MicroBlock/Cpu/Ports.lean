/-! The port address space: a latch that gives back the last value written to a port and logs every
write in order. -/

namespace MicroBlock

structure PortWrite where
  port : UInt16
  size : Int
  value : UInt32
  deriving DecidableEq

structure Ports where
  /-- The latched values, latest first; a port that was never set reads as zero. -/
  values : List (UInt16 × UInt32) := []
  /-- Every write, oldest first. -/
  writes : List PortWrite := []
  reads : Nat := 0
  deriving DecidableEq

namespace Ports

def latched (p : Ports) (port : UInt16) : UInt32 := (p.values.lookup port).getD 0

def preset (p : Ports) (port : UInt16) (value : UInt32) : Ports :=
  { p with values := (port, value) :: p.values }

/-- The latched value cut to one or two bytes; any other size gives all of it. -/
def input (p : Ports) (port : UInt16) (size : Int) : UInt32 × Ports :=
  let v := p.latched port
  (if size = 1 then v &&& 0xff else if size = 2 then v &&& 0xffff else v,
    { p with reads := p.reads + 1 })

def output (p : Ports) (port : UInt16) (size : Int) (value : UInt32) : Ports :=
  { p with values := (port, value) :: p.values, writes := p.writes ++ [⟨port, size, value⟩] }

end Ports
end MicroBlock
