import MicroBlock.Cpu.Element
import MicroBlock.Cpu.Memory
import MicroBlock.Cpu.Ports
import MicroBlock.Cpu.Value

/-! The virtual processor that blocks run against, with its memory, its ports and the faults that
were delivered to it. -/

namespace MicroBlock

structure Machine where
  gpr : Bank Gpr UInt32
  eip : UInt32
  flags : Bank Flag UInt32
  segs : Bank SegReg (Option Segment)
  tables : Bank TableReg (Option Segment)
  cpl : UInt32
  memory : Memory
  /-- No port bus is attached when absent. -/
  ports : Option Ports
  router : Router
  /-- The queued faults, oldest first. -/
  delivered : List Delivery
  /-- Instructions whose retirement marker ran. -/
  retired : UInt64
  deriving DecidableEq

namespace Machine

/-- A reset processor in real mode: every segment at selector zero, an interrupt table of 1 KiB. -/
def reset (memory : Memory) : Machine where
  gpr := .replicate 0
  eip := 0
  flags := .replicate 0
  segs := (Bank.replicate (some (Segment.real 0))).set .ss (some { Segment.real 0 with stack := true })
  tables := (Bank.replicate none).set .idtr (some { present := true, limit := 0x3ff })
  cpl := 0
  memory
  ports := some {}
  router := .queue
  delivered := []
  retired := 0

def getReg (m : Machine) : Register → Value
  | .gpr r => .ofUInt32 (m.gpr.get r)
  | .eip => .ofUInt32 m.eip
  | .flag f => .ofUInt32 (m.flags.get f)
  | .seg s => .segment (m.segs.get s)
  | .table t => .segment (m.tables.get t)
  | .cpl => .ofUInt32 m.cpl

/-- Reads an element. Working values and markers read as zero. -/
def get (m : Machine) : Element → Value
  | .reg r => m.getReg r
  | .cpu => .cpu
  | _ => .zero

/-- Writes a register. Flags and CPL keep only the bits they have, and a value of the other sort
    stores zero or no segment. -/
def set (m : Machine) (r : Register) (v : Value) : Machine :=
  match r with
  | .gpr r => { m with gpr := m.gpr.set r v.toUInt32 }
  | .eip => { m with eip := v.toUInt32 }
  | .flag f => { m with flags := m.flags.set f (v.toUInt32 &&& f.mask) }
  | .seg s => { m with segs := m.segs.set s v.segment? }
  | .table t => { m with tables := m.tables.set t v.segment? }
  | .cpl => { m with cpl := v.toUInt32 &&& 3 }

/-- Reads by number; a number that names nothing reads as zero. -/
def getNumber (m : Machine) (n : ElementNumber) : Value :=
  match n.element? with
  | some e => m.get e
  | none => .zero

/-- A request to store to what is no register. -/
structure StoreError where
  element : ElementNumber
  deriving DecidableEq

def StoreError.message (e : StoreError) : String := "processor: cannot store to " ++ e.element.name

/-- Writes by number; only registers can be written. -/
def setNumber (m : Machine) (n : ElementNumber) (v : Value) : Except StoreError Machine :=
  match n.element? with
  | some (.reg r) => .ok (m.set r v)
  | _ => .error ⟨n⟩

/-- The flags packed into the layout of EFLAGS, with the reserved bit 1 set. -/
def eflags (m : Machine) : UInt32 :=
  Flag.all.foldl (fun v f => v ||| (m.flags.get f <<< f.bit)) 2

/-- Unpacks EFLAGS into the single flags. -/
def setEflags (m : Machine) (v : UInt32) : Machine :=
  { m with flags := Flag.all.foldl (fun b f => b.set f ((v >>> f.bit) &&& f.mask)) m.flags }

/-- Hands a fault to the router. `none` stands for a handler that asked for a fault where none was
    pending. -/
def route (m : Machine) (mode : ModeNumber) (f : Option Fault) : Except Rejection Machine :=
  match m.router with
  | .absent => .ok m
  | .queue => .ok { m with delivered := m.delivered ++ [⟨mode, f, m.eip⟩] }
  | .reject =>
    match f with
    | some f => .error (.fault f mode)
    | none => .error .nothing

/-- Whether every delivery holds a fault, as a report on the machine needs. -/
def isReportable (m : Machine) : Bool := m.delivered.all (·.fault.isSome)

end Machine
end MicroBlock
