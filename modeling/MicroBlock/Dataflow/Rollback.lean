import MicroBlock.Cpu.Element
import MicroBlock.Sorting

/-! Rollbacks: what the registers were when an instruction that can fault began, and the stretch of
code whose faults lead back there. -/

namespace MicroBlock

/-- The registers as of the start of an instruction, by the nodes that hold them. -/
structure Rollback where
  /-- The number of instructions before the one that can fault. -/
  index : Nat
  /-- The block offset of that instruction. -/
  start : Int64
  /-- The block offset that EIP had been brought up to. -/
  base : Int64
  /-- Every register with its node, older nodes first. -/
  snapshot : List (Register × Nat)
  deriving DecidableEq

namespace Rollback

/-- The snapshot of a bank of nodes. -/
def snapshotOf (producers : Bank Element Nat) : List (Register × Nat) :=
  sortBy (fun a b => a.2 ≤ b.2) (Register.all.map fun r => (r, producers.get (.reg r)))

/-- What must be added to the EIP of the snapshot to point it at the instruction. -/
def delta (r : Rollback) : Int64 := r.start - r.base

/-- The node that holds EIP. -/
def eip? (r : Rollback) : Option Nat := r.snapshot.lookup .eip

end Rollback

/-- A stretch of code offsets that grows as code is attributed to it. -/
structure Extent where
  /-- Below zero as long as no code is attributed. -/
  first : Int := -1
  last : Int := 0
  deriving DecidableEq

namespace Extent

/-- Widens the stretch to hold the offsets from `first` up to but not including `last`. -/
def cover (x : Extent) (first last : Int) : Extent :=
  if last ≤ first then x
  else
    { first := if x.first < 0 ∨ first < x.first then first else x.first
      last := if x.last < last then last else x.last }

/-- Whether no code belongs to the stretch. -/
def isEmpty (x : Extent) : Bool := x.first < 0 || x.last ≤ x.first

end Extent

/-- The words for a rollback with a number and an extent. -/
def Rollback.describe (r : Rollback) (id : Nat) (x : Extent) : String :=
  "handler " ++ toString id ++ ": instruction " ++ toString r.index ++ " at +" ++
    toString r.start.toInt ++ ", code [" ++ toString x.first ++ "," ++ toString x.last ++ ")"

end MicroBlock
