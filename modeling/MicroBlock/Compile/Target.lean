import MicroBlock.Container.Module
import MicroBlock.Lowering

/-! Compilation targets: what differs between the modes a block can be compiled for. -/

namespace MicroBlock

structure Target where
  name : String
  mode : ModeNumber
  table : Table
  /-- Copied for every unit. -/
  skeleton : Module
  /-- The helper that delivers a fault a unit caught. -/
  route : String

namespace Target

/-- The target of a mode number with a lowering table. -/
def ofTable (n : ModeNumber) (t : Table) : Target where
  name := n.name
  mode := n
  table := t
  skeleton := .skeleton n.name []
  route := n.routeHelper

/-- The target of a mode with its own lowering table. -/
def ofMode (m : Mode) : Target := ofTable m (Lowering.table m)

/-- The target of a mode number, if it is that of a mode. -/
def ofNumber? (n : ModeNumber) : Option Target := n.mode?.map ofMode

end Target
end MicroBlock
