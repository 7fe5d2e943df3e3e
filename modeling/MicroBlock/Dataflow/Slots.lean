import MicroBlock.Dataflow.Graph

/-! Which values of a graph are kept in slots, and where.

A node is kept if the traversal from the roots reaches it more than once or if it has an effect, unless
its element cannot be stored. Slots are numbered in the order of first reach. -/

namespace MicroBlock

namespace Graph

/-- How often each node was reached, and the nodes in order of first reach, latest first. -/
structure Reach where
  counts : Array Nat
  order : List Nat

/-- Follows the nodes in `work`, depth first. A node is followed on to its inputs on first reach only,
    so a number of steps that covers the work and every input of every node is enough. -/
def follow (g : Graph) : Nat → List Nat → Reach → Reach
  | 0, _, r => r
  | _ + 1, [], r => r
  | steps + 1, id :: work, r =>
    let seen := (r.counts[id]?).getD 0
    let counts := r.counts.modify id (· + 1)
    if seen = 0 then follow g steps (g.inputs id ++ work) ⟨counts, id :: r.order⟩
    else follow g steps work ⟨counts, r.order⟩

/-- The number of inputs of all nodes. -/
def inputCount (g : Graph) : Nat := g.nodes.foldl (fun n node => n + node.inputs.length) 0

/-- What the roots reach. -/
def reach (g : Graph) : Reach :=
  g.follow (g.roots.length + g.inputCount + 1) g.roots ⟨Array.replicate g.nodes.size 0, []⟩

end Graph

/-- An assignment of slots. -/
structure Slots where
  /-- The first unit of every node that has a slot. -/
  assigned : Array (Option Nat)
  /-- The kind of every unit; the second unit of a long is void. -/
  kinds : List Kind
  deriving DecidableEq

namespace Slots

/-- More units are needed than allowed. -/
structure Exhausted where
  needed : Int
  limit : Int
  deriving DecidableEq

def Exhausted.message (e : Exhausted) : Message :=
  Ground.slotExhaustion.under [toString e.needed, " units needed beyond ", toString e.limit]

def empty (nodes : Nat) : Slots := ⟨Array.replicate nodes none, []⟩

/-- The first unit of a node. -/
def of? (s : Slots) (id : Nat) : Option Nat := (s.assigned[id]?).join

/-- The units used so far. -/
def units (s : Slots) : Nat := s.kinds.length

/-- Gives a node the next units. -/
def assign (s : Slots) (id : Nat) (k : Kind) : Slots where
  assigned := s.assigned.setIfInBounds id (some s.units)
  kinds := s.kinds ++ k :: List.replicate (k.units - 1) .void

/-- Whether a node is kept in a slot when it was reached `count` times. -/
def keeps (n : Node) (count : Nat) : Bool := n.element.materializable && (2 ≤ count || n.hasEffect)

/-- Goes through nodes in order of first reach. An error leaves the slots given so far. -/
def allocateFrom (g : Graph) (counts : Array Nat) (limit : Int) :
    List Nat → Slots → Except Exhausted Unit × Slots
  | [], s => (.ok (), s)
  | id :: rest, s =>
    match g.nodes[id]? with
    | none => allocateFrom g counts limit rest s
    | some n =>
      if keeps n ((counts[id]?).getD 0) then
        let k := n.element.kind
        if limit < ((s.units + k.units : Nat) : Int) then
          (.error ⟨(s.units + k.units : Nat), limit⟩, s)
        else allocateFrom g counts limit rest (s.assign id k)
      else allocateFrom g counts limit rest s

/-- Assigns slots within a limit of units. -/
def allocate (g : Graph) (limit : Int) : Except Exhausted Unit × Slots :=
  let r := g.reach
  allocateFrom g r.counts limit r.order.reverse (empty g.nodes.size)

/-- The nodes that have slots, in slot order. -/
def slotted (s : Slots) : List Nat :=
  let held := s.assigned.toList.zipIdx.filterMap fun (slot, id) => slot.map fun u => (u, id)
  (held.mergeSort fun a b => decide (a.1 ≤ b.1)).map (·.2)

end Slots
end MicroBlock
