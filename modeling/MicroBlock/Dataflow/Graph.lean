import MicroBlock.Dataflow.Rollback
import MicroBlock.Interpreter

/-! The dataflow graph of a block: a node for the value every element starts with, and a node for
every fragment that some record applies. -/

namespace MicroBlock

/-- The fragment application that a value comes from. -/
structure Origin where
  record : Record
  fragment : Fragment
  deriving DecidableEq

/-- One value: what an element starts with, or the result of a fragment at a record. -/
structure Node where
  element : Element
  /-- Absent for the value an element starts with. -/
  origin : Option Origin
  /-- The nodes of the fragment's inputs. -/
  inputs : List Nat
  /-- The rollback that faults of the node lead to. -/
  rollback : Option Nat
  /-- The block offset that EIP had been brought up to. -/
  base : Int64
  deriving DecidableEq

namespace Node

def initial (e : Element) : Node where
  element := e
  origin := none
  inputs := []
  rollback := none
  base := 0

def isInitial (n : Node) : Bool := n.origin.isNone

def hasEffect (n : Node) : Bool := n.origin.any (·.fragment.hasEffect)

def canFault (n : Node) : Bool := n.origin.any (·.fragment.canFault)

/-- The numbers that literals of the fragment stand for. -/
def place (n : Node) : Place :=
  match n.origin with
  | some o => o.record.place n.base
  | none => ⟨0, 0, 0⟩

def describe (n : Node) (id : Nat) : String :=
  "n" ++ toString id ++ "(" ++ n.element.name ++
    (match n.origin with
      | none => " initial)"
      | some o => " = " ++ Op.describe o.record.op ++ ")")

end Node

/-- For every element the node that holds its value. -/
abbrev Producers := Bank Element Nat

structure Graph where
  /-- The first nodes are the initial values, in element order. -/
  nodes : Array Node
  /-- The producers at the end of the block. -/
  final : Producers
  /-- The nodes with effects, in program order. -/
  effects : Array Nat
  rollbacks : Array Rollback

namespace Graph

/-- The node of an element's initial value. -/
def initialNode (e : Element) : Nat := e.number

/-- A graph that grows record by record. -/
structure Draft where
  nodes : Array Node
  effects : Array Nat
  rollbacks : Array Rollback
  producers : Producers
  /-- The producers and the base when the current instruction began. -/
  start : Producers
  startBase : Int64
  base : Int64
  /-- The instruction the last record belonged to. -/
  index : Option Nat

def Draft.empty : Draft :=
  let producers := Element.all.foldl (fun b e => b.set e (initialNode e)) (.replicate 0)
  { nodes := (Element.all.map Node.initial).toArray
    effects := #[]
    rollbacks := #[]
    producers
    start := producers
    startBase := 0
    base := 0
    index := none }

/-- The rollback of an instruction, which is opened when its first fault-capable node is met. -/
def Draft.track (p : Draft) (rec : Record) : Nat × Draft :=
  if p.rollbacks.back?.any (·.index == rec.index) then (p.rollbacks.size - 1, p)
  else
    let r : Rollback :=
      { index := rec.index, start := rec.start, base := p.startBase
        snapshot := Rollback.snapshotOf p.start }
    (p.rollbacks.size, { p with rollbacks := p.rollbacks.push r })

/-- Adds the node of one fragment. Rollbacks are kept only if they are `tracked`. -/
def Draft.addFragment (tracked : Bool) (rec : Record) (p : Draft) (f : Fragment) : Draft :=
  let (rollback, p) :=
    if f.canFault && tracked then
      let (id, p) := p.track rec
      (some id, p)
    else (none, p)
  let n : Node :=
    { element := f.target, origin := some ⟨rec, f⟩, inputs := f.inputs.map p.producers.get
      rollback, base := p.base }
  { p with
    nodes := p.nodes.push n
    effects := if f.hasEffect then p.effects.push p.nodes.size else p.effects }

/-- The producers after the nodes from `first` on hold the results of a record's fragments. -/
def commit (producers : Producers) (first : Nat) : List Fragment → Producers
  | [] => producers
  | f :: fs =>
    commit (if f.target.kind = .void then producers else producers.set f.target first) (first + 1) fs

/-- Takes note of the start of an instruction. -/
def Draft.enter (p : Draft) (rec : Record) : Draft :=
  if p.index = some rec.index then p
  else { p with start := p.producers, startBase := p.base, index := some rec.index }

/-- Adds the nodes of a record. All its fragments see the producers from before the record. -/
def Draft.addRecord (tracked : Bool) (p : Draft) (rec : Record) (fs : List Fragment) : Draft :=
  let before := p.enter rec
  let after := fs.foldl (Draft.addFragment tracked rec) before
  { after with
    producers := commit before.producers before.nodes.size fs
    base := if fs.any Fragment.foldsEip then rec.position else after.base }

def Draft.addRecords (t : Table) (tracked : Bool) : Draft → List Record → Except Unimplemented Draft
  | p, [] => .ok p
  | p, rec :: rest =>
    match t.targets? rec.op with
    | [] => .error ⟨rec.op, rec.index⟩
    | fs => addRecords t tracked (p.addRecord tracked rec fs) rest

/-- The graph of a block under a lowering table. -/
def build (t : Table) (tracked : Bool) (s : Stream) : Except Unimplemented Graph :=
  match Draft.empty.addRecords t tracked s.records with
  | .error e => .error e
  | .ok p => .ok { nodes := p.nodes, final := p.producers, effects := p.effects, rollbacks := p.rollbacks }

/-- The registers whose value at the end is not the one they started with. -/
def changed (g : Graph) : List Register :=
  Register.all.filter fun r => g.final.get (.reg r) != initialNode (.reg r)

/-- The nodes a block must evaluate: every effect in program order, then the changed registers. -/
def roots (g : Graph) : List Nat :=
  g.effects.toList ++ g.changed.map fun r => g.final.get (.reg r)

def inputs (g : Graph) (id : Nat) : List Nat := (g.nodes[id]?.map (·.inputs)).getD []

/-- How often every node is an input of another. -/
def uses (g : Graph) : Array Nat :=
  g.nodes.foldl (fun u n => n.inputs.foldl (fun u i => u.modify i (· + 1)) u)
    (Array.replicate g.nodes.size 0)

/-- The entries of a rollback that differ from the values at the start of the block, without EIP. -/
def restores (g : Graph) (r : Rollback) : List (Register × Nat) :=
  r.snapshot.filter fun e => e.1 != .eip && !(g.nodes[e.2]?.any Node.isInitial)

end Graph
end MicroBlock
