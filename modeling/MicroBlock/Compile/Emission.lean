import MicroBlock.Compile.Target
import MicroBlock.Dataflow.Slots

/-! Writing the code of a block from its graph.

The main code evaluates every effect in program order, pushes the final value of every changed register,
stores them last to first and returns the instruction count. The code of the rollbacks follows. -/

namespace MicroBlock

/-- Code being written. -/
structure Emission where
  /-- The instructions so far, latest first. -/
  code : List Instr
  /-- Their size in bytes. -/
  size : Nat
  /-- For every node that was stored, the offset just past the store. -/
  stored : Array (Option Nat)
  /-- The code that each rollback guards. -/
  extents : Array Extent
  module : Module

namespace Emission

def start (g : Graph) (m : Module) : Emission where
  code := []
  size := 0
  stored := Array.replicate g.nodes.size none
  extents := Array.replicate g.rollbacks.size {}
  module := m

def emit (s : Emission) (i : Instr) : Emission :=
  { s with code := i :: s.code, size := s.size + i.size }

/-- Pushes the low 32 bits of a number, out of the constant pool if no operand can hold them. -/
def pushInt (s : Emission) (v : Int) : Emission :=
  let w := Int32.ofInt v
  if Operand.fits w.toInt then s.emit (.push w)
  else
    let (i, m) := s.module.intern (.int w)
    { s with module := m }.emit (.const (Int32.ofNat i))

def call (s : Emission) (helper : String) : Emission :=
  let (i, m) := s.module.link helper
  { s with module := m }.emit (.call (Int32.ofNat i))

def getElement (s : Emission) (e : Element) : Emission := s.emit (.get (Int32.ofNat e.number))

def setRegister (s : Emission) (r : Register) : Emission := s.emit (.set (Int32.ofNat r.number))

/-- Where a node was stored, if it was. -/
def storedAt? (s : Emission) (id : Nat) : Option Nat := (s.stored[id]?).join

/-- Pushes a node from its slot. -/
def load (s : Emission) (slots : Slots) (id : Nat) (n : Node) : Emission :=
  match slots.of? id with
  | some slot => s.emit (.load (.ofKind n.element.kind) (Int32.ofNat slot))
  | none => s

/-- Attributes the code from an offset on to a rollback. -/
def cover (s : Emission) (rollback : Option Nat) (pc : Nat) : Emission :=
  match rollback with
  | some r => { s with extents := s.extents.modify r (·.cover pc s.size) }
  | none => s

/-- Writes one step of a node's fragment; `input` pushes a node. -/
def step (n : Node) (input : Nat → Emission → Emission) (s : Emission) : Step → Emission
  | .input i =>
    match if i < 0 then none else n.inputs[i.toNat]? with
    | some id => input id s
    | none => s
  | .literal l => s.pushInt (l.resolve n.place)
  | .dup => s.emit .dup
  | .pop => s.emit .pop
  | .call helper =>
    let after := s.call helper
    if n.canFault then after.cover n.rollback s.size else after
  | .unknown _ => s

/-- Writes the steps of a node's fragment. -/
def steps (n : Node) (o : Origin) (input : Nat → Emission → Emission) (s : Emission) : Emission :=
  o.fragment.steps.foldl (step n input) s

/-- What follows the steps of a node: a node with a slot is stored, and a statement leaves nothing on
    the stack. -/
def keep (slots : Slots) (id : Nat) (n : Node) (statement : Bool) (s : Emission) : Emission :=
  match slots.of? id with
  | some slot =>
    let s := if statement then s else s.emit .dup
    let s := s.emit (.store (.ofKind n.element.kind) (Int32.ofNat slot))
    { s with stored := s.stored.setIfInBounds id (some s.size) }
  | none => if statement && n.element.kind != .void then s.emit .pop else s

/-- Pushes a node: from its slot if it was stored, else by writing out its fragment. The inputs of a
    node are older than the node, so a depth above its number is enough. -/
def value (g : Graph) (slots : Slots) : Nat → Nat → Emission → Emission
  | 0, _, s => s
  | depth + 1, id, s =>
    match g.nodes[id]? with
    | none => s
    | some n =>
      if (s.storedAt? id).isSome then s.load slots id n
      else match n.origin with
        | none => s.getElement n.element
        | some o => keep slots id n false (steps n o (value g slots depth) s)

/-- Writes an effect as a statement. -/
def effect (g : Graph) (slots : Slots) (s : Emission) (id : Nat) : Emission :=
  match g.nodes[id]? with
  | some n =>
    match n.origin with
    | some o => keep slots id n true (steps n o (value g slots id) s)
    | none => s
  | none => s

/-- Pushes a node in the code of a rollback: from its slot if that was filled before the guarded code,
    else by writing out its fragment again. -/
def recompute (g : Graph) (slots : Slots) (guarded : Int) : Nat → Nat → Emission → Emission
  | 0, _, s => s
  | depth + 1, id, s =>
    match g.nodes[id]? with
    | none => s
    | some n =>
      if (s.storedAt? id).any (fun at_ => ((at_ : Nat) : Int) ≤ guarded) then s.load slots id n
      else match n.origin with
        | none => s.getElement n.element
        | some o => steps n o (recompute g slots guarded depth) s

/-- Writes the code of a rollback and returns its offset. -/
def rollback (g : Graph) (slots : Slots) (route : String) (r : Rollback) (guarded : Int)
    (s : Emission) : Nat × Emission :=
  let push (s : Emission) (id : Nat) : Emission := recompute g slots guarded (id + 1) id s
  let restores := g.restores r
  let target := s.size
  let s := restores.foldl (fun s e => push s e.2) s
  let s := match r.eip? with
    | some id => push s id
    | none => s
  let s := if r.delta = 0 then s else (s.pushInt r.delta.toInt).call Builtin.add32.name
  let s := s.setRegister .eip
  let s := restores.reverse.foldl (fun s e => s.setRegister e.1) s
  let s := ((s.getElement .cpu).emit .fault).call route
  (target, (s.pushInt r.index).emit .ret)

/-- Writes the code of the rollbacks that guard some code. -/
def rollbacks (g : Graph) (slots : Slots) (route : String) :
    List (Rollback × Extent) → Emission → List Guard × Emission
  | [], s => ([], s)
  | (r, x) :: rest, s =>
    if x.isEmpty then rollbacks g slots route rest s
    else
      let (target, s) := rollback g slots route r x.first s
      let (guards, s) := rollbacks g slots route rest s
      (⟨Int32.ofInt x.first, Int32.ofInt x.last, Int32.ofNat target⟩ :: guards, s)

/-- Writes the main code of a block of `count` instructions. -/
def main_ (g : Graph) (slots : Slots) (count : Nat) (s : Emission) : Emission :=
  let s := g.effects.foldl (effect g slots) s
  let s := g.changed.foldl
    (fun s r => let id := g.final.get (.reg r); value g slots (id + 1) id s) s
  let s := g.changed.reverse.foldl setRegister s
  (s.pushInt count).emit .ret

/-- Writes the code of a block, with the guards of its rollbacks. -/
def execute (g : Graph) (slots : Slots) (route : String) (count : Nat) (m : Module) :
    List Guard × Emission :=
  let s := main_ g slots count (start g m)
  rollbacks g slots route (g.rollbacks.toList.zip s.extents.toList) s

/-- The code in order. -/
def instrs (s : Emission) : List Instr := s.code.reverse

def bytes (s : Emission) : Bytes := s.instrs.flatMap Instr.encode

end Emission
end MicroBlock
