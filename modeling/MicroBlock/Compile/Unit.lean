import MicroBlock.Compile.Emission

/-! The unit of a block: a copy of its target's skeleton with every method filled in. -/

namespace MicroBlock.Target

/-- Why no unit could be made. -/
inductive UnitError where
  | oversize (size : Nat) (limit : Int)
  | body (e : Module.BodyError)
  /-- An accessor would have to push a number that has no form. -/
  | emit (e : EmitError)
  deriving DecidableEq

def UnitError.message : UnitError → Message
  | oversize size limit =>
    Ground.oversize.under ["execute is ", toString size, " bytes, limit ", toString limit]
  | body e => e.message
  | emit e => .plain e.message

/-- Fills a method that pushes one thing and returns it. -/
def accessor (m : Module) (method : String) (i : Instr) : Except UnitError Module :=
  match Code.emitInstr i with
  | .error e => .error (.emit e)
  | .ok code =>
    match m.setBody method (code ++ Instr.ret.encode) [] with
    | .error e => .error (.body e)
    | .ok m => .ok m

/-- Fills the methods that describe a block. -/
def accessors (s : Stream) (m : Module) : Except UnitError Module := do
  let (microcodes, m) := m.intern (.ints s.microcodes)
  let (positions, m) := m.intern (.ints s.positions)
  let m ← accessor m Module.countMethod (.push (Int32.ofNat s.count))
  let m ← accessor m Module.lengthMethod (.push s.length.toInt32)
  let m ← accessor m Module.microcodesMethod (.const (Int32.ofNat microcodes))
  accessor m Module.positionsMethod (.const (Int32.ofNat positions))

/-- The unit of a block under a name. -/
def unit (t : Target) (name : String) (s : Stream) (g : Graph) (slots : Slots) (limit : Int) :
    Except UnitError Module := do
  let m ← accessors s { t.skeleton with name := ByteString.ofString name, slots := slots.kinds }
  let (guards, e) := Emission.execute g slots t.route s.count m
  if limit < e.size then throw (.oversize e.size limit)
  match e.module.setBody Module.executeMethod e.bytes guards with
  | .error e => throw (.body e)
  | .ok m => return m

end MicroBlock.Target
