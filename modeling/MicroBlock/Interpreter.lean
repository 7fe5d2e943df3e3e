import MicroBlock.Fragment.Eval
import MicroBlock.Lowering
import MicroBlock.Microcode.Stream

/-! Running a block record by record, straight from a lowering table.

Registers are written back once, at the end. A fault puts the registers back to what they were when
its instruction began, points EIP at that instruction and routes the fault. -/

namespace MicroBlock

/-- A record whose op has no fragment in the lowering table. -/
structure Unimplemented where
  op : Option Op
  index : Nat
  deriving DecidableEq

def Unimplemented.message (u : Unimplemented) : String :=
  "no lowering for " ++ Op.describe u.op ++ " in instruction " ++ toString u.index

/-- Where an instruction stands in the block when one of its records is reached: the bytes from the
    last point that EIP was brought up to, and the block offset. -/
def Record.place (rec : Record) (base : Int64) : Place where
  immediate := rec.immediate.getD 0
  x86Length := rec.position - base
  x86Position := rec.position

namespace Interpreter

/-- Why a run ended without a count of completed instructions. -/
inductive Error where
  | unimplemented (u : Unimplemented)
  | unknownHelper (fragment helper : String)
  | routeMissing (helper : String)
  /-- A fault where none may be raised. -/
  | fault (f : Fault)
  | helper (e : HelperError)
  | crash
  deriving DecidableEq

/-- The words for an error; a crash has none. -/
def Error.message : Error → Message
  | unimplemented u => .plain u.message
  | unknownHelper name h => .ofClause [.given name, ": unknown helper ", .given (Text.quoted h)]
  | routeMissing h => .ofClause ["fault routing helper ", .given h, " not found"]
  | fault f => .plain f.message
  | helper e => e.message
  | crash => .plain ""

def ofFailure : Failure → Error
  | .fault f => .fault f
  | .error e => .helper e
  | .crash => .crash

def ofEvalError : Fragment.EvalError → Error
  | .unknownHelper name h => .unknownHelper name h
  | .helper f => ofFailure f
  | .crash => .crash

abbrev Values := Bank Element Value

/-- The values at the start of a block. -/
def initialValues (m : Machine) : Values :=
  Element.all.foldl (fun v e => v.set e (m.get e)) (.replicate .zero)

/-- How far a run has come. -/
structure Progress where
  values : Values
  /-- The elements that some record has computed. -/
  written : Bank Element Bool
  /-- The values and the base when the current instruction began. -/
  snapshot : Values
  snapshotBase : Int64
  /-- The block offset that EIP was last brought up to. -/
  base : Int64
  /-- The instruction the last record belonged to. -/
  index : Option Nat
  context : Context

def Progress.start (c : Context) : Progress :=
  let values := initialValues c.machine
  { values, written := .replicate false, snapshot := values, snapshotBase := 0, base := 0
    index := none, context := c }

/-- Evaluates the fragments of one record, all over the same values. Stops at the first that fails. -/
def evalFragments (r : Registry) (values : Values) (p : Place) :
    List Fragment → Context → Except (Fragment × Fragment.EvalError) (List (Element × Value)) × Context
  | [], c => (.ok [], c)
  | f :: fs, c =>
    match f.eval r (f.inputs.map values.get) p c with
    | (.error e, c) => (.error (f, e), c)
    | (.ok v, c) =>
      match evalFragments r values p fs c with
      | (.error e, c) => (.error e, c)
      | (.ok vs, c) => (.ok (if f.target.kind = .void then vs else (f.target, v) :: vs), c)

/-- Puts the registers back to a snapshot and routes the fault. -/
def rollback (r : Registry) (route : String) (snapshot : Values) (delta : Int64) (f : Fault)
    (index : Nat) (c : Context) : Except Error Nat × Context :=
  let m := Register.all.foldl (fun m e => m.set e (snapshot.get (.reg e))) c.machine
  let eip := (snapshot.get .eip).toUInt32 + UInt32.ofInt delta.toInt
  let c := { c with machine := m.set .eip (.ofUInt32 eip) }
  match r.lookup route with
  | none => (.error (.routeMissing route), c)
  | some h =>
    match h.call [.cpu, .fault (some f)] c with
    | (.error e, c) => (.error (ofFailure e), c)
    | (.ok _, c) => (.ok index, c)

/-- The progress after the fragments of a record gave their results. -/
def Progress.commit (p : Progress) (rec : Record) (fs : List Fragment) (vs : List (Element × Value)) :
    Progress :=
  { p with
    values := vs.foldl (fun b v => b.set v.1 v.2) p.values
    written := vs.foldl (fun b v => b.set v.1 true) p.written
    base := if fs.any Fragment.foldsEip then rec.position else p.base }

/-- Takes a snapshot when a record starts a new instruction. -/
def Progress.enter (p : Progress) (rec : Record) : Progress :=
  if p.index = some rec.index then p
  else { p with snapshot := p.values, snapshotBase := p.base, index := some rec.index }

/-- Writes the computed registers back. -/
def Progress.writeBack (p : Progress) : Context :=
  { p.context with
    machine := Register.all.foldl
      (fun m e => if p.written.get (.reg e) then m.set e (p.values.get (.reg e)) else m)
      p.context.machine }

/-- Runs the records that are left; `count` is what a run to the end completes. -/
def runRecords (t : Table) (r : Registry) (route : String) (count : Nat) :
    List Record → Progress → Except Error Nat × Context
  | [], p => (.ok count, p.writeBack)
  | rec :: rest, p =>
    match t.targets? rec.op with
    | [] => (.error (.unimplemented ⟨rec.op, rec.index⟩), p.context)
    | fs =>
      let p := p.enter rec
      match evalFragments r p.values (rec.place p.base) fs p.context with
      | (.error (f, .helper (.fault x)), c) =>
        if f.canFault then
          rollback r route p.snapshot (rec.start - p.snapshotBase) x rec.index c
        else (.error (.fault x), c)
      | (.error (_, e), c) => (.error (ofEvalError e), c)
      | (.ok vs, c) =>
        runRecords t r route count rest ({ p with context := c }.commit rec fs vs)

/-- Runs a block and returns the number of instructions it completed. -/
def run (t : Table) (r : Registry) (route : String) (s : Stream) (c : Context) :
    Except Error Nat × Context :=
  runRecords t r route s.count s.records (.start c)

/-- Runs a block in a mode. -/
def runMode (m : Mode) (r : Registry) (s : Stream) (c : Context) : Except Error Nat × Context :=
  run (Lowering.table m) r (m : ModeNumber).routeHelper s c

/-- Interpreted work so far. -/
structure Stats where
  blocks : Nat := 0
  instructions : Nat := 0
  deriving DecidableEq

/-- Counts one more run. -/
def Stats.add (s : Stats) (result : Except Error Nat) : Stats :=
  { blocks := s.blocks + 1
    instructions := s.instructions + (match result with | .ok n => n | .error _ => 0) }

end Interpreter
end MicroBlock
