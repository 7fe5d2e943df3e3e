import MicroBlock.Loader.Routine

/-! Running a routine on its operand stack.

A helper's fault that a guard covers empties the stack and goes on at the guard's target; any other
failure ends the run. -/

namespace MicroBlock

/-- What a routine of a module runs against: its constants and the helpers that its links stand for. -/
structure Linkage where
  constants : List Constant
  slots : Nat
  helpers : List Helper

namespace Execution

/-- Why a run gave no value. -/
inductive Error where
  /-- Element access in a run without a processor. -/
  | noCpu (op : Opcode)
  | helper (name : String) (e : HelperError)
  /-- A fault that no guard covers. -/
  | fault (f : Fault)
  | fellOff
  | crash
  /-- The run was given up unfinished. -/
  | unfinished
  deriving DecidableEq

/-- The words for an error of the routine of a name; a crash has none. -/
def Error.message (routine : ByteString) : Error → Message
  | noCpu op => .ofClause [.given routine, ": ", op.name, " without a processor state"]
  | helper name e => e.message.under [.given routine, ": ", .given name]
  | fault f => .plain f.message
  | fellOff => .ofClause [.given routine, ": fell off the end"]
  | crash => .plain ""
  | unfinished => .ofClause [.given routine, ": did not finish"]

/-- The ground of an error that callers tell apart. -/
def Error.ground? : Error → Option Ground
  | helper _ e => e.ground?
  | _ => none

def constantValue : Constant → Value
  | .int v => .ofUInt32 v.toUInt32
  | .long v => .word v.toUInt64
  | .text s => .text s
  | .ints a => .ints a
  | .unknown _ => .ints []

/-- A routine in the middle of a run. -/
structure State where
  /-- The instructions that are next. -/
  rest : List Code.Placed
  /-- The operand stack, top first. -/
  stack : List Value
  slots : Array Value
  /-- The fault that led into the current handler. -/
  pending : Option Fault
  context : Context

inductive Outcome where
  | running (s : State)
  | returned (v : Value) (c : Context)
  | failed (e : Error) (c : Context)

/-- Goes on with another stack. -/
def State.next (s : State) (rest : List Code.Placed) (stack : List Value) : Outcome :=
  .running { s with rest, stack }

/-- A call of a helper from offset `pc`. -/
def call (r : Routine) (s : State) (pc : Nat) (rest : List Code.Placed) (h : Helper) : Outcome :=
  match h.arguments? s.stack with
  | none => .failed .crash s.context
  | some (args, below) =>
    match h.call args s.context with
    | (.ok v, c) =>
      .running { s with rest, stack := if h.result = .void then below else v :: below, context := c }
    | (.error (.fault f), c) =>
      match r.target? pc with
      | none => .failed (.fault f) c
      | some target =>
        .running { s with rest := r.codeFrom target, stack := [], pending := some f, context := c }
    | (.error (.error e), c) => .failed (.helper h.name e) c
    | (.error .crash, c) => .failed .crash c

/-- Runs one instruction. `cpu` tells whether there is a processor to read and write. -/
def step (l : Linkage) (r : Routine) (cpu : Bool) (s : State) : Outcome :=
  match s.rest with
  | [] => .failed .fellOff s.context
  | p :: rest =>
    match p.instr, s.stack with
    | .nop, stack => s.next rest stack
    | .push v, stack => s.next rest (.ofUInt32 v.toUInt32 :: stack)
    | .const i, stack =>
      match Routine.nth? l.constants i with
      | some c => s.next rest (constantValue c :: stack)
      | none => .failed .crash s.context
    | .dup, v :: stack => s.next rest (v :: v :: stack)
    | .pop, _ :: stack => s.next rest stack
    | .load _ i, stack =>
      if i < 0 then .failed .crash s.context
      else match s.slots[i.toInt.toNat]? with
        | some v => s.next rest (v :: stack)
        | none => .failed .crash s.context
    | .store _ i, v :: stack =>
      if i < 0 || s.slots.size ≤ i.toInt.toNat then .failed .crash s.context
      else .running { s with rest, stack, slots := s.slots.setIfInBounds i.toInt.toNat v }
    | .get e, stack =>
      if !cpu then .failed (.noCpu .gete) s.context
      else match Routine.element? e with
        | some e => s.next rest (s.context.machine.get e :: stack)
        | none => .failed .crash s.context
    | .set e, stack =>
      if !cpu then .failed (.noCpu .sete) s.context
      else match Routine.element? e, stack with
        | some (.reg reg), v :: stack =>
          .running { s with rest, stack, context.machine := s.context.machine.set reg v }
        | _, _ => .failed .crash s.context
    | .call i, _ =>
      match Routine.nth? l.helpers i with
      | some h => call r s p.pc rest h
      | none => .failed .crash s.context
    | .fault, stack => s.next rest (.fault s.pending :: stack)
    | .ret, v :: _ => .returned v s.context
    | _, _ => .failed .crash s.context

/-- Runs at most `steps` instructions. -/
def runFor (l : Linkage) (r : Routine) (cpu : Bool) : Nat → State → Outcome
  | 0, s => .running s
  | steps + 1, s =>
    match step l r cpu s with
    | .running s => runFor l r cpu steps s
    | done => done

/-- The state before the first instruction. -/
def start (r : Routine) (slots : Nat) (c : Context) : State where
  rest := r.code
  stack := []
  slots := Array.replicate slots .zero
  pending := none
  context := c

/-- After so many instructions a run is given up. -/
def stepLimit : Nat := 0x1000000000000

/-- Runs a routine to its end. Only the execute routine has slots. -/
def run (l : Linkage) (r : Routine) (cpu : Bool) (c : Context) : Except Error Value × Context :=
  let slots := if r.name = ByteString.ofString Module.executeMethod then l.slots else 0
  match runFor l r cpu stepLimit (start r slots c) with
  | .returned v c => (.ok v, c)
  | .failed e c => (.error e, c)
  | .running s => (.error .unfinished, s.context)

end Execution
end MicroBlock
