import MicroBlock.Container.Module
import MicroBlock.Helper.Basic

/-! Routines: method bodies that passed verification.

Code is a sequence of straight stretches that each end in a return. A stretch begins at offset zero or
at the target of a guard, with an empty stack. -/

namespace MicroBlock

structure Routine where
  name : ByteString
  code : List Code.Placed
  guards : List Guard

namespace Routine

/-- What is wrong with one instruction. -/
inductive Flaw where
  | unreachable
  | targetInside
  | badElement
  | badConstant
  | badSlot
  | slotKind (holds wanted : Kind)
  | notRegister
  | badLink
  | faultOutside
  | returnDepth (depth : Int)
  | underflow
  deriving DecidableEq

def Flaw.message : Flaw → String
  | unreachable => "unreachable code"
  | targetInside => "handler target inside a segment"
  | badElement => "bad element"
  | badConstant => "bad constant"
  | badSlot => "bad slot"
  | slotKind holds wanted => "slot holds " ++ holds.name ++ ", not " ++ wanted.name
  | notRegister => "element is not architectural"
  | badLink => "bad link"
  | faultOutside => "FAULT outside a handler"
  | returnDepth depth => "returns with " ++ toString depth ++ " values on the stack"
  | underflow => "stack underflow"

/-- Why a method body was turned down. -/
inductive Error where
  | neverSet
  | code (e : Code.Error)
  | badRange (g : Guard)
  | badTarget (g : Guard)
  | flaw (p : Code.Placed) (e : Flaw)
  | fallsOff
  deriving DecidableEq

/-- What the verifier refuses on the ground that every refusal shares. -/
def refused (c : Clause) : Message := Ground.invalidUnit.under c

/-- The words for an error in the method of a name. -/
def Error.message (method : ByteString) : Error → Message
  | neverSet => refused [.given method, ": body never set"]
  | code e => (Message.plain e.message).under [.label method]
  | badRange g =>
    refused [.given method, ": bad handler range [", toString g.first.toInt, ",",
      toString g.last.toInt, ")"]
  | badTarget g =>
    refused [.given method, ": handler target ", toString g.target.toInt, " is not an instruction"]
  | flaw p e =>
    refused [.given method, " at ", toString p.pc, " (", p.instr.describe, "): ", e.message]
  | fallsOff => refused [.given method, ": falls off the end"]

/-- The element an operand names. -/
def element? (i : Int32) : Option Element := if i < 0 then none else Element.ofNumber? i.toInt.toNat

/-- The entry of a list that an operand names. -/
def nth? {α : Type} (l : List α) (i : Int32) : Option α :=
  if i < 0 then none else l[i.toInt.toNat]?

/-- How many values an instruction takes from the stack and how many it leaves there, if its operand
    is in order. A return is not asked. -/
def stackUse (m : Module) (helpers : List Helper) (inHandler : Bool) :
    Instr → Except Flaw (Int × Int)
  | .nop => .ok (0, 0)
  | .push _ => .ok (0, 1)
  | .const i => if (nth? m.constants i).isSome then .ok (0, 1) else .error .badConstant
  | .dup => .ok (1, 2)
  | .pop => .ok (1, 0)
  | .load c i =>
    match nth? m.slots i with
    | none => .error .badSlot
    | some k => if k = c.kind then .ok (0, 1) else .error (.slotKind k c.kind)
  | .store c i =>
    match nth? m.slots i with
    | none => .error .badSlot
    | some k => if k = c.kind then .ok (1, 0) else .error (.slotKind k c.kind)
  | .get e => if (element? e).isSome then .ok (0, 1) else .error .badElement
  | .set e => if (element? e).any Element.isRegister then .ok (1, 0) else .error .notRegister
  | .call i =>
    match nth? helpers i with
    | none => .error .badLink
    | some h => .ok (h.arity, if h.result = .void then 0 else 1)
  | .fault => if inHandler then .ok (0, 1) else .error .faultOutside
  | .ret => .ok (1, 0)

/-- The verifier between two instructions. -/
inductive Position where
  /-- A return was the last instruction, or none came yet. -/
  | between
  | inside (depth : Int) (inHandler : Bool)
  deriving DecidableEq

/-- The stretch that an instruction belongs to: its depth and whether it is a handler's. -/
def enter (targets : List Int32) (pc : Nat) : Position → Except Flaw (Int × Bool)
  | .between =>
    let isTarget := targets.any (·.toInt == pc)
    if pc = 0 || isTarget then .ok (0, isTarget) else .error .unreachable
  | .inside depth inHandler =>
    if targets.any (·.toInt == pc) then .error .targetInside else .ok (depth, inHandler)

/-- Checks one instruction. -/
def checkInstr (m : Module) (helpers : List Helper) (targets : List Int32) (at_ : Position)
    (p : Code.Placed) : Except Flaw Position :=
  match enter targets p.pc at_ with
  | .error e => .error e
  | .ok (depth, inHandler) =>
    if p.instr = .ret then if depth = 1 then .ok .between else .error (.returnDepth depth)
    else match stackUse m helpers inHandler p.instr with
      | .error e => .error e
      | .ok (pops, pushes) =>
        if depth < pops then .error .underflow
        else .ok (.inside (depth + (pushes - pops)) inHandler)

def checkCode (m : Module) (helpers : List Helper) (targets : List Int32) :
    Position → List Code.Placed → Except Error Unit
  | .between, [] => .ok ()
  | .inside _ _, [] => .error .fallsOff
  | at_, p :: rest =>
    match checkInstr m helpers targets at_ p with
    | .error e => .error (.flaw p e)
    | .ok at_ => checkCode m helpers targets at_ rest

/-- A guard covers whole instructions and leads to one. -/
def checkGuard (code : List Code.Placed) (size : Nat) (g : Guard) : Except Error Unit :=
  let starts (i : Int32) : Bool := code.any fun p => i.toInt == p.pc
  if !starts g.first || !(starts g.last || g.last.toInt == size) || g.last ≤ g.first then
    .error (.badRange g)
  else if !starts g.target then .error (.badTarget g)
  else .ok ()

/-- Verifies a method of a module whose links stand for `helpers`. -/
def ofMethod (m : Module) (helpers : List Helper) (me : Method) : Except Error Routine :=
  if me.isPlaceholder then .error .neverSet
  else match Code.decode me.code with
    | .error e => .error (.code e)
    | .ok code =>
      match me.guards.forM (checkGuard code me.code.length) with
      | .error e => .error e
      | .ok () =>
        match checkCode m helpers (me.guards.map (·.target)) .between code with
        | .error e => .error e
        | .ok () => .ok { name := me.name, code, guards := me.guards }

/-- Where a fault raised at an offset goes on. -/
def target? (r : Routine) (pc : Nat) : Option Int32 :=
  (r.guards.find? fun g => g.first.toInt ≤ (pc : Int) && (pc : Int) < g.last.toInt).map (·.target)

/-- The code from an offset on. -/
def codeFrom (r : Routine) (pc : Int32) : List Code.Placed :=
  r.code.dropWhile fun p => pc.toInt != p.pc

end Routine
end MicroBlock
