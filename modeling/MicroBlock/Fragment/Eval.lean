import MicroBlock.Fragment.Basic

/-! Evaluating a fragment directly over input values. -/

namespace MicroBlock.Fragment

inductive EvalError where
  | unknownHelper (fragment helper : String)
  | helper (f : Failure)
  /-- A step asks for an input or a stack entry that is not there. -/
  | crash
  deriving DecidableEq

/-- The input with a number, which may be out of range. -/
def input? (inputs : List Value) (i : Int) : Option Value :=
  if i < 0 then none else inputs[i.toNat]?

/-- Runs one step on a stack held top first. -/
def evalStep (r : Registry) (name : String) (inputs : List Value) (p : Place) (s : Step)
    (stack : List Value) (c : Context) : Except EvalError (List Value) × Context :=
  match s with
  | .input i =>
    match input? inputs i with
    | some v => (.ok (v :: stack), c)
    | none => (.error .crash, c)
  | .literal l => (.ok (.ofUInt32 (UInt32.ofInt (l.resolve p)) :: stack), c)
  | .dup =>
    match stack with
    | v :: rest => (.ok (v :: v :: rest), c)
    | [] => (.error .crash, c)
  | .pop =>
    match stack with
    | _ :: rest => (.ok rest, c)
    | [] => (.error .crash, c)
  | .call helper =>
    match r.lookup helper with
    | none => (.error (.unknownHelper name helper), c)
    | some h =>
      match h.arguments? stack with
      | none => (.error .crash, c)
      | some (args, rest) =>
        match h.call args c with
        | (.error f, c) => (.error (.helper f), c)
        | (.ok v, c) => (.ok (if h.result = .void then rest else v :: rest), c)
  | .unknown _ => (.ok stack, c)

def evalSteps (r : Registry) (name : String) (inputs : List Value) (p : Place) :
    List Step → List Value → Context → Except EvalError (List Value) × Context
  | [], stack, c => (.ok stack, c)
  | s :: rest, stack, c =>
    match evalStep r name inputs p s stack c with
    | (.error e, c) => (.error e, c)
    | (.ok stack, c) => evalSteps r name inputs p rest stack c

/-- The value on top when the steps have run; zero if they leave nothing. -/
def eval (f : Fragment) (r : Registry) (inputs : List Value) (p : Place) (c : Context) :
    Except EvalError Value × Context :=
  match evalSteps r f.name inputs p f.steps [] c with
  | (.error e, c) => (.error e, c)
  | (.ok stack, c) => (.ok (stack.headD .zero), c)

end MicroBlock.Fragment
