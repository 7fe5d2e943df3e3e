import MicroBlock.Cpu.Descriptor

/-! Helpers: the named functions that fragments and compiled code call, and the registry that
resolves their names. -/

namespace MicroBlock

/-- A failure of the host rather than of the guest. -/
inductive HelperError where
  /-- The first argument of the named helper is not the processor. -/
  | notCpu (helper : String)
  | noPendingFault (helper : String)
  | rejected (e : Rejection)
  /-- Any other failure, in a caller's words. -/
  | other (text : String)
  deriving DecidableEq

def HelperError.message : HelperError → Message
  | notCpu helper => .ofClause [.given helper, ": first argument is not the cpu"]
  | noPendingFault helper => .ofClause [.given helper, ": no pending fault"]
  | rejected e => .plain e.message
  | other text => .ofCaller text

/-- A caller's words for a ground stand for the ground. -/
def HelperError.ground? : HelperError → Option Ground
  | other text => Ground.ofWords? text
  | _ => none

/-- Why a helper gave no value. -/
inductive Failure where
  | fault (f : Fault)
  | error (e : HelperError)
  /-- The helper needs an argument that it was not given. -/
  | crash
  deriving DecidableEq

/-- What a helper does with its arguments, given in push order, and with the processor. A helper that
    fails leaves the processor alone. -/
abbrev Body := List Value → Machine → Except Failure (Value × Machine)

structure Helper where
  name : String
  /-- How many values a call takes from the stack. -/
  arity : Int
  /-- `void` for a helper that leaves nothing on the stack. -/
  result : Kind
  body : Body

/-- The values a call takes from a stack held top first, in push order, and the stack below them. -/
def Helper.arguments? (h : Helper) (stack : List Value) : Option (List Value × List Value) :=
  if 0 ≤ h.arity ∧ h.arity ≤ stack.length then
    some ((stack.take h.arity.toNat).reverse, stack.drop h.arity.toNat)
  else none

namespace Body

/-- Returns one value whatever the arguments. -/
def const (v : Value) : Body := fun _ m => .ok (v, m)

def faulting (f : Fault) : Body := fun _ _ => .error (.fault f)

def failing (text : String) : Body := fun _ _ => .error (.error (.other text))

end Body

/-- A processor with a block running on it, and the helpers called so far, latest first. -/
structure Context where
  machine : Machine
  calls : List String := []

def Helper.call (h : Helper) (args : List Value) (c : Context) : Except Failure Value × Context :=
  let calls := h.name :: c.calls
  match h.body args c.machine with
  | .ok (v, m) => (.ok v, ⟨m, calls⟩)
  | .error e => (.error e, { c with calls })

/-- Helpers by name. -/
structure Registry where
  helpers : List Helper

namespace Registry

inductive Error where
  | incomplete (name : String)
  | duplicate (name : String)
  | missing (name : String)
  deriving DecidableEq

def Error.message : Error → Message
  | incomplete name => .ofClause ["helper ", .given (Text.quoted name), " is incomplete"]
  | duplicate name => .ofClause ["helper ", .given (Text.quoted name), " already registered"]
  | missing name => .ofClause ["helper ", .given (Text.quoted name), " not registered"]

def empty : Registry := ⟨[]⟩

def lookup (r : Registry) (name : String) : Option Helper := r.helpers.find? (·.name == name)

/-- Adds a helper under a new name. A helper without a name or a body is refused. -/
def register (r : Registry) (name : String) (arity : Int) (result : Kind) (body : Option Body) :
    Except Error Registry :=
  match body with
  | none => .error (.incomplete name)
  | some body =>
    if name = "" then .error (.incomplete name)
    else if (r.lookup name).isSome then .error (.duplicate name)
    else .ok ⟨r.helpers ++ [⟨name, arity, result, body⟩]⟩

/-- Gives a registered helper another body and keeps its signature. -/
def replace (r : Registry) (name : String) (body : Body) : Except Error Registry :=
  if (r.lookup name).isSome then
    .ok ⟨r.helpers.map fun h => if h.name = name then { h with body } else h⟩
  else .error (.missing name)

/-- The names in order. -/
def names (r : Registry) : List String :=
  (r.helpers.map (·.name)).mergeSort (fun a b => decide (a ≤ b))

/-- The helpers among `names`, each once. -/
def restrict (r : Registry) (names : List String) : Registry :=
  ⟨r.helpers.filter fun h => names.contains h.name⟩

end Registry
end MicroBlock
