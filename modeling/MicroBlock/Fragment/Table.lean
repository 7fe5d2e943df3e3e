import MicroBlock.Fragment.Name

/-! Lowering tables: the fragments of every op, in element order, and the checks that a definition
passes to become part of one. -/

namespace MicroBlock

/-- The declaration of a fragment. Without steps it pushes every input in order and calls `apply`. -/
structure Definition where
  name : String
  steps : Option (List Step)
  apply : String := ""

structure Table where
  name : String
  /-- The fragments of an op, in element order. -/
  targets : Op → List Fragment

namespace Table

def lookup (t : Table) (op : Op) (e : Element) : Option Fragment :=
  (t.targets op).find? (·.target == e)

/-- The fragments of a record's op; an op outside the catalogue has none. -/
def targets? (t : Table) : Option Op → List Fragment
  | some op => t.targets op
  | none => []

/-- All fragments, in op and then element order. -/
def fragments (t : Table) : List Fragment := Op.all.flatMap t.targets

/-- Why a fragment's steps do not compute its target. -/
inductive Flaw where
  | voidByPure
  | notAssignable
  | badInput (step : Nat) (input : Int) (inputs : Nat)
  | noImmediate
  | dupEmpty (step : Nat)
  | popEmpty (step : Nat)
  | unknownHelper (helper : String)
  | fewArguments (helper : String) (arity : Int) (depth : Nat)
  | unknownStep (step : Nat) (kind : UInt8)
  | leftForVoid (depth : Nat)
  | leftOther (depth : Nat)
  | wrongKind (produced : Kind)
  deriving DecidableEq

/-- The words for a flaw of a fragment. -/
def Flaw.message (f : Fragment) (flaw : Flaw) : Message :=
  .ofClause (.given f.name :: ": " :: match flaw with
  | voidByPure => [f.target.name, " can only be produced by an effect"]
  | notAssignable => [f.target.name, " is not assignable"]
  | badInput step input inputs =>
    ["step ", toString step, " reads input ", toString input, " of ", toString inputs]
  | noImmediate => [f.op.name, " carries no immediate"]
  | dupEmpty step => ["step ", toString step, " duplicates an empty stack"]
  | popEmpty step => ["step ", toString step, " pops an empty stack"]
  | unknownHelper helper => ["unknown helper ", .given (Text.quoted helper)]
  | fewArguments helper arity depth =>
    [.given helper, " needs ", toString arity, " arguments, stack holds ", toString depth]
  | unknownStep step kind => ["step ", toString step, " has unknown kind ", toString kind.toNat]
  | leftForVoid depth => ["leaves ", toString depth, " values for a void target"]
  | leftOther depth => ["leaves ", toString depth, " values, want 1"]
  | wrongKind produced =>
    ["produces ", produced.name, " for ", f.target.kind.name, " target ", f.target.name])

/-- What a step does to the kinds on the stack, held top first; `n` is the number of the step. -/
def checkStep (r : Registry) (f : Signature) (n : Nat) (s : Step) (kinds : List Kind) :
    Except Flaw (List Kind) :=
  match s with
  | .input i =>
    if i < 0 then .error (.badInput n i f.inputs.length)
    else match f.inputs[i.toNat]? with
      | some e => .ok (e.kind :: kinds)
      | none => .error (.badInput n i f.inputs.length)
  | .literal l =>
    if l = .immediate ∧ f.op.hasImmediate = false then .error .noImmediate else .ok (.int :: kinds)
  | .dup =>
    match kinds with
    | k :: rest => .ok (k :: k :: rest)
    | [] => .error (.dupEmpty n)
  | .pop =>
    match kinds with
    | _ :: rest => .ok rest
    | [] => .error (.popEmpty n)
  | .call helper =>
    match r.lookup helper with
    | none => .error (.unknownHelper helper)
    | some h =>
      if kinds.length < h.arity then .error (.fewArguments helper h.arity kinds.length)
      else
        let rest := kinds.drop h.arity.toNat
        .ok (if h.result = .void then rest else h.result :: rest)
  | .unknown kind => .error (.unknownStep n kind)

def checkSteps (r : Registry) (f : Signature) (n : Nat) :
    List Step → List Kind → Except Flaw (List Kind)
  | [], kinds => .ok kinds
  | s :: rest, kinds =>
    match checkStep r f n s kinds with
    | .error e => .error e
    | .ok kinds => checkSteps r f (n + 1) rest kinds

/-- A void target is left to an effect that leaves the stack empty; any other target gets exactly one
    value of its kind. -/
def check (r : Registry) (f : Fragment) : Except Flaw Unit :=
  let target := f.target.kind
  if target = .void ∧ f.hasEffect = false then .error .voidByPure
  else if f.target.isPseudo ∧ target ≠ .void then .error .notAssignable
  else match checkSteps r f.toSignature 0 f.steps [] with
    | .error e => .error e
    | .ok kinds =>
      if target = .void then
        if kinds.isEmpty then .ok () else .error (.leftForVoid kinds.length)
      else match kinds with
        | [k] => if k = target then .ok () else .error (.wrongKind k)
        | _ => .error (.leftOther kinds.length)

/-- What is wrong with a definition. -/
inductive DefinitionError where
  | name (e : Signature.NameError)
  | flaw (f : Fragment) (e : Flaw)
  | duplicate (op : Op) (target : Element)
  deriving DecidableEq

def DefinitionError.message : DefinitionError → Message
  | name e => e.message
  | flaw f e => e.message f
  | duplicate op target => .plain ("duplicate fragment for " ++ op.name ++ " -> " ++ target.name)

structure Error where
  table : String
  cause : DefinitionError
  deriving DecidableEq

def Error.message (e : Error) : Message := e.cause.message.under ["table ", .given e.table]

/-- The steps of a definition once its inputs are known. -/
def stepsOf (d : Definition) (inputs : Nat) : List Step :=
  match d.steps with
  | some steps => steps
  | none =>
    if d.apply = "" then []
    else (List.range inputs).map (fun i => .input i) ++ [.call d.apply]

/-- Adds the fragment a definition declares to those before it. -/
def add (r : Registry) (fs : List Fragment) (d : Definition) : Except DefinitionError (List Fragment) :=
  match Signature.parse d.name with
  | .error e => .error (.name e)
  | .ok sig =>
    let f : Fragment := { sig with name := d.name, steps := stepsOf d sig.inputs.length }
    match check r f with
    | .error e => .error (.flaw f e)
    | .ok () =>
      if fs.any (fun g => g.op == f.op && g.target == f.target) then
        .error (.duplicate f.op f.target)
      else .ok (fs ++ [f])

def addAll (r : Registry) : List Fragment → List Definition → Except DefinitionError (List Fragment)
  | fs, [] => .ok fs
  | fs, d :: ds =>
    match add r fs d with
    | .error e => .error e
    | .ok fs => addAll r fs ds

/-- Files fragments by op and orders each op's by target. -/
def ofFragments (name : String) (fs : List Fragment) : Table where
  name
  targets op :=
    (fs.filter (·.op == op)).mergeSort (fun a b => decide (a.target.number ≤ b.target.number))

/-- Builds a table from definitions, or tells the first thing wrong with them. -/
def build (name : String) (ds : List Definition) (r : Registry) : Except Error Table :=
  match addAll r [] ds with
  | .error e => .error ⟨name, e⟩
  | .ok fs => .ok (ofFragments name fs)

end Table
end MicroBlock
