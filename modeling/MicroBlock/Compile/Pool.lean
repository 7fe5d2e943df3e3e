import MicroBlock.Compile.Compiler

/-! A pool of background compiles, every one of which is waited for before the next. -/

namespace MicroBlock

structure Pool where
  closed : Bool := false
  deriving DecidableEq

namespace Pool

/-- What a submission can come to besides a block. -/
inductive Failure where
  | closed (name : String)
  | compile (e : CompileFailure)
  deriving DecidableEq

/-- The words for a submission to a closed pool. -/
def closedMessage (name : String) : Message := Ground.closedPool.under ["compile ", .given name]

/-- A submission that the pool took, or why it took none. -/
abbrev Submission := Except Failure Compilation

/-- Submits a stream. -/
def submitStream (p : Pool) (c : Compiler) (l : Loader) (t : Target) (s : Stream) (name : String) :
    Submission :=
  let name := Compiler.nameFor t s name
  if p.closed then .error (.closed name) else .ok (c.compileStream l t s name)

/-- Submits a block. A faulty block does not reach the compiler, and without a target no other does. -/
def submit (p : Pool) (c : Compiler) (l : Loader) (t : Option Target) (b : Block) (name : String) :
    Submission :=
  match Stream.ofBlock b, t with
  | .error e, _ => .error (.compile (.error (Compiler.streamError name e)))
  | .ok _, none => .error (.compile .crash)
  | .ok s, some t => p.submitStream c l t s name

end Pool
end MicroBlock
