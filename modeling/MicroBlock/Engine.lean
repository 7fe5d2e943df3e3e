import MicroBlock.Compile.Pool

/-! The engine: runs blocks one at a time, compiled where possible and interpreted otherwise. -/

namespace MicroBlock

inductive ExecutionMode where
  /-- Compile on first sight and interpret on failure. -/
  | compiled
  /-- Never compile. -/
  | interpreter
  deriving DecidableEq

namespace ExecutionMode

def name : ExecutionMode → String
  | compiled => "compiled"
  | interpreter => "interpreter"

/-- The mode that a setting asks for. -/
def ofSetting (s : String) : ExecutionMode := if s = "interpreter" then interpreter else compiled

end ExecutionMode

structure Engine where
  mode : ExecutionMode
  helpers : Registry
  loader : Loader
  compiler : Compiler
  /-- Present if blocks are compiled in the background. -/
  pool : Option Pool
  /-- The names whose background compile was asked for. -/
  pending : List String := []
  interpreter : Interpreter.Stats := {}
  compiledRuns : Nat := 0
  interpretedRuns : Nat := 0
  /-- Blocks whose compile failed. -/
  fallbacks : Nat := 0

namespace Engine

/-- Why a run gave no count. -/
inductive Error where
  | stream (e : StreamError)
  | noCompiler (mode : ModeNumber)
  | interpreter (e : Interpreter.Error)
  | execution (e : Execution.Error)
  | unwritable (e : EmitError)
  | crash
  deriving DecidableEq

def Error.message : Error → Message
  | stream e => e.message
  | noCompiler mode => .plain ("no compiler for " ++ mode.name ++ " mode")
  | interpreter e => e.message
  | execution e => CodeBlock.errorMessage e
  | unwritable e => .plain e.message
  | crash => .plain ""

/-- An engine; background compiles need workers and the compiled mode. -/
def new (mode : ExecutionMode) (helpers : Registry) (workers : Int) (limits : CompileLimits) : Engine where
  mode
  helpers
  loader := { helpers }
  compiler := { limits }
  pool := if 0 < workers ∧ mode = .compiled then some {} else none

/-- What a run gives. -/
structure Run where
  result : Except Error Nat
  engine : Engine
  context : Context
  log : List String := []
  /-- The unit that was loaded on the way. -/
  fresh : Option (String × Bytes) := none

def interpret (e : Engine) (m : ModeNumber) (s : Stream) (c : Context) : Run :=
  let e := { e with interpretedRuns := e.interpretedRuns + 1 }
  match m.mode? with
  | none => { result := .error .crash, engine := e, context := c }
  | some mode =>
    let (result, c) := Interpreter.runMode mode e.helpers s c
    { result := match result with
        | .ok n => .ok n
        | .error .crash => .error .crash
        | .error x => .error (.interpreter x)
      engine := { e with interpreter := e.interpreter.add result }
      context := c }

def executeBlock (e : Engine) (b : CodeBlock) (c : Context) : Run :=
  let e := { e with compiledRuns := e.compiledRuns + 1 }
  match b.execute c with
  | (.ok n, c) => { result := .ok n, engine := e, context := c }
  | (.error .crash, c) => { result := .error .crash, engine := e, context := c }
  | (.error x, c) => { result := .error (.execution x), engine := e, context := c }

/-- Adds what compiling gave to a run that followed it. -/
def Run.after (r : Run) (c : Compilation) : Run := { r with log := c.log ++ r.log, fresh := c.fresh }

/-- Compiles on the spot. -/
def runCompiling (e : Engine) (t : Target) (m : ModeNumber) (s : Stream) (c : Context) : Run :=
  let r := e.compiler.compileStream e.loader t s ""
  let e := { e with compiler := r.compiler, loader := r.loader }
  match r.result with
  | .ok b => (e.executeBlock b c).after r
  | .error (.error _) =>
    ({ e with fallbacks := e.fallbacks + 1 }.interpret m s c).after r
  | .error (.unwritable x) => { result := .error (.unwritable x), engine := e, context := c, log := r.log }
  | .error .crash => { result := .error .crash, engine := e, context := c, log := r.log }

/-- Runs a block that is compiled already, or interprets it and asks for its compile once. -/
def runBackground (e : Engine) (p : Pool) (t : Target) (m : ModeNumber) (s : Stream) (c : Context) :
    Run :=
  let name := t.defaultName (contentSum s.microcodes)
  match e.compiler.lookup name with
  | some b => e.executeBlock b c
  | none =>
    if e.pending.contains name then e.interpret m s c
    else
      let e := { e with pending := e.pending ++ [name] }
      match p.submitStream e.compiler e.loader t s name with
      | .error _ => e.interpret m s c
      | .ok r =>
        let failed := match r.result with
          | .ok _ => 0
          | .error _ => 1
        let e := { e with compiler := r.compiler, loader := r.loader, fallbacks := e.fallbacks + failed }
        (e.interpret m s c).after r

/-- Runs a stream and returns the number of instructions it completed. -/
def runStream (e : Engine) (m : ModeNumber) (s : Stream) (c : Context) : Run :=
  if e.mode = .interpreter then e.interpret m s c
  else match Target.ofNumber? m with
    | none => { result := .error (.noCompiler m), engine := e, context := c }
    | some t =>
      match e.pool with
      | some p => e.runBackground p t m s c
      | none => e.runCompiling t m s c

/-- Runs a block. -/
def run (e : Engine) (m : ModeNumber) (b : Block) (c : Context) : Run :=
  match Stream.ofBlock b with
  | .error x => { result := .error (.stream x), engine := e, context := c }
  | .ok s => e.runStream m s c

/-- Blocks that are not compiled yet are interpreted from then on. -/
def close (e : Engine) : Engine := { e with pool := e.pool.map fun _ => { closed := true } }

end Engine
end MicroBlock
